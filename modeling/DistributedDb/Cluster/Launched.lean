import DistributedDb.Cluster.Healthy
import DistributedDb.HashRing.Membership
import DistributedDb.Node.CommandLine

/-
From command lines to a healthy cluster.

Each node is a process of its own, started with its id and the addresses of the
others.  It puts itself on its ring first and its peers after it, so the nodes of
a cluster build their rings in different orders.  The rings come out the same
exactly when no two nodes have a virtual node at one position: a node takes such
a position for that of the other one.
-/

namespace DistributedDb
namespace Startup

open HashRing Cluster

/-- `self_info` of `main`. -/
def Config.self (cfg : Config) : NodeInfo :=
  { id := cfg.nodeId, host := cfg.host, port := cfg.port }

/-- The path of the log: one for each id, unless another one is asked for. -/
def Config.wal (cfg : Config) : Bytes :=
  if cfg.walPath ≠ ascii "./data/wal.log" then cfg.walPath
  else ascii "./data/node" ++ Json.dumpInteger cfg.nodeId ++ ascii "_wal.log"

/-- The node that `main` sets up, with what the disk holds under the path of its
log. -/
def Config.node (cfg : Config) (disk : Bytes → Bytes) (now : Int) : Node :=
  Node.start cfg.self cfg.peers (disk cfg.wal) now

/-! ## The configuration of each node -/

section Flags

variable {addr : Int → Bytes × Int} {n : Nat} {i : Int} {v : Launch}

theorem walPath_setFlags (cfg : Config) (order : List Flag) :
    (order.foldl (setFlag addr n i) cfg).walPath = cfg.walPath := by
  induction order generalizing cfg with
  | nil => rfl
  | cons f rest ih =>
    rw [List.foldl_cons, ih]
    cases f <;> rfl

/-- What a node makes of its command line. -/
structure Reads (addr : Int → Bytes × Int) (n : Nat) (i : Int) (cfg : Config) : Prop where
  self : cfg.self = nodeAt addr i
  peers : cfg.peers = (otherIds n i).map (nodeAt addr)
  wal : cfg.wal = ascii "./data/node" ++ Json.dumpInteger i ++ ascii "_wal.log"

theorem reads_commandLine (hv : Describes addr n i v) {order : List Flag}
    (horder : order.Perm [.id, .port, .host, .peers])
    (hfirst : order.idxOf .id < order.idxOf .peers ∨ i = 1) :
    ∃ cfg, parseArgs {} (commandLine v order) = .ok cfg ∧ Reads addr n i cfg := by
  obtain ⟨before, after, hsplit, hbefore, hafter, hid⟩ := exists_split horder
  have hmem : ∀ f : Flag, f ∈ order := by
    intro f
    rw [horder.mem_iff]
    cases f <;> decide
  refine ⟨_, parseArgs_commandLine hv {} order, ?_, ?_, ?_⟩
  · rw [Config.self, nodeId_setFlags, host_setFlags, port_setFlags, if_pos (hmem .id),
      if_pos (hmem .host), if_pos (hmem .port), nodeAt]
  · rw [hsplit, List.foldl_append, List.foldl_cons, peers_setFlags _ hafter, setFlag,
      peers_setFlags _ hbefore, nodeId_setFlags, ← numberPeers_otherIds]
    rcases hfirst with hlt | rfl
    · rw [if_pos (hid.mpr hlt)]
      rfl
    · rw [ite_self]
      rfl
  · rw [Config.wal, walPath_setFlags, nodeId_setFlags, if_pos (hmem .id), if_neg (by simp)]

end Flags

/-- Two nodes never write one log. -/
theorem Reads.wal_ne {addr : Int → Bytes × Int} {n : Nat} {i j : Int} {cfg cfg' : Config}
    (h : Reads addr n i cfg) (h' : Reads addr n j cfg') (hi : 0 ≤ i) (hj : 0 ≤ j) (hne : i ≠ j) :
    cfg.wal ≠ cfg'.wal := by
  rw [h.wal, h'.wal]
  intro heq
  have hdump := List.append_cancel_left (List.append_cancel_right heq)
  rw [Json.dumpInteger, Json.dumpInteger, if_neg (by omega), if_neg (by omega)] at hdump
  have hnat := congrArg Json.Numeral.readDecimal hdump
  rw [Json.readDecimal_decimal, Json.readDecimal_decimal] at hnat
  omega

/-! ## The rings -/

section Rings

variable (addr : Int → Bytes × Int)

/-- Adding the nodes `ids` one after the other. -/
def ringOf (ids : List Int) : HashRing := build (ids.map fun j => .add (nodeAt addr j))

theorem wellFormed_ringOf (ids : List Int) : WellFormed (ringOf addr ids) := wellFormed_build _

theorem find?_ringOf (ids : List Int) (id : Int) :
    (ringOf addr ids).nodesById.find? id = if id ∈ ids then some (nodeAt addr id) else none := by
  rw [ringOf, find?_build]
  induction ids using List.reverseRecOn with
  | nil => rfl
  | append_singleton ids j ih =>
    rw [List.map_append, List.map_singleton, latest, List.foldl_append, List.foldl_cons,
      List.foldl_nil, ← latest, ih, note]
    by_cases hj : j = id
    · subst hj
      simp [nodeAt]
    · have hmem : id ∈ ids ++ [j] ↔ id ∈ ids := by
        simp [Ne.symm hj]
      rw [if_neg (show (nodeAt addr j).id ≠ id from hj)]
      simp only [hmem]

theorem start_ring (i : Int) (others : List Int) (log : Bytes) (now : Int) :
    (Node.start (nodeAt addr i) (others.map (nodeAt addr)) log now).ring =
      ringOf addr (i :: others) := by
  show (others.map (nodeAt addr)).foldl addNode (empty.addNode (nodeAt addr i)) = _
  rw [ringOf, build, applyAll, List.map_cons, List.foldl_cons, List.foldl_map, List.foldl_map]
  rfl

/-- A position that some node of the list stands at has an owner. -/
theorem exists_ownedBy_ringOf {ids : List Int} {a : Int} (ha : a ∈ ids) {pos : UInt32}
    (hpos : StandsAt a pos) : ∃ id ∈ ids, OwnedBy (ringOf addr ids) pos id := by
  induction ids using List.reverseRecOn with
  | nil => exact absurd ha List.not_mem_nil
  | append_singleton ids j ih =>
    have hstep : ringOf addr (ids ++ [j]) = (ringOf addr ids).addNode (nodeAt addr j) := by
      rw [ringOf, List.map_append, build, applyAll, List.foldl_append]
      rfl
    rw [hstep]
    by_cases hj : StandsAt j pos
    · exact ⟨j, by simp, (ownedBy_addNode ..).mpr (Or.inl ⟨rfl, hj⟩)⟩
    · have hmem : a ∈ ids := by
        rcases List.mem_append.mp ha with ha | ha
        · exact ha
        · exact absurd (List.mem_singleton.mp ha ▸ hpos) hj
      obtain ⟨id, hid, howned⟩ := ih hmem
      exact ⟨id, by simp [hid], (ownedBy_addNode ..).mpr (Or.inr ⟨howned, hj⟩)⟩

/-- A node that owns a position on its own ring shares it with no peer. -/
theorem not_standsAt_of_ownedBy_self {n : Nat} {i : Int} {pos : UInt32}
    (h : OwnedBy (ringOf addr (i :: otherIds n i)) pos i) {j : Int} (hj : j ∈ otherIds n i) :
    ¬ StandsAt j pos := by
  have hsorted : ((otherIds n i).map (nodeAt addr)).Pairwise fun p q => p.id < q.id := by
    rw [← numberPeers_otherIds]
    exact (pairwise_numberPeers i 1 _).2
  rw [← start_ring addr i (otherIds n i) [] 0] at h
  obtain ⟨-, ⟨⟨p, hp, hid⟩, -⟩ | ⟨-, hnone⟩⟩ := (ownedBy_start (nodeAt addr i) hsorted pos i).mp h
  · obtain ⟨k, hk, rfl⟩ := List.mem_map.mp hp
    exact absurd hid (mem_otherIds.mp hk).2.2
  · show ¬ StandsAt (nodeAt addr j).id pos
    exact hnone (nodeAt addr j) (List.mem_map_of_mem hj)

theorem full_ringOf {ids : List Int} (hapart : ∀ a ∈ ids, ∀ b ∈ ids, a ≠ b → ¬ SharePosition a b) :
    Full (ringOf addr ids) := by
  have hids : ∀ x ∈ {j | j ∈ ids}, ∀ y ∈ {j | j ∈ ids}, x ≠ y → ¬ SharePosition x y := hapart
  refine full_build (neverOverwrites_of_apart hids fun m hm => ?_)
  obtain ⟨j, hj, heq⟩ := List.mem_map.mp hm
  obtain rfl := RingOp.add.inj heq
  exact hj

/-- Lists of the same nodes, no two of which share a position, give one ring. -/
theorem entries_ringOf_eq {ids ids' : List Int} (hsame : ∀ j, j ∈ ids ↔ j ∈ ids')
    (hapart : ∀ a ∈ ids, ∀ b ∈ ids, a ≠ b → ¬ SharePosition a b) :
    (ringOf addr ids).ring.entries = (ringOf addr ids').ring.entries := by
  have hapart' : ∀ a ∈ ids', ∀ b ∈ ids', a ≠ b → ¬ SharePosition a b :=
    fun a ha b hb => hapart a ((hsame a).mpr ha) b ((hsame b).mpr hb)
  refine OrderedMap.entries_eq_of_mem_iff fun e => ?_
  rw [mem_entries_of_full (wellFormed_ringOf addr ids) (full_ringOf addr hapart),
    mem_entries_of_full (wellFormed_ringOf addr ids') (full_ringOf addr hapart'),
    find?_ringOf, find?_ringOf]
  simp only [hsame]

end Rings

/-! ## The cluster -/

/-- The nodes `1..n` were started with their command lines, with `--id` before
`--peers` where that matters, and listen on their addresses. -/
structure Launched (addr : Int → Bytes × Int) (n : Nat) (disk : Bytes → Bytes)
    (cfg : Int → Config) (c : Cluster) : Prop where
  read : ∀ i : Int, 1 ≤ i → i ≤ n → ∃ v order, Describes addr n i v ∧
    order.Perm [.id, .port, .host, .peers] ∧
    (order.idxOf .id < order.idxOf .peers ∨ i = 1) ∧
    parseArgs {} (commandLine v order) = .ok (cfg i)
  started : ∀ i : Int, 1 ≤ i → i ≤ n → ∃ now, c.node i = (cfg i).node disk now
  listens : ∀ i : Int, 1 ≤ i → i ≤ n → c.listener (addr i).1 (addr i).2 = some i

variable {addr : Int → Bytes × Int} {n : Nat} {disk : Bytes → Bytes} {cfg : Int → Config}
  {c : Cluster}

theorem Launched.reads (h : Launched addr n disk cfg c) {i : Int} (hi : 1 ≤ i) (hn : i ≤ n) :
    Reads addr n i (cfg i) := by
  obtain ⟨v, order, hv, horder, hfirst, hargs⟩ := h.read i hi hn
  obtain ⟨cfg', hargs', hreads⟩ := reads_commandLine hv horder hfirst
  rwa [Except.ok.inj (hargs.symm.trans hargs')]

theorem Launched.ring (h : Launched addr n disk cfg c) {i : Int} (hi : 1 ≤ i) (hn : i ≤ n) :
    (c.node i).ring = ringOf addr (i :: otherIds n i) := by
  obtain ⟨now, hnode⟩ := h.started i hi hn
  rw [hnode, Config.node, (h.reads hi hn).self, (h.reads hi hn).peers, start_ring]

theorem mem_self_otherIds {i j : Int} (hi : 1 ≤ i) (hn : i ≤ n) :
    j ∈ i :: otherIds n i ↔ 1 ≤ j ∧ j ≤ n := by
  rw [List.mem_cons, mem_otherIds]
  omega

theorem mem_idsFrom_one {j : Int} : j ∈ idsFrom 1 n ↔ 1 ≤ j ∧ j ≤ n := by
  rw [mem_idsFrom]
  omega

theorem healthy_of_apart (h : Launched addr n disk cfg c)
    (hapart : ∀ a b : Int, 1 ≤ a → a ≤ n → 1 ≤ b → b ≤ n → a ≠ b → ¬ SharePosition a b) :
    (∀ i : Int, 1 ≤ i → i ≤ n → (ringOf addr (idsFrom 1 n)).Owns i) ∧
      Healthy c (ringOf addr (idsFrom 1 n)) := by
  have hapart' : ∀ a ∈ idsFrom 1 n, ∀ b ∈ idsFrom 1 n, a ≠ b → ¬ SharePosition a b := by
    intro a ha b hb
    rw [mem_idsFrom_one] at ha hb
    exact hapart a b ha.1 ha.2 hb.1 hb.2
  have hreg : ∀ e ∈ (ringOf addr (idsFrom 1 n)).ring.entries,
      (1 ≤ e.2.id ∧ e.2.id ≤ n) ∧ e.2 = nodeAt addr e.2.id := by
    intro e he
    have hfind := (wellFormed_ringOf addr (idsFrom 1 n)).registered e he
    rw [find?_ringOf] at hfind
    split at hfind
    · rename_i hmem
      exact ⟨mem_idsFrom_one.mp hmem, (Option.some.inj hfind).symm⟩
    · exact absurd hfind (by simp)
  refine ⟨fun i hi hn => ?_, ?_, ?_, ?_⟩
  · have hpos : StandsAt i (vnodeHash i 0) := ⟨0, by decide, rfl⟩
    have hfind : (ringOf addr (idsFrom 1 n)).nodesById.find? i = some (nodeAt addr i) := by
      rw [find?_ringOf, if_pos (mem_idsFrom_one.mpr ⟨hi, hn⟩)]
    exact ⟨_, full_ringOf addr hapart' i _ hfind _ hpos, rfl⟩
  · intro e he
    rw [(hreg e he).2]
    rfl
  · rintro i ⟨e, he, rfl⟩
    obtain ⟨⟨hi, hn⟩, -⟩ := hreg e he
    rw [h.ring hi hn]
    refine (entries_ringOf_eq addr (fun j => ?_) hapart').symm
    rw [mem_idsFrom_one, mem_self_otherIds hi hn]
  · intro e he
    obtain ⟨⟨hi, hn⟩, heq⟩ := hreg e he
    rw [heq]
    exact h.listens _ hi hn

theorem apart_of_healthy (h : Launched addr n disk cfg c) {base : HashRing}
    (howns : ∀ i : Int, 1 ≤ i → i ≤ n → base.Owns i) (hc : Healthy c base) {a b : Int}
    (ha : 1 ≤ a) (han : a ≤ n) (hb : 1 ≤ b) (hbn : b ≤ n) (hne : a ≠ b) :
    ¬ SharePosition a b := by
  rintro ⟨pos, hapos, hbpos⟩
  -- Whoever owns the position on the common ring also does so on its own ring,
  -- where it would have given the position to one of the two.
  obtain ⟨id, hid, howned⟩ := exists_ownedBy_ringOf addr ((mem_self_otherIds ha han).mpr ⟨ha, han⟩)
    hapos
  obtain ⟨hlow, hhigh⟩ := (mem_self_otherIds ha han).mp hid
  have hself : OwnedBy (ringOf addr (id :: otherIds n id)) pos id := by
    obtain ⟨m, hm, hmid⟩ := howned
    refine ⟨m, ?_, hmid⟩
    rw [← h.ring hlow hhigh, hc.ring id (howns id hlow hhigh), ← hc.ring a (howns a ha han),
      h.ring ha han]
    exact hm
  by_cases hida : id = a
  · have hother : b ∈ otherIds n id := mem_otherIds.mpr ⟨hb, hbn, by omega⟩
    exact not_standsAt_of_ownedBy_self addr hself hother hbpos
  · have hother : a ∈ otherIds n id := mem_otherIds.mpr ⟨ha, han, by omega⟩
    exact not_standsAt_of_ownedBy_self addr hself hother hapos

/-- Every node of a launched cluster has a log of its own, and the cluster is
healthy exactly when no two of its nodes share a position. -/
theorem launched_cluster_healthy_iff (h : Launched addr n disk cfg c) :
    (∀ i j : Int, 1 ≤ i → i ≤ n → 1 ≤ j → j ≤ n → i ≠ j → (cfg i).wal ≠ (cfg j).wal) ∧
    ((∃ base : HashRing, (∀ i : Int, 1 ≤ i → i ≤ n → base.Owns i) ∧ Healthy c base) ↔
      ∀ a b : Int, 1 ≤ a → a ≤ n → 1 ≤ b → b ≤ n → a ≠ b → ¬ SharePosition a b) := by
  refine ⟨fun i j hi hin hj hjn hne => ?_, fun ⟨base, howns, hc⟩ a b ha han hb hbn hne => ?_,
    fun hapart => ⟨_, healthy_of_apart h hapart⟩⟩
  · exact (h.reads hi hin).wal_ne (h.reads hj hjn) (by omega) (by omega) hne
  · exact apart_of_healthy h howns hc ha han hb hbn hne

/-! ## Two nodes on one machine -/

def pairAddr (j : Int) : Bytes × Int := (ascii "localhost", launchPort j)

def pairPeers (i : Int) : Bytes :=
  if i = 1 then ascii "localhost:8002" else ascii "localhost:8001"

def pairFlags (i : Nat) : Launch :=
  { idText := Json.decimal i
    portText := Json.decimal (launchPort i)
    host := ascii "localhost"
    peersText := pairPeers i }

theorem describes_pair {i : Nat} (hi : 1 ≤ i) (hn : i ≤ 2) :
    Describes pairAddr 2 i (pairFlags i) := by
  refine describes_of_tokens (fun _ => ascii "localhost") launchPort hi hn (by omega)
    (fun j _ hj => ?_) ?_
  · unfold launchPort
    omega
  · obtain rfl | rfl : i = 1 ∨ i = 2 := by omega
    · decide +kernel
    · decide +kernel

/-- Both nodes with empty disks. -/
def pairCluster : Cluster :=
  { node := fun i =>
      Node.start (nodeAt pairAddr i) ((otherIds 2 i).map (nodeAt pairAddr)) [] 0
    listener := fun host port =>
      if host = ascii "localhost" ∧ (port = 8001 ∨ port = 8002) then some (port - 8000) else none
    inFlight := [] }

theorem exists_launched_pairCluster :
    ∃ cfg, Launched pairAddr 2 (fun _ => []) cfg pairCluster := by
  have hread : ∀ i : Int, ∃ cfg, 1 ≤ i → i ≤ (2 : Nat) →
      (∃ v order, Describes pairAddr 2 i v ∧ order.Perm [.id, .port, .host, .peers] ∧
        (order.idxOf .id < order.idxOf .peers ∨ i = 1) ∧
        parseArgs {} (commandLine v order) = .ok cfg) ∧ Reads pairAddr 2 i cfg := by
    intro i
    by_cases hi : 1 ≤ i ∧ i ≤ (2 : Nat)
    · obtain ⟨k, rfl⟩ := Int.eq_ofNat_of_zero_le (show 0 ≤ i by omega)
      have hv := describes_pair (i := k) (by omega) (by omega)
      have horder : [Flag.id, .port, .host, .peers].Perm [.id, .port, .host, .peers] := .refl _
      have hfirst : [Flag.id, .port, .host, .peers].idxOf .id <
          [Flag.id, .port, .host, .peers].idxOf .peers ∨ (k : Int) = 1 := Or.inl (by decide)
      obtain ⟨cfg, hargs, hreads⟩ := reads_commandLine hv horder hfirst
      exact ⟨cfg, fun _ _ => ⟨⟨_, _, hv, horder, hfirst, hargs⟩, hreads⟩⟩
    · exact ⟨{}, fun hlow hhigh => absurd ⟨hlow, hhigh⟩ hi⟩
  choose cfg hcfg using hread
  refine ⟨cfg, fun i hi hn => (hcfg i hi hn).1, fun i hi hn => ⟨0, ?_⟩, fun i hi hn => ?_⟩
  · rw [Config.node, (hcfg i hi hn).2.self, (hcfg i hi hn).2.peers]
    rfl
  · obtain rfl | rfl : i = 1 ∨ i = 2 := by omega
    · decide
    · decide

def positions (id : Int) : List Nat :=
  (List.range virtualNodes).map fun i => (vnodeHash id i).toNat

theorem mem_positions {id : Int} {pos : UInt32} (h : StandsAt id pos) :
    pos.toNat ∈ positions id := by
  obtain ⟨i, hi, rfl⟩ := h
  exact List.mem_map.mpr ⟨i, List.mem_range.mpr hi, rfl⟩

theorem launched_cluster_healthy_pair :
    ∃ base : HashRing, (∀ i : Int, 1 ≤ i → i ≤ (2 : Nat) → base.Owns i) ∧
      Healthy pairCluster base := by
  obtain ⟨cfg, hlaunched⟩ := exists_launched_pairCluster
  refine (launched_cluster_healthy_iff hlaunched).2.mpr fun a b ha han hb hbn hne => ?_
  have hapart : ((positions 1).all fun p => (positions 2).all fun q => !Nat.beq p q) = true := by
    decide +kernel
  have hshare : ¬ SharePosition 1 2 := by
    rintro ⟨pos, hone, htwo⟩
    have hq := List.all_eq_true.mp (List.all_eq_true.mp hapart _ (mem_positions hone)) _
      (mem_positions htwo)
    simp at hq
  obtain ⟨rfl, rfl⟩ | ⟨rfl, rfl⟩ : (a = 1 ∧ b = 2) ∨ (a = 2 ∧ b = 1) := by omega
  · exact hshare
  · exact fun ⟨pos, htwo, hone⟩ => hshare ⟨pos, hone, htwo⟩

end Startup
end DistributedDb
