import DistributedDb.HashRing.View

/-
What routing depends on.

Two virtual nodes may land on one position of the ring, and the position then
belongs to whichever node was added last; when that node is removed, the position
is gone.  As long as no addition takes a position from another node, the entries
are determined by the registry: every registered node stands at all of its
positions.  After one that does, the order of the additions decides who answers
for the keys of that position.
-/

namespace DistributedDb
namespace HashRing

/-- A virtual node of `id` stands at `pos`. -/
def StandsAt (id : Int) (pos : UInt32) : Prop := ∃ i, i < virtualNodes ∧ pos = vnodeHash id i

/-- Some virtual node of `a` has the position of one of `b`. -/
def SharePosition (a b : Int) : Prop := ∃ pos, StandsAt a pos ∧ StandsAt b pos

/-- All lookups return the same nodes in the same order. -/
def RoutesAlike (r s : HashRing) : Prop :=
  ∀ key, r.getPrimary key = s.getPrimary key ∧
    ∀ rf : Int, 1 ≤ rf → r.getReplicas key rf = s.getReplicas key rf

theorem routesAlike_of_entries {r s : HashRing} (h : r.ring.entries = s.ring.entries) :
    RoutesAlike r s := by
  intro key
  refine ⟨getPrimary_congr h key, fun rf hrf => ?_⟩
  obtain ⟨n, rfl⟩ := Int.eq_ofNat_of_zero_le (by omega : 0 ≤ rf)
  exact getReplicas_congr h key n (by omega)

/-! ## The node at a position -/

theorem head?_entriesFrom {r : HashRing} {pos : UInt32} {n : NodeInfo}
    (h : (pos, n) ∈ r.ring.entries) : (r.entriesFrom pos).head? = some (pos, n) := by
  have hmem : (pos, n) ∈ r.ring.entries.filter fun e => decide (pos ≤ e.1) :=
    List.mem_filter.mpr ⟨h, by simp⟩
  obtain ⟨e, rest, hsplit⟩ := List.exists_cons_of_ne_nil (List.ne_nil_of_mem hmem)
  have he := List.mem_filter.mp (hsplit ▸ List.mem_cons_self : e ∈ r.ring.entries.filter _)
  -- The first entry at or after `pos` is not past the one that stands at `pos`.
  have hle : e.1 ≤ pos := by
    have hsorted := r.ring.sorted.filter fun e => decide (pos ≤ e.1)
    rw [hsplit] at hmem hsorted
    rcases List.mem_cons.mp hmem with heq | hrest
    · exact le_of_eq (congrArg Prod.fst heq).symm
    · exact le_of_lt ((List.pairwise_cons.mp hsorted).1 (pos, n) hrest)
  have hpos : e.1 = pos := le_antisymm hle (by simpa using he.2)
  rw [entriesFrom, hsplit, List.cons_append, List.head?_cons,
    r.ring.eq_of_mem_of_key_eq he.1 h hpos]

/-- A key that hashes to the position of an alive entry belongs to its node. -/
theorem getPrimary_of_entry {r : HashRing} {key : Bytes} {n : NodeInfo}
    (h : (murmur3 key, n) ∈ r.ring.entries) (halive : n.alive = true) :
    r.getPrimary key = some n := by
  have hhead := head?_entriesFrom h
  rw [getPrimary_eq_find?, clockwise]
  cases hl : r.entriesFrom (murmur3 key) with
  | nil => simp [hl] at hhead
  | cons e rest =>
    rw [hl, List.head?_cons, Option.some.injEq] at hhead
    simp [hhead, halive]

/-! ## No position is taken from another node -/

/-- Every registered node stands at all of its positions. -/
def Full (r : HashRing) : Prop :=
  ∀ id n, r.nodesById.find? id = some n → ∀ pos, StandsAt id pos → (pos, n) ∈ r.ring.entries

/-- The entries of a ring that is well formed and full are determined by its
registry. -/
theorem mem_entries_of_full {r : HashRing} (hwf : WellFormed r) (hfull : Full r)
    (e : UInt32 × NodeInfo) :
    e ∈ r.ring.entries ↔ r.nodesById.find? e.2.id = some e.2 ∧ StandsAt e.2.id e.1 := by
  constructor
  · exact fun he => ⟨hwf.registered e he, hwf.position e he⟩
  · exact fun ⟨hreg, hpos⟩ => hfull e.2.id e.2 hreg e.1 hpos

/-- The operations add nodes of `ids` only. -/
def AddsWithin (ids : Set Int) (ops : List RingOp) : Prop := ∀ n, RingOp.add n ∈ ops → n.id ∈ ids

/-- A registered node was added. -/
theorem added_of_latest {ops : List RingOp} {id : Int} {n : NodeInfo}
    (h : latest ops id = some n) : ∃ node, RingOp.add node ∈ ops ∧ node.id = id := by
  induction ops using List.reverseRecOn generalizing n with
  | nil => simp [latest] at h
  | append_singleton ops op ih =>
    have hstep : latest (ops ++ [op]) id = note id (latest ops id) op := List.foldl_append
    have hlater : ∀ m, latest ops id = some m →
        ∃ node, RingOp.add node ∈ ops ++ [op] ∧ node.id = id := by
      intro m hm
      obtain ⟨node, hmem, hid⟩ := ih hm
      exact ⟨node, List.mem_append_left _ hmem, hid⟩
    rw [hstep] at h
    cases op with
    | add node =>
      by_cases hid : node.id = id
      · exact ⟨node, by simp, hid⟩
      · rw [note, if_neg hid] at h
        exact hlater n h
    | remove nodeId =>
      rw [note] at h
      split at h
      · exact absurd h (by simp)
      · exact hlater n h
    | status nodeId alive =>
      rw [note] at h
      split at h
      · obtain ⟨m, hm, -⟩ := Option.map_eq_some_iff.mp h
        exact hlater m hm
      · exact hlater n h

/-- Adding `node` takes a position from another node. -/
def Overwrites (r : HashRing) (node : NodeInfo) : Prop :=
  ∃ e ∈ r.ring.entries, StandsAt node.id e.1 ∧ e.2.id ≠ node.id

/-- No addition of the history takes a position from another node. -/
def NeverOverwrites (ops : List RingOp) : Prop :=
  ∀ done node, done ++ [RingOp.add node] <+: ops → ¬ Overwrites (build done) node

theorem neverOverwrites_nil : NeverOverwrites [] := by
  intro done node h
  exact absurd (List.prefix_nil.mp h) (by simp)

theorem neverOverwrites_concat {ops : List RingOp} {op : RingOp} :
    NeverOverwrites (ops ++ [op]) ↔
      NeverOverwrites ops ∧ ∀ node, op = .add node → ¬ Overwrites (build ops) node := by
  constructor
  · intro h
    refine ⟨fun done node hdone => h done node (hdone.trans (List.prefix_append ops [op])), ?_⟩
    rintro node rfl
    exact h ops node List.prefix_rfl
  · intro h done node hdone
    rcases List.prefix_concat_iff.mp hdone with heq | hold
    · obtain ⟨rfl, hlast⟩ := List.append_inj' heq rfl
      exact h.2 node (List.singleton_inj.mp hlast).symm
    · exact h.1 done node hold

theorem full_addNode {r : HashRing} (hwf : WellFormed r) (hfull : Full r) {node : NodeInfo}
    (hnode : ¬ Overwrites r node) : Full (r.addNode node) := by
  intro id n hn pos hpos
  rw [mem_addNode]
  by_cases hid : id = node.id
  · subst hid
    obtain ⟨i, hi, rfl⟩ := hpos
    have hself := OrderedMap.find?_insert_self r.nodesById node.id node
    have hn : n = node := Option.some.inj (hn.symm.trans hself)
    exact Or.inl ⟨i, hi, by rw [hn]⟩
  · have hold : r.nodesById.find? id = some n :=
      (OrderedMap.find?_insert_of_ne r.nodesById node hid).symm.trans hn
    have hentry := hfull id n hold pos hpos
    refine Or.inr ⟨hentry, fun i hi hshare => hnode ⟨(pos, n), hentry, ⟨i, hi, hshare⟩, ?_⟩⟩
    rw [hwf.keyed id n hold]
    exact hid

theorem full_removeNode {r : HashRing} (hwf : WellFormed r) (hfull : Full r) (nodeId : Int) :
    Full (r.removeNode nodeId) := by
  intro id n hn pos hpos
  rw [mem_removeNode]
  by_cases hid : id = nodeId
  · subst hid
    have hgone := OrderedMap.find?_erase_self r.nodesById id
    exact absurd (hn.symm.trans hgone) (by simp)
  · have hold : r.nodesById.find? id = some n :=
      (OrderedMap.find?_erase_of_ne r.nodesById hid).symm.trans hn
    exact ⟨hfull id n hold pos hpos, by rw [hwf.keyed id n hold]; exact hid⟩

theorem full_updateNodeStatus {r : HashRing} (hwf : WellFormed r) (hfull : Full r) (nodeId : Int)
    (alive : Bool) : Full (r.updateNodeStatus nodeId alive) := by
  by_cases hknown : r.nodesById.find? nodeId = none
  · rw [updateNodeStatus_of_unknown r alive hknown]
    exact hfull
  · intro id n hn pos hpos
    rw [entries_updateNodeStatus r alive hknown]
    rw [find?_updateNodeStatus] at hn
    by_cases hid : id = nodeId
    · rw [if_pos hid] at hn
      obtain ⟨m, hm, rfl⟩ := Option.map_eq_some_iff.mp hn
      refine List.mem_map.mpr ⟨(pos, m), hfull id m hm pos hpos, ?_⟩
      rw [setAlive, if_pos ((hwf.keyed id m hm).trans hid)]
    · rw [if_neg hid] at hn
      refine List.mem_map.mpr ⟨(pos, n), hfull id n hn pos hpos, ?_⟩
      rw [setAlive, if_neg (by rw [hwf.keyed id n hn]; exact hid)]

/-- A history without such an addition leaves a full ring. -/
theorem full_build {ops : List RingOp} (hops : NeverOverwrites ops) : Full (build ops) := by
  induction ops using List.reverseRecOn with
  | nil => exact fun id n hn => absurd hn (by simp [build, applyAll, empty])
  | append_singleton ops op ih =>
    obtain ⟨hold, hlast⟩ := neverOverwrites_concat.mp hops
    have hfull := ih hold
    have hwf := wellFormed_build ops
    have hstep : build (ops ++ [op]) = (build ops).apply op := List.foldl_append
    rw [hstep]
    cases op with
    | add node => exact full_addNode hwf hfull (hlast node rfl)
    | remove nodeId => exact full_removeNode hwf hfull nodeId
    | status nodeId alive => exact full_updateNodeStatus hwf hfull nodeId alive

/-- Two full rings with one registry route alike. -/
theorem routesAlike_of_full {r s : HashRing} (hr : WellFormed r) (hs : WellFormed s)
    (hrfull : Full r) (hsfull : Full s)
    (hsame : ∀ id, r.nodesById.find? id = s.nodesById.find? id) : RoutesAlike r s := by
  refine routesAlike_of_entries (OrderedMap.entries_eq_of_mem_iff fun e => ?_)
  rw [mem_entries_of_full hr hrfull, mem_entries_of_full hs hsfull, hsame]

/-- Histories that add nodes without a shared position. -/
theorem neverOverwrites_of_apart {ids : Set Int}
    (hapart : ∀ x ∈ ids, ∀ y ∈ ids, x ≠ y → ¬ SharePosition x y) {ops : List RingOp}
    (hops : AddsWithin ids ops) : NeverOverwrites ops := by
  intro done node hdone h
  obtain ⟨e, he, hpos, hne⟩ := h
  have hwf := wellFormed_build done
  obtain ⟨added, hmem, hid⟩ :=
    added_of_latest ((find?_build done e.2.id).symm.trans (hwf.registered e he))
  have hold : added.id ∈ ids :=
    hops added (hdone.subset (List.mem_append_left _ hmem))
  have hnew : node.id ∈ ids := hops node (hdone.subset (by simp))
  exact hapart e.2.id (hid ▸ hold) node.id hnew hne ⟨e.1, hwf.position e he, hpos⟩

/-- Two histories in which no addition takes a position from another node, and
which leave the same nodes registered, route alike. -/
theorem routing_by_membership {a b : List RingOp} (ha : NeverOverwrites a)
    (hb : NeverOverwrites b) (hsame : (build a).nodesById = (build b).nodesById) :
    RoutesAlike (build a) (build b) :=
  routesAlike_of_full (wellFormed_build a) (wellFormed_build b) (full_build ha) (full_build hb)
    fun id => by rw [hsame]

/-- Node 284 shares a position with node 675, and has left before node 675 comes. -/
theorem routing_by_membership_after_leaving :
    let a : NodeInfo := { id := 284, host := ascii "localhost", port := 8284 }
    let b : NodeInfo := { id := 675, host := ascii "localhost", port := 8675 }
    RoutesAlike (build [.add a, .remove 284, .add b]) (build [.add b]) := by
  intro a b
  have hnone : ∀ node, ¬ Overwrites (build []) node :=
    fun node ⟨e, he, _⟩ => absurd he List.not_mem_nil
  have hleft : ∀ node, ¬ Overwrites (build [.add a, .remove 284]) node := by
    intro node ⟨e, he, _⟩
    have hfind := (wellFormed_build [.add a, .remove 284]).registered e he
    rw [show (build [.add a, .remove 284]).nodesById.find? e.2.id = none from rfl] at hfind
    exact absurd hfind (by simp)
  have hfirst : NeverOverwrites [.add a] :=
    neverOverwrites_concat.mpr ⟨neverOverwrites_nil, fun node _ => hnone node⟩
  have hsecond : NeverOverwrites [.add a, .remove 284] :=
    neverOverwrites_concat.mpr ⟨hfirst, fun _ h => absurd h (by simp)⟩
  refine routing_by_membership
    (neverOverwrites_concat.mpr ⟨hsecond, fun node _ => hleft node⟩)
    (neverOverwrites_concat.mpr ⟨neverOverwrites_nil, fun node _ => hnone node⟩) ?_
  show ((OrderedMap.empty.insert (284 : Int) a).erase 284).insert 675 b =
    OrderedMap.empty.insert 675 b
  rfl

/-! ## With a shared position -/

/-- Of two nodes that share a position, the one added last has it. -/
theorem getPrimary_of_shared {a b : NodeInfo} {key : Bytes} (hb : StandsAt b.id (murmur3 key))
    (halive : b.alive = true) : (build [.add a, .add b]).getPrimary key = some b := by
  obtain ⟨i, hi, hpos⟩ := hb
  refine getPrimary_of_entry ?_ halive
  show (murmur3 key, b) ∈ ((empty.addNode a).addNode b).ring.entries
  rw [mem_addNode]
  exact Or.inl ⟨i, hi, by rw [hpos]⟩

/-- An addition that takes a position from another node, both being alive: after
it, the keys of the position tell the history from one that adds the other node
again. -/
theorem routing_differs_of_overwrites {done : List RingOp} {node : NodeInfo}
    {e : UInt32 × NodeInfo} (he : e ∈ (build done).ring.entries) (hpos : StandsAt node.id e.1)
    (hne : e.2.id ≠ node.id) (halive : e.2.alive = true) (hnode : node.alive = true) :
    (∀ id, (build (done ++ [.add node])).nodesById.find? id =
      (build (done ++ [.add node] ++ [.remove e.2.id, .add e.2])).nodesById.find? id) ∧
    ¬ RoutesAlike (build (done ++ [.add node]))
      (build (done ++ [.add node] ++ [.remove e.2.id, .add e.2])) := by
  have hwf := wellFormed_build done
  have hfirst : build (done ++ [.add node]) = (build done).addNode node := List.foldl_append
  have hsecond : build (done ++ [.add node] ++ [.remove e.2.id, .add e.2]) =
      (((build done).addNode node).removeNode e.2.id).addNode e.2 := by
    rw [build, applyAll, List.foldl_append]
    exact congrArg (fun r => (r.removeNode e.2.id).addNode e.2) hfirst
  rw [hfirst, hsecond]
  constructor
  · intro id
    by_cases hid : id = e.2.id
    · subst hid
      have hold : ((build done).addNode node).nodesById.find? e.2.id = some e.2 :=
        (OrderedMap.find?_insert_of_ne _ node hne).trans (hwf.registered e he)
      exact hold.trans (OrderedMap.find?_insert_self _ e.2.id e.2).symm
    · exact ((OrderedMap.find?_insert_of_ne _ e.2 hid).trans
        (OrderedMap.find?_erase_of_ne _ hid)).symm
  · intro halike
    -- The label of the virtual node is a key that hashes to the position.
    obtain ⟨i, hi, hi'⟩ := hwf.position e he
    obtain ⟨j, hj, hj'⟩ := hpos
    have hkey : murmur3 (vnodeLabel e.2.id i) = e.1 := hi'.symm
    have hthere : ((build done).addNode node).getPrimary (vnodeLabel e.2.id i) = some node := by
      refine getPrimary_of_entry ((mem_addNode _ _ _).mpr (Or.inl ⟨j, hj, ?_⟩)) hnode
      rw [hkey, hj']
    have hback : ((((build done).addNode node).removeNode e.2.id).addNode e.2).getPrimary
        (vnodeLabel e.2.id i) = some e.2 :=
      getPrimary_of_entry ((mem_addNode _ _ _).mpr (Or.inl ⟨i, hi, rfl⟩)) halive
    have hboth := (halike (vnodeLabel e.2.id i)).1
    rw [hthere, hback, Option.some.injEq] at hboth
    exact hne (congrArg NodeInfo.id hboth).symm

/-- Virtual node 90 of node 284 and virtual node 139 of node 675 have one
position.  The two orders of adding the nodes send the same key to different
primaries. -/
theorem routing_depends_on_order :
    let a : NodeInfo := { id := 284, host := ascii "localhost", port := 8284 }
    let b : NodeInfo := { id := 675, host := ascii "localhost", port := 8675 }
    (build [.add a, .add b]).nodesById = (build [.add b, .add a]).nodesById ∧
    (build [.add a, .add b]).getPrimary (ascii "node284-vn90") = some b ∧
    (build [.add b, .add a]).getPrimary (ascii "node284-vn90") = some a ∧
    ¬ RoutesAlike (build [.add a, .add b]) (build [.add b, .add a]) := by
  intro a b
  have hfirst : (build [.add a, .add b]).getPrimary (ascii "node284-vn90") = some b :=
    getPrimary_of_shared ⟨139, by decide, by decide +kernel⟩ rfl
  have hsecond : (build [.add b, .add a]).getPrimary (ascii "node284-vn90") = some a :=
    getPrimary_of_shared ⟨90, by decide, by decide +kernel⟩ rfl
  have hmaps : ∀ x y : NodeInfo, (build [.add x, .add y]).nodesById =
      (OrderedMap.empty.insert x.id x).insert y.id y := fun _ _ => rfl
  refine ⟨?_, hfirst, hsecond, fun h => ?_⟩
  · rw [hmaps, hmaps]
    rfl
  have hsame := (h (ascii "node284-vn90")).1
  rw [hfirst, hsecond, Option.some.injEq] at hsame
  exact absurd (congrArg NodeInfo.id hsame) (by decide)

/-! ## Who owns a position

A node that starts adds itself first and then its peers, with growing ids, so a
shared position goes to the highest of the peers that stand there. -/

/-- The position `pos` belongs to the node `id`. -/
def OwnedBy (r : HashRing) (pos : UInt32) (id : Int) : Prop :=
  ∃ n, (pos, n) ∈ r.ring.entries ∧ n.id = id

theorem ownedBy_addNode (r : HashRing) (node : NodeInfo) (pos : UInt32) (id : Int) :
    OwnedBy (r.addNode node) pos id ↔
      (id = node.id ∧ StandsAt id pos) ∨ (OwnedBy r pos id ∧ ¬ StandsAt node.id pos) := by
  constructor
  · intro h
    obtain ⟨n, hn, rfl⟩ := h
    rcases (mem_addNode r node (pos, n)).mp hn with ⟨i, hi, he⟩ | ⟨hn, hpos⟩
    · obtain ⟨rfl, rfl⟩ := Prod.mk.inj he
      exact Or.inl ⟨rfl, i, hi, rfl⟩
    · exact Or.inr ⟨⟨n, hn, rfl⟩, fun ⟨i, hi, he⟩ => hpos i hi he⟩
  · intro h
    rcases h with ⟨rfl, i, hi, rfl⟩ | ⟨⟨n, hn, rfl⟩, hpos⟩
    · exact ⟨node, (mem_addNode r node _).mpr (Or.inl ⟨i, hi, rfl⟩), rfl⟩
    · refine ⟨n, (mem_addNode r node _).mpr (Or.inr ⟨hn, fun i hi he => hpos ⟨i, hi, he⟩⟩), rfl⟩

theorem ownedBy_updateNodeStatus (r : HashRing) (nodeId : Int) (alive : Bool) (pos : UInt32)
    (id : Int) : OwnedBy (r.updateNodeStatus nodeId alive) pos id ↔ OwnedBy r pos id := by
  by_cases hknown : r.nodesById.find? nodeId = none
  · rw [updateNodeStatus_of_unknown r alive hknown]
  · rw [OwnedBy, entries_updateNodeStatus r alive hknown]
    constructor
    · intro h
      obtain ⟨n, hn, rfl⟩ := h
      obtain ⟨e, he, heq⟩ := List.mem_map.mp hn
      obtain ⟨rfl, rfl⟩ := Prod.mk.inj heq
      exact ⟨e.2, he, (setAlive_id nodeId alive e.2).symm⟩
    · intro h
      obtain ⟨n, hn, rfl⟩ := h
      exact ⟨_, List.mem_map.mpr ⟨(pos, n), hn, rfl⟩, setAlive_id nodeId alive n⟩

/-- The owners on the ring of a node `self` with the peers `peers`. -/
theorem ownedBy_start (self : NodeInfo) {peers : List NodeInfo}
    (hsorted : peers.Pairwise fun p q => p.id < q.id) (pos : UInt32) (id : Int) :
    OwnedBy (peers.foldl addNode (empty.addNode self)) pos id ↔
      StandsAt id pos ∧
        ((∃ p ∈ peers, p.id = id) ∧ (∀ p ∈ peers, StandsAt p.id pos → p.id ≤ id) ∨
          id = self.id ∧ ∀ p ∈ peers, ¬ StandsAt p.id pos) := by
  induction peers using List.reverseRecOn with
  | nil =>
    rw [List.foldl_nil, ownedBy_addNode]
    simp [OwnedBy, empty, and_comm]
  | append_singleton peers last ih =>
    obtain ⟨hpeers, -, hbelow⟩ := List.pairwise_append.mp hsorted
    have hlast : ∀ p ∈ peers, p.id < last.id := fun p hp => hbelow p hp last (by simp)
    rw [List.foldl_append, List.foldl_cons, List.foldl_nil, ownedBy_addNode, ih hpeers]
    by_cases hstands : StandsAt last.id pos
    · -- The position goes to `last`, and nobody else may claim it.
      constructor
      · intro h
        rcases h with ⟨rfl, hid⟩ | ⟨-, hno⟩
        · refine ⟨hid, Or.inl ⟨⟨last, by simp, rfl⟩, fun p hp _ => ?_⟩⟩
          rcases List.mem_append.mp hp with hp | hp
          · exact le_of_lt (hlast p hp)
          · rw [List.mem_singleton.mp hp]
        · exact absurd hstands hno
      · intro h
        obtain ⟨hid, ⟨⟨p, hp, rfl⟩, hmax⟩ | ⟨-, hnone⟩⟩ := h
        · have hle := hmax last (by simp) hstands
          rcases List.mem_append.mp hp with hp | hp
          · exact absurd (hlast p hp) (not_lt_of_ge hle)
          · rw [List.mem_singleton.mp hp] at hid ⊢
            exact Or.inl ⟨rfl, hid⟩
        · exact absurd hstands (hnone last (by simp))
    · have hne : StandsAt id pos → id ≠ last.id := fun hid heq => hstands (heq ▸ hid)
      constructor
      · intro h
        rcases h with ⟨rfl, hid⟩ | ⟨⟨hid, ⟨⟨p, hp, heq⟩, hmax⟩ | ⟨heq, hnone⟩⟩, -⟩
        · exact absurd hid hstands
        · refine ⟨hid, Or.inl ⟨⟨p, List.mem_append_left _ hp, heq⟩, fun q hq hqpos => ?_⟩⟩
          rcases List.mem_append.mp hq with hq | hq
          · exact hmax q hq hqpos
          · exact absurd (List.mem_singleton.mp hq ▸ hqpos) hstands
        · refine ⟨hid, Or.inr ⟨heq, fun q hq hqpos => ?_⟩⟩
          rcases List.mem_append.mp hq with hq | hq
          · exact hnone q hq hqpos
          · exact absurd (List.mem_singleton.mp hq ▸ hqpos) hstands
      · intro h
        obtain ⟨hid, ⟨⟨p, hp, heq⟩, hmax⟩ | ⟨heq, hnone⟩⟩ := h
        · have hp' : p ∈ peers := by
            rcases List.mem_append.mp hp with hp | hp
            · exact hp
            · exact absurd (heq ▸ List.mem_singleton.mp hp ▸ rfl) (hne hid)
          exact Or.inr ⟨⟨hid, Or.inl ⟨⟨p, hp', heq⟩,
            fun q hq => hmax q (List.mem_append_left _ hq)⟩⟩, hstands⟩
        · exact Or.inr ⟨⟨hid, Or.inr ⟨heq,
            fun q hq => hnone q (List.mem_append_left _ hq)⟩⟩, hstands⟩

/-- On a ring whose nodes are all alive, the owner of the position answers. -/
theorem primary_of_ownedBy {r : HashRing} (halive : ∀ e ∈ r.ring.entries, e.2.alive = true)
    {key : Bytes} {id : Int} (h : OwnedBy r (murmur3 key) id) :
    (r.getPrimary key).map NodeInfo.id = some id := by
  obtain ⟨n, hn, rfl⟩ := h
  rw [getPrimary_of_entry hn (halive _ hn), Option.map_some]

theorem ownedBy_of_primary {r : HashRing} {key : Bytes} {id : Int}
    (h : (r.getPrimary key).map NodeInfo.id = some id) : ∃ pos, OwnedBy r pos id := by
  obtain ⟨n, hn, rfl⟩ := Option.map_eq_some_iff.mp h
  obtain ⟨-, e, he, rfl⟩ := entry_of_getPrimary hn
  exact ⟨e.1, e.2, he, rfl⟩

end HashRing
end DistributedDb
