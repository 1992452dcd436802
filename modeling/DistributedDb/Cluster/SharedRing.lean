import DistributedDb.Cluster.Forwarding
import DistributedDb.HashRing.Launch
import DistributedDb.Lib.PreferenceRouting

/-
Forwarding in a cluster that shares one ring.

All live nodes hold the same positions and owners and have flagged some of them
dead.  A forward goes down the order in which the owners of the key stand on the
ring, except from a node that is second in its own replica list behind a node
that crashed: it goes on to the third.  A request is answered exactly when no such
exception hands it to somebody who hands it back.
-/

namespace DistributedDb
namespace Cluster

open Coordinator Relation

/-- The live nodes hold the ring `base`, each with its own view of who is alive,
in which it is alive itself.  A send to an owner reaches it when it is live and
nobody otherwise. -/
structure SharedRing (c : Cluster) (base : HashRing) (view : Int → Int → Bool)
    (live : Int → Prop) : Prop where
  sees : ∀ i, live i → (c.node i).ring.Sees base (view i)
  self : ∀ i, live i → view i i = true
  up : ∀ e ∈ base.ring.entries, live e.2.id → c.listener e.2.host e.2.port = some e.2.id
  down : ∀ e ∈ base.ring.entries, ¬ live e.2.id → c.listener e.2.host e.2.port = none

namespace SharedRing

variable {c : Cluster} {base : HashRing} {view : Int → Int → Bool} {live : Int → Prop}
  (h : SharedRing c base view live)
include h

theorem sameRouting {d : Cluster} (hd : SameRouting c d) : SharedRing d base view live where
  sees i hi := by
    rw [hd.ring]
    exact h.sees i hi
  self := h.self
  up := by
    rw [hd.listener]
    exact h.up
  down := by
    rw [hd.listener]
    exact h.down

theorem listener_iff {key : Bytes} {n : NodeInfo} (hn : n ∈ base.owners key) (j : Int) :
    c.listener n.host n.port = some j ↔ n.id = j ∧ live j := by
  obtain ⟨pos, hpos⟩ := HashRing.exists_entry_of_mem_owners hn
  by_cases hl : live n.id
  · have hup : c.listener n.host n.port = some n.id := h.up (pos, n) hpos hl
    rw [hup, Option.some.injEq]
    exact ⟨fun hj => ⟨hj, hj ▸ hl⟩, fun hj => hj.1⟩
  · have hdown : c.listener n.host n.port = none := h.down (pos, n) hpos hl
    rw [hdown]
    refine ⟨fun hj => absurd hj (by simp), fun hj => absurd hj.2 ?_⟩
    exact hj.1 ▸ hl

theorem listener_eq_none_iff {key : Bytes} {n : NodeInfo} (hn : n ∈ base.owners key) :
    c.listener n.host n.port = none ↔ ¬ live n.id := by
  rw [Option.eq_none_iff_forall_ne_some]
  refine ⟨fun hnone hl => hnone n.id ((h.listener_iff hn n.id).mpr ⟨rfl, hl⟩), fun hl j hj => ?_⟩
  obtain ⟨rfl, hlive⟩ := (h.listener_iff hn j).mp hj
  exact hl hlive

/-- The replicas that `i` sees, in terms of the owners of the key. -/
theorem getReplicas {i : Int} (hi : live i) (key : Bytes) :
    (c.node i).ring.getReplicas key replicationFactor =
      (((base.owners key).filter fun n => view i n.id).take 3).map (HashRing.flagged (view i)) :=
  (h.sees i hi).getReplicas key 3 (by omega)

theorem getPrimary {i : Int} (hi : live i) (key : Bytes) :
    (c.node i).ring.getPrimary key =
      ((base.owners key).filter fun n => view i n.id).head?.map (HashRing.flagged (view i)) :=
  (h.sees i hi).getPrimary key

omit h in
theorem candidates_eq (key : Bytes) (i : Int) :
    PreferenceRouting.candidates ((base.owners key).map NodeInfo.id) view i =
      ((base.owners key).filter fun n => view i n.id).map NodeInfo.id := by
  rw [PreferenceRouting.candidates, List.filter_map]
  rfl

/-- Forwarding is routing by the order of the owners. -/
theorem routes_of_forwards {key : Bytes} {i j : Int} (hi : live i) (hf : Forwards c key i j) :
    PreferenceRouting.Forwards ((base.owners key).map NodeInfo.id) view live 3 i j := by
  obtain ⟨p, hp, hpi, hj⟩ := hf
  rw [h.getPrimary hi] at hp
  obtain ⟨q, hq, rfl⟩ := Option.map_eq_some_iff.mp hp
  have hqo : q ∈ base.owners key := (List.mem_filter.mp (List.mem_of_mem_head? hq)).1
  have hhead : (PreferenceRouting.candidates ((base.owners key).map NodeInfo.id) view i).head? =
      some q.id := by
    rw [candidates_eq, List.head?_map, hq, Option.map_some]
  rcases hj with hup | ⟨hdown, r, hr, hrp, hri, hl⟩
  · obtain ⟨rfl, hlive⟩ := (h.listener_iff hqo j).mp hup
    exact ⟨q.id, hhead, hpi, hpi, hlive, Or.inl rfl⟩
  · rw [h.getReplicas hi] at hr
    obtain ⟨s, hs, rfl⟩ := List.mem_map.mp hr
    have hso : s ∈ base.owners key := (List.mem_filter.mp (List.mem_of_mem_take hs)).1
    obtain ⟨rfl, hlive⟩ := (h.listener_iff hso j).mp hl
    refine ⟨q.id, hhead, hpi, hri, hlive, Or.inr ⟨(h.listener_eq_none_iff hqo).mp hdown, ?_⟩⟩
    rw [candidates_eq, ← List.map_take]
    exact List.mem_map_of_mem hs

theorem live_of_reaches {key : Bytes} {e i : Int} (he : live e)
    (hreach : ReflTransGen (Forwards c key) e i) : live i := by
  induction hreach with
  | refl => exact he
  | tail _ hf ih => exact (h.routes_of_forwards ih hf).choose_spec.2.2.2.1

end SharedRing

/-! ## The launched cluster -/

/-- The three launched nodes with empty stores, after the nodes `crashed` have
stopped and node `i` has detected the failures `marked i`. -/
def launchCluster (crashed : List Int) (marked : Int → List Int) : Cluster :=
  { node := fun i =>
      let n := Node.start (launchNode i) (([1, 2, 3].filter (· ≠ i)).map launchNode) [] 0
      { n with
        ring := HashRing.launchRing.markDead (marked i)
        heartbeat := n.heartbeat.markFailed (marked i) }
    listener := fun host port =>
      if host = ascii "localhost" ∧ port - 8000 ∈ ([1, 2, 3] : List Int) ∧ port - 8000 ∉ crashed
      then some (port - 8000) else none
    inFlight := [] }

/-- A read of `user1`, a key of all three nodes. -/
def getMsg : Message := { type := .get, key := ascii "user1" }

def putMsg (value : String) : Message :=
  { type := .put, key := ascii "user1", value := ascii value }

def delMsg : Message := { type := .del, key := ascii "user1" }

theorem sharedRing_launchCluster (crashed : List Int) (marked : Int → List Int)
    (hself : ∀ i, i ∉ crashed → i ∉ marked i) :
    SharedRing (launchCluster crashed marked) HashRing.launchRing
      (fun i id => decide (id ∉ marked i)) (fun i => i ∉ crashed) where
  sees i _ :=
    HashRing.sees_markDead (HashRing.wellFormed_build _) HashRing.alive_launchRing (marked i)
  self i hi := decide_eq_true (hself i hi)
  up e he hlive := by
    obtain ⟨id, hid, hn, -⟩ := HashRing.owner_launchRing he
    rw [hn] at hlive ⊢
    have hport : 8000 + id - 8000 = id := by omega
    have hlive' : id ∉ crashed := hlive
    simp [launchCluster, launchNode, hport, hid, hlive']
  down e he hlive := by
    obtain ⟨id, -, hn, -⟩ := HashRing.owner_launchRing he
    rw [hn] at hlive ⊢
    have hport : 8000 + id - 8000 = id := by omega
    have hlive' : ¬ id ∉ crashed := hlive
    simp [launchCluster, launchNode, hport, hlive']

/-- The replica list of `i` is a crashed node, `i` itself and a live node; a read
does not find the key at `i`, and the third hands the request back to `i`. -/
def FallbackLoop (c : Cluster) (msg : Message) (i : Int) : Prop :=
  ∃ p s r, (c.node i).ring.getReplicas msg.key replicationFactor = [p, s, r] ∧ s.id = i ∧
    c.listener p.host p.port = none ∧ c.listener r.host r.port = some r.id ∧
    (msg.type = .get → (c.node i).storage.get msg.key = none) ∧
    ReflTransGen (Hands c msg) r.id i

/-- The three replicas are different nodes, and the first is the primary. -/
theorem nodup_replicas {c : Cluster} {key : Bytes} {i : Int} {p s r : NodeInfo}
    (hrep : (c.node i).ring.getReplicas key replicationFactor = [p, s, r]) :
    (p.id ≠ s.id ∧ p.id ≠ r.id ∧ s.id ≠ r.id) ∧ (c.node i).ring.getPrimary key = some p := by
  have htake : (((c.node i).ring.preference key).take 3) = [p, s, r] := by
    rw [← HashRing.getReplicas_eq_take _ key (by omega)]
    exact hrep
  have hnodup : ([p, s, r].map NodeInfo.id).Nodup := by
    rw [← htake]
    exact (HashRing.nodup_preference _ key).sublist ((List.take_sublist ..).map _)
  simp only [List.map_cons, List.map_nil, List.nodup_cons, List.mem_cons, List.not_mem_nil,
    or_false, not_or] at hnodup
  refine ⟨⟨hnodup.1.1, hnodup.1.2, hnodup.2.1⟩, ?_⟩
  have hhead := congrArg List.head? htake
  rwa [List.head?_take, if_neg (by omega), ← HashRing.getPrimary_eq_head?] at hhead

theorem FallbackLoop.loops {c : Cluster} {msg : Message} {i : Int} (h : c.FallbackLoop msg i) :
    CallGraph.Loops (Hands c msg) i := by
  obtain ⟨p, s, r, hrep, rfl, hp, hr, hlacks, hback⟩ := h
  obtain ⟨⟨hps, hpr, hsr⟩, hprimary⟩ := nodup_replicas hrep
  have hstep : Hands c msg s.id r.id := by
    refine ⟨p, hprimary, hps, Or.inr ⟨hp, [p, s], r, [], hrep, hpr.symm, hsr.symm, hr, ?_⟩⟩
    simp only [List.forall_mem_cons, List.not_mem_nil, false_imp_iff, implies_true, and_true]
    exact ⟨fun hne => absurd rfl hne, fun _ => ⟨fun _ => hlacks, fun hne => absurd rfl hne⟩⟩
  exact ⟨s.id, ReflTransGen.refl, TransGen.head' hstep hback⟩

namespace SharedRing

variable {c : Cluster} {base : HashRing} {view : Int → Int → Bool} {live : Int → Prop}

/-- A forward up the order leaves a replica list of the exceptional shape. -/
theorem replicas_of_up (h : SharedRing c base view live) {key : Bytes} {i j : Int} (hi : live i)
    (hf : Forwards c key i j)
    (hup : ((base.owners key).map NodeInfo.id).idxOf i ≤
      ((base.owners key).map NodeInfo.id).idxOf j) :
    ∃ p s r, (c.node i).ring.getReplicas key replicationFactor = [p, s, r] ∧ s.id = i ∧
      r.id = j ∧ c.listener p.host p.port = none ∧ c.listener r.host r.port = some r.id := by
  have hroute := h.routes_of_forwards hi hf
  obtain ⟨pid, htake, hdead⟩ := PreferenceRouting.take_candidates_of_up
    (HashRing.nodup_owners base key) (h.self i hi) hroute hup
  have hlive : live j := hroute.choose_spec.2.2.2.1
  rw [candidates_eq, ← List.map_take] at htake
  have hrep := h.getReplicas hi key
  have howner : ∀ n ∈ ((base.owners key).filter fun n => view i n.id).take 3,
      n ∈ base.owners key := fun n hn => (List.mem_filter.mp (List.mem_of_mem_take hn)).1
  obtain ⟨p, l, hl, hp, htail⟩ := List.map_eq_cons_iff.mp htake
  obtain ⟨s, l', rfl, rfl, htail'⟩ := List.map_eq_cons_iff.mp htail
  obtain ⟨r, l'', rfl, rfl, hnil⟩ := List.map_eq_cons_iff.mp htail'
  obtain rfl := List.map_eq_nil_iff.mp hnil
  rw [hl] at hrep howner
  refine ⟨_, _, _, hrep, rfl, rfl, ?_, ?_⟩
  · exact (h.listener_eq_none_iff (howner p (by simp))).mpr (hp ▸ hdead)
  · exact (h.listener_iff (howner r (by simp)) r.id).mpr ⟨rfl, hlive⟩

theorem live_of_handed (h : SharedRing c base view live) {msg : Message} {e i : Int} (he : live e)
    (hreach : ReflTransGen (Hands c msg) e i) : live i :=
  h.live_of_reaches he (ReflTransGen.lift id (fun _ _ hab => Hands.forwards hab) _ _ hreach)

theorem loops_iff (h : SharedRing c base view live) {e : Int} (he : live e) (msg : Message) :
    CallGraph.Loops (Hands c msg) e ↔
      ∃ i, ReflTransGen (Hands c msg) e i ∧ c.FallbackLoop msg i := by
  constructor
  · intro hloop
    obtain ⟨i, j, hei, hij, hup, hji⟩ :=
      hloop.up_step ((base.owners msg.key).map NodeInfo.id).idxOf
    obtain ⟨p, s, r, hrep, rfl, rfl, hp, hr⟩ :=
      h.replicas_of_up (h.live_of_handed he hei) hij.forwards hup
    obtain ⟨⟨hps, hpr, hsr⟩, hprimary⟩ := nodup_replicas hrep
    refine ⟨s.id, hei, p, s, r, hrep, rfl, hp, hr, ?_, hji⟩
    -- Of the three only `r` can be the replica that gets the request, after `s` itself.
    obtain ⟨q, hq, hqs, hcase⟩ := hij
    obtain rfl : q = p := Option.some.inj (hq.symm.trans hprimary)
    rcases hcase with hup' | ⟨-, before, r', after, hlist, hrq, hrs, -, hbefore⟩
    · exact absurd (hp.symm.trans hup') (by simp)
    · refine (hbefore s ?_ hps.symm).1 rfl
      rw [hrep] at hlist
      match before, hlist with
      | [], hlist =>
        have hfirst : q = r' := (List.cons.inj hlist).1
        exact absurd (congrArg NodeInfo.id hfirst).symm hrq
      | [_], hlist =>
        have hsecond : s = r' := (List.cons.inj (List.cons.inj hlist).2).1
        exact absurd (congrArg NodeInfo.id hsecond).symm hrs
      | _ :: b :: _, hlist =>
        obtain rfl : s = b := (List.cons.inj (List.cons.inj hlist).2).1
        simp
  · intro hex
    obtain ⟨i, hei, hfall⟩ := hex
    obtain ⟨b, hib, hbb⟩ := hfall.loops
    exact ⟨b, hei.trans hib, hbb⟩

/-- A request gets a reply after finitely many forwards exactly when it reaches no
node whose fallback hands it around a loop. -/
theorem forwarding_ends_iff (h : SharedRing c base view live) {e : Int} (he : live e)
    {msg : Message} (hreq : msg.IsRequest) :
    c.Replies e msg ↔ ¬ ∃ i, ReflTransGen (Hands c msg) e i ∧ c.FallbackLoop msg i := by
  rw [← h.loops_iff he msg]
  constructor
  · intro hreplies hloop
    obtain ⟨budget, d, reply, hserve⟩ := hreplies
    rw [serve_eq_none_of_loops hreq budget hloop] at hserve
    exact absurd hserve (by simp)
  · intro hno
    refine replies_of_ends hreq (CallGraph.ends_of_not_loops
      (((base.owners msg.key).map NodeInfo.id).finite_toSet) (fun x y hx hxy => ?_) hno)
    exact PreferenceRouting.mem_order_of_forwards
      (h.routes_of_forwards (h.live_of_handed he hx) hxy.forwards)

/-- Only node 3 has detected that node 1 is down. -/
def staleView (i : Int) : List Int := if i = 3 then [1] else []

theorem sharedRing_stale :
    SharedRing (launchCluster [1] staleView) HashRing.launchRing
      (fun i id => decide (id ∉ staleView i)) (fun i => i ∉ ([1] : List Int)) := by
  refine sharedRing_launchCluster [1] staleView fun i hi => ?_
  unfold staleView
  split
  · exact hi
  · exact List.not_mem_nil

/-- Only node 2 stores a value. -/
def heldAtTwo (i : Int) : StorageEngine :=
  if i = 2 then (StorageEngine.start [] true).put (ascii "user1") (ascii "v") 0
  else StorageEngine.start [] true

/-- Node 1 has crashed and only node 3 knows it.  A read at node 2 ends there, since
node 2 stores the value. -/
theorem forwarding_ends_where_held :
    ((launchCluster [1] staleView).withStorage heldAtTwo).Replies 2 getMsg := by
  have h := sharedRing_stale.sameRouting (sameRouting_withStorage _ heldAtTwo)
  refine (forwarding_ends_iff h (e := 2) (by decide) (Or.inr (Or.inl rfl))).mpr ?_
  intro hex
  obtain ⟨i, hi, p, s, r, hrep, hs, -, -, hlacks, -⟩ := hex
  rw [h.getReplicas (h.live_of_handed (by decide) hi), show getMsg.key = ascii "user1" from rfl,
    HashRing.owners_launchRing] at hrep
  by_cases hthree : i = 3
  · -- Node 3 sees two nodes alive.
    rw [hthree] at hrep
    have hlen : 2 = [p, s, r].length := congrArg List.length hrep
    exact absurd hlen (by simp)
  · have hview : staleView i = [] := if_neg hthree
    rw [hview] at hrep
    have htwo : (2 : Int) = s.id := congrArg NodeInfo.id (List.cons.inj (List.cons.inj hrep).2).1
    have hlocal := hlacks rfl
    rw [← hs, ← htwo] at hlocal
    exact absurd hlocal (by decide)

/-- Node 1, the first owner of `"user1"`, has crashed and only node 3 knows it.
Node 2 tries node 1 and falls back to node 3, and node 3 forwards to node 2. -/
theorem forwarding_bounces :
    SharedRing (launchCluster [1] staleView) HashRing.launchRing
      (fun i id => decide (id ∉ staleView i)) (fun i => i ∉ ([1] : List Int)) ∧
    (2 : Int) ∉ ([1] : List Int) ∧
    ¬ (launchCluster [1] staleView).Replies 2 delMsg := by
  have hrep : ((launchCluster [1] staleView).node 2).ring.getReplicas (ascii "user1")
      replicationFactor = [launchNode 1, launchNode 2, launchNode 3] := by
    rw [sharedRing_stale.getReplicas (by decide), HashRing.owners_launchRing]
    decide
  have hprim : ((launchCluster [1] staleView).node 3).ring.getPrimary (ascii "user1") =
      some (launchNode 2) := by
    rw [sharedRing_stale.getPrimary (by decide), HashRing.owners_launchRing]
    decide
  have hback : Hands (launchCluster [1] staleView) delMsg 3 2 :=
    ⟨launchNode 2, hprim, by decide, Or.inl (by decide)⟩
  have hfall : (launchCluster [1] staleView).FallbackLoop delMsg 2 :=
    ⟨_, _, _, hrep, rfl, by decide, by decide, fun hget => absurd hget (by decide),
      ReflTransGen.single hback⟩
  refine ⟨sharedRing_stale, by decide, fun hreplies => ?_⟩
  obtain ⟨budget, d, reply, hserve⟩ := hreplies
  have hnone := serve_eq_none_of_loops (Or.inr (Or.inr rfl)) budget hfall.loops
  exact absurd (hserve.symm.trans hnone) (by simp)

end SharedRing

end Cluster
end DistributedDb
