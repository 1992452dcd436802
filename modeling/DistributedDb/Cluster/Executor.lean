import DistributedDb.Cluster.SharedRing

/-
Who executes a request when the views disagree.

All nodes of the ring are reachable, and each of them may have flagged any of the
others dead.  A node hands a request to the first owner of the key that it
believes in, which never comes after itself, so the hand-overs go down the order
of the owners and end at a node that is its own primary.
-/

namespace DistributedDb

/-- The ids of the nodes on a ring. -/
def HashRing.nodeIds (r : HashRing) : Finset Int := (r.ring.entries.map fun e => e.2.id).toFinset

theorem HashRing.mem_nodeIds (r : HashRing) (i : Int) : i ∈ r.nodeIds ↔ r.Owns i := by
  simp [HashRing.nodeIds, HashRing.Owns]

namespace Cluster

open Coordinator

/-- Node `i` sends a request on the key to `j`, which it sees as the primary. -/
def HandsTo (c : Cluster) (key : Bytes) (i j : Int) : Prop :=
  ∃ p, (c.node i).ring.getPrimary key = some p ∧ p.id ≠ i ∧ c.listener p.host p.port = some j

/-- Node `i` executes requests on the key itself. -/
def ExecutesAt (c : Cluster) (key : Bytes) (i : Int) : Prop :=
  ∃ p, (c.node i).ring.getPrimary key = some p ∧ p.id = i

theorem handsTo_unique {c : Cluster} {key : Bytes} (i j j' : Int) (h : HandsTo c key i j)
    (h' : HandsTo c key i j') : j = j' := by
  obtain ⟨p, hp, -, hl⟩ := h
  obtain ⟨q, hq, -, hl'⟩ := h'
  obtain rfl := Option.some.inj (hp.symm.trans hq)
  exact Option.some.inj (hl.symm.trans hl')

theorem not_handsTo_of_executesAt {c : Cluster} {key : Bytes} {i : Int} (h : ExecutesAt c key i)
    (j : Int) : ¬ HandsTo c key i j := by
  intro hhands
  obtain ⟨p, hp, hid⟩ := h
  obtain ⟨q, hq, hne, -⟩ := hhands
  obtain rfl := Option.some.inj (hp.symm.trans hq)
  exact hne hid

/-! ## What the last node does -/

theorem runWith_execute (f g : Cluster → Int → Message → Option (Cluster × Message)) (j : Int)
    (msg : Message) (c : Cluster) :
    runWith f j (execute j msg) c = runWith g j (execute j msg) c := by
  unfold execute
  split
  · rw [runWith_executePut, runWith_executePut]
  · rw [runWith_executeGet, runWith_executeGet]
  · cases hget : (c.node j).storage.get msg.key with
    | none => rw [runWith_executeDelete_of_none _ _ _ _ hget,
        runWith_executeDelete_of_none _ _ _ _ hget]
    | some v => rw [runWith_executeDelete_of_some _ _ _ _ hget,
        runWith_executeDelete_of_some _ _ _ _ hget]

/-- The executor replies, and no other node is touched. -/
theorem exists_execute (f : Cluster → Int → Message → Option (Cluster × Message)) (j : Int)
    (msg : Message) (c : Cluster) :
    ∃ d reply, runWith f j (execute j msg) c = some (d, reply) ∧
      ∀ x, x ≠ j → d.node x = c.node x := by
  unfold execute
  split
  · exact ⟨_, _, runWith_executePut f j c msg, fun x hx => setNode_node_of_ne c _ hx⟩
  · exact ⟨_, _, runWith_executeGet f j c msg, fun x _ => rfl⟩
  · cases hget : (c.node j).storage.get msg.key with
    | none => exact ⟨_, _, runWith_executeDelete_of_none f j c msg hget, fun x _ => rfl⟩
    | some v =>
      exact ⟨_, _, runWith_executeDelete_of_some f j c msg hget,
        fun x hx => setNode_node_of_ne c _ hx⟩

/-- The reply of the executor is handed back along the chain. -/
theorem serve_of_isChain {c : Cluster} {msg : Message} (hreq : msg.IsRequest) {i j : Int}
    {rest : List Int} (hchain : (i :: rest).IsChain (HandsTo c msg.key))
    (hlast : (i :: rest).getLast? = some j) (hexec : ExecutesAt c msg.key j) {budget : Nat}
    (hbudget : rest.length < budget) :
    serve budget c i msg = runWith (serve 0) j (execute j msg) c := by
  induction rest generalizing i budget with
  | nil =>
    obtain ⟨budget, rfl⟩ : ∃ b, budget = b + 1 := ⟨budget - 1, by omega⟩
    obtain rfl : i = j := Option.some.inj hlast
    obtain ⟨p, hp, hid⟩ := hexec
    rw [serve, handle_of_isRequest hreq, runWith_route_of_self _ _ _ _ hp hid]
    exact runWith_execute (serve budget) (serve 0) i msg c
  | cons next rest ih =>
    obtain ⟨budget, rfl⟩ : ∃ b, budget = b + 1 := ⟨budget - 1, by omega⟩
    obtain ⟨⟨p, hp, hne, hl⟩, hchain⟩ := List.isChain_cons_cons.mp hchain
    rw [List.getLast?_cons_cons] at hlast
    rw [List.length_cons] at hbudget
    rw [serve, handle_of_isRequest hreq, runWith_route_of_up _ _ _ _ hp hne hl]
    exact ih hchain hlast (by omega)

/-! ## One ring, all nodes reachable -/

section AllReachable

variable {c : Cluster} {base : HashRing} {view : Int → Int → Bool}
  (h : SharedRing c base view base.Owns)
include h

theorem forwards_of_handsTo {key : Bytes} {i j : Int} (hi : base.Owns i)
    (hhands : HandsTo c key i j) :
    PreferenceRouting.Forwards ((base.owners key).map NodeInfo.id) view base.Owns 3 i j := by
  obtain ⟨p, hp, hne, hl⟩ := hhands
  exact h.routes_of_forwards hi ⟨p, hp, hne, Or.inl hl⟩

theorem owns_of_handsTo {key : Bytes} {i j : Int} (hi : base.Owns i)
    (hhands : HandsTo c key i j) : base.Owns j :=
  (forwards_of_handsTo h hi hhands).choose_spec.2.2.2.1

/-- A hand-over goes to an earlier owner of the key. -/
theorem idxOf_lt_of_handsTo {key : Bytes} {i j : Int} (hi : base.Owns i)
    (hhands : HandsTo c key i j) :
    ((base.owners key).map NodeInfo.id).idxOf j < ((base.owners key).map NodeInfo.id).idxOf i := by
  by_contra hup
  obtain ⟨p, htake, hdead⟩ := PreferenceRouting.take_candidates_of_up
    (HashRing.nodup_owners base key) (h.self i hi) (forwards_of_handsTo h hi hhands) (by omega)
  have hp : p ∈ PreferenceRouting.candidates ((base.owners key).map NodeInfo.id) view i := by
    refine List.mem_of_mem_take (i := 3) ?_
    rw [htake]
    exact List.mem_cons_self
  obtain ⟨n, hn, rfl⟩ := List.mem_map.mp (List.mem_filter.mp hp).1
  obtain ⟨pos, hpos⟩ := HashRing.exists_entry_of_mem_owners hn
  exact hdead ⟨(pos, n), hpos, rfl⟩

/-- A node is its own primary or hands the request on: it believes in itself. -/
theorem executesAt_or_handsTo {i : Int} (hi : base.Owns i) (key : Bytes) :
    ExecutesAt c key i ∨ ∃ j, HandsTo c key i j := by
  obtain ⟨e, he, hid⟩ := hi
  have hclock : e.2 ∈ base.clockwise key := (base.mem_clockwise key e.2).mpr ⟨e.1, he⟩
  obtain ⟨n, hn, hnid⟩ : ∃ n ∈ base.owners key, n.id = e.2.id :=
    CircularWalk.exists_mem_firstBy hclock
  have hmem : n ∈ (base.owners key).filter fun n => view i n.id :=
    List.mem_filter.mpr ⟨hn, by rw [hnid, hid]; exact h.self i ⟨e, he, hid⟩⟩
  have hprimary := h.getPrimary ⟨e, he, hid⟩ key
  cases hhead : ((base.owners key).filter fun n => view i n.id).head? with
  | none => exact absurd (List.head?_eq_none_iff.mp hhead ▸ hmem) List.not_mem_nil
  | some q =>
    rw [hhead, Option.map_some] at hprimary
    have hq : q ∈ base.owners key := (List.mem_filter.mp (List.mem_of_mem_head? hhead)).1
    by_cases hself : q.id = i
    · exact Or.inl ⟨_, hprimary, hself⟩
    · obtain ⟨pos, hpos⟩ := HashRing.exists_entry_of_mem_owners hq
      have hup := (h.listener_iff hq q.id).mpr ⟨rfl, (pos, q), hpos, rfl⟩
      exact Or.inr ⟨q.id, _, hprimary, hself, hup⟩

end AllReachable

/-- A request that enters at node `i` goes along `path` and is executed by `j`. -/
structure ServedAlong (c : Cluster) (base : HashRing) (msg : Message) (i : Int) (path : List Int)
    (j : Int) : Prop where
  first : path.head? = some i
  last : path.getLast? = some j
  hands : path.IsChain (HandsTo c msg.key)
  /-- There is no other way to go. -/
  only : ∀ other : List Int, other.head? = some i → other.IsChain (HandsTo c msg.key) →
    other <+: path
  nodup : path.Nodup
  /-- With `n` nodes there are at most `n - 1` hand-overs. -/
  hops : path.length ≤ base.nodeIds.card
  executor : ∀ x ∈ path, ExecutesAt c msg.key x ↔ x = j
  /-- The reply is that of the executor, whose store alone may have changed. -/
  reply : ∃ d reply, runWith (serve 0) j (execute j msg) c = some (d, reply) ∧
    (∀ budget, path.length ≤ budget → serve budget c i msg = some (d, reply)) ∧
    ∀ x, x ≠ j → d.node x = c.node x

/-- Whatever the nodes believe of each other, a request is executed by exactly one
node, and the client gets the reply of that node. -/
theorem one_executor {c : Cluster} {base : HashRing} {view : Int → Int → Bool}
    (h : SharedRing c base view base.Owns) {msg : Message} (hreq : msg.IsRequest) {i : Int}
    (hi : base.Owns i) : ∃ path j, ServedAlong c base msg i path j := by
  let calls : Int → Int → Prop := fun a b => base.Owns a ∧ HandsTo c msg.key a b
  have hdown : ∀ a b, calls a b → ((base.owners msg.key).map NodeInfo.id).idxOf b <
      ((base.owners msg.key).map NodeInfo.id).idxOf a :=
    fun a b hab => idxOf_lt_of_handsTo h hab.1 hab.2
  have hnext : ∀ a, base.Owns a → ExecutesAt c msg.key a ∨ ∃ b, calls a b ∧ base.Owns b := by
    intro a ha
    rcases executesAt_or_handsTo h ha msg.key with hexec | ⟨b, hab⟩
    · exact Or.inl hexec
    · exact Or.inr ⟨b, ⟨ha, hab⟩, owns_of_handsTo h ha hab⟩
  obtain ⟨rest, j, hchain, hlast, hexec⟩ := CallGraph.exists_isChain hdown hnext hi
  have hhands : (i :: rest).IsChain (HandsTo c msg.key) := hchain.imp fun a b hab => hab.2
  have hnodup : (i :: rest).Nodup := CallGraph.nodup_of_isChain hdown hchain
  have howns : ∀ x ∈ i :: rest, base.Owns x :=
    hchain.induction base.Owns _ (fun a b hab ha => owns_of_handsTo h ha hab.2) fun _ => hi
  obtain ⟨d, reply, hrun, hother⟩ := exists_execute (serve 0) j msg c
  refine ⟨i :: rest, j, rfl, hlast, hhands, ?_, hnodup, ?_, ?_, d, reply, hrun, ?_, hother⟩
  · intro other hfirst hother
    obtain ⟨tail, rfl⟩ := List.head?_eq_some_iff.mp hfirst
    exact CallGraph.isPrefix_of_isChain handsTo_unique hhands hlast
      (not_handsTo_of_executesAt hexec) hother
  · have hsub : (i :: rest).toFinset ⊆ base.nodeIds := by
      intro x hx
      exact (base.mem_nodeIds x).mpr (howns x (List.mem_toFinset.mp hx))
    have hcard := Finset.card_le_card hsub
    rwa [List.toFinset_card_of_nodup hnodup] at hcard
  · intro x hx
    constructor
    · intro hx'
      rcases CallGraph.eq_last_or_calls hhands hlast hx with heq | ⟨y, hy⟩
      · exact heq
      · exact absurd hy (not_handsTo_of_executesAt hx' y)
    · intro heq
      rw [heq]
      exact hexec
  · intro budget hbudget
    rw [List.length_cons] at hbudget
    rw [serve_of_isChain hreq hhands hlast hexec (by omega), hrun]

theorem SharedRing.owns {c : Cluster} {base : HashRing} {view : Int → Int → Bool}
    {live : Int → Prop} (h : SharedRing c base view live) (hlive : ∀ i, base.Owns i → live i) :
    SharedRing c base view base.Owns where
  sees i hi := h.sees i (hlive i hi)
  self i hi := h.self i (hlive i hi)
  up e he hi := h.up e he (hlive _ hi)
  down e he hi := absurd ⟨e, he, rfl⟩ hi

/-- Node 3 wrongly believes node 1 dead, and a write enters there. -/
theorem one_executor_stale :
    ∃ path j, ServedAlong (launchCluster [] SharedRing.staleView) HashRing.launchRing
      { type := .put, key := ascii "user1", value := ascii "new" } 3 path j := by
  have hshared := sharedRing_launchCluster [] SharedRing.staleView fun i _ => by
    by_cases hi : i = 3 <;> simp [SharedRing.staleView, hi]
  have hmem : launchNode 3 ∈ HashRing.launchRing.owners (ascii "user1") := by
    rw [HashRing.owners_launchRing]
    simp
  obtain ⟨pos, hpos⟩ := HashRing.exists_entry_of_mem_owners hmem
  exact one_executor (hshared.owns fun i _ => List.not_mem_nil) (Or.inl rfl) ⟨_, hpos, rfl⟩

end Cluster
end DistributedDb
