import DistributedDb.Cluster.Contract
import DistributedDb.Cluster.SingleCopy

/-
Where the copies of a key are.

All nodes hold one ring with every node alive in it, and any of them may be
unreachable.  Then a node executes a write only as the primary of the key, and
sends the copies to the other replicas, so a key is stored at its replicas only
and has at most three copies.  `Places` says this of a program, with what the
ring returns put in for the calls to it.
-/

namespace DistributedDb
namespace Placement

open Coordinator Cluster

/-- Node `i` is one of the replicas of the key. -/
def Holds (base : HashRing) (key : Bytes) (i : Int) : Prop :=
  ∃ r ∈ base.getReplicas key replicationFactor, r.id = i

/-- One ring, and at the address of an owner there is this owner or nobody. -/
structure Shared (c : Cluster) (base : HashRing) : Prop where
  alive : ∀ e ∈ base.ring.entries, e.2.alive = true
  ring : ∀ i, base.Owns i → (c.node i).ring.ring.entries = base.ring.entries
  at_address : ∀ e ∈ base.ring.entries, ∀ j, c.listener e.2.host e.2.port = some j → j = e.2.id

namespace Shared

variable {c : Cluster} {base : HashRing} (h : Shared c base)
include h

theorem getPrimary {i : Int} (hi : base.Owns i) (key : Bytes) :
    (c.node i).ring.getPrimary key = base.getPrimary key :=
  HashRing.getPrimary_congr (h.ring i hi) key

theorem getReplicas {i : Int} (hi : base.Owns i) (key : Bytes) :
    (c.node i).ring.getReplicas key replicationFactor = base.getReplicas key replicationFactor :=
  HashRing.getReplicas_congr (h.ring i hi) key 3 (by omega)

theorem owns_of_primary {key : Bytes} {p : NodeInfo} (hp : base.getPrimary key = some p) {j : Int}
    (hj : c.listener p.host p.port = some j) : base.Owns j := by
  obtain ⟨-, e, he, rfl⟩ := HashRing.entry_of_getPrimary hp
  exact ⟨e, he, (h.at_address e he j hj).symm⟩

theorem eq_of_replica {key : Bytes} {r : NodeInfo}
    (hr : r ∈ base.getReplicas key replicationFactor) {j : Int}
    (hj : c.listener r.host r.port = some j) : j = r.id := by
  obtain ⟨-, e, he, rfl⟩ := HashRing.entry_of_mem_getReplicas hr
  exact h.at_address e he j hj

/-- A call of a handler leaves the ring to all. -/
theorem perform {me : Int} {prog rest : Prog} {n : Node} {sent : List Packet}
    (hp : prog.perform me (c.node me) = .continues n rest sent) :
    Shared ((c.setNode me n).send sent) base where
  alive := h.alive
  ring i hi := by
    by_cases him : i = me
    · subst him
      rw [send_node, setNode_node_self]
      rcases Prog.perform_ring hp with hring | ⟨id, hring⟩
      · rw [hring]
        exact h.ring i hi
      · rw [hring, HashRing.entries_updateNodeStatus_true, h.ring i hi]
        rw [h.ring i hi]
        exact h.alive
    · rw [send_node, setNode_node_of_ne c _ him]
      exact h.ring i hi
  at_address := h.at_address

end Shared

theorem owns_of_holds {base : HashRing} {key : Bytes} {i : Int} (h : Holds base key i) :
    base.Owns i := by
  obtain ⟨r, hr, rfl⟩ := h
  obtain ⟨-, e, he, rfl⟩ := HashRing.entry_of_mem_getReplicas hr
  exact ⟨e, he, rfl⟩

theorem holds_of_primary {base : HashRing} {key : Bytes} {p : NodeInfo}
    (hp : base.getPrimary key = some p) : Holds base key p.id := by
  have htake : base.getReplicas key replicationFactor = (base.preference key).take 3 :=
    HashRing.getReplicas_eq_take base key (show 1 ≤ 3 by omega)
  rw [HashRing.getPrimary_eq_head?] at hp
  obtain ⟨rest, hrest⟩ := List.head?_eq_some_iff.mp hp
  refine ⟨p, ?_, rfl⟩
  rw [htake, hrest]
  exact List.mem_cons_self

/-! ## Programs -/

section Programs

variable (base : HashRing) (listener : Bytes → Int → Option Int)

/-- A packet that a detached thread sends; a copy goes to a replica. -/
def Addressed (packet : Packet) : Prop :=
  packet.msg.IsOneWay ∧ (packet.msg.type = .replicate →
    ∀ j, listener packet.host packet.port = some j → Holds base packet.msg.key j)

/-- What the program puts on node `me` belongs there, and so do the copies it sends
and the requests it hands on. -/
def Places (me : Int) : Prog → Prop
  | .done _ => True
  | .markAlive _ next => Places me next
  | .getPrimary key next => base.Owns me ∧ Places me (next (base.getPrimary key))
  | .getReplicas key rf next =>
    base.Owns me ∧ rf = replicationFactor ∧
      Places me (next (base.getReplicas key replicationFactor))
  | .storagePut key _ next => Holds base key me ∧ Places me next
  | .storageGet _ next => ∀ r, Places me (next r)
  | .storageDel _ next => ∀ removed, Places me (next removed)
  | .storagePairs next => ∀ pairs, Places me (next pairs)
  | .storagePutBatch pairs next => (∀ p ∈ pairs, Holds base p.1 me) ∧ Places me next
  | .election _ next => ∀ reply, Places me (next reply)
  | .nowMs next => ∀ now, Places me (next now)
  | .sendMessage host port msg next =>
    msg.IsRequest ∧ (∀ j, listener host port = some j → base.Owns j) ∧ ∀ r, Places me (next r)
  | .sendAndForget packet next => Addressed base listener packet ∧ Places me next

end Programs

section Handlers

variable {base : HashRing} {listener : Bytes → Int → Option Int} {me : Int} {msg : Message}

theorem places_sendAll {repl : Message} {next : Prog} (hnext : Places base listener me next)
    {replicas : List NodeInfo}
    (hsend : ∀ r ∈ replicas,
      Addressed base listener { host := r.host, port := r.port, msg := repl }) :
    Places base listener me (Replication.sendAll me repl next replicas) := by
  induction replicas with
  | nil => exact hnext
  | cons r rest ih =>
    have ih := ih fun r' hr' => hsend r' (List.mem_cons_of_mem r hr')
    rw [Replication.sendAll]
    split
    · exact ih
    · exact ⟨hsend r List.mem_cons_self, ih⟩

theorem places_lastResort : Places base listener me (lastResort me msg) := by
  unfold lastResort
  split
  · intro val
    cases val <;> trivial
  · trivial

/-- A write that arrives as a copy arrives at a replica. -/
theorem places_onMessage_of_oneWay (honeWay : msg.IsOneWay)
    (hholds : msg.type = .replicate → Holds base msg.key me) :
    Places base listener me (onMessage me msg) := by
  show Places base listener me (handle me msg)
  rcases honeWay with htype | htype | htype | htype
  · rw [handle, htype]
    show Places base listener me (Replication.handleReplicate me msg)
    unfold Replication.handleReplicate
    split
    · exact fun _ => trivial
    · exact ⟨hholds htype, trivial⟩
  · rw [handle, htype]
    trivial
  · rw [handle, htype]
    exact fun resp => by cases resp <;> trivial
  · rw [handle, htype]
    exact fun resp => by cases resp <;> trivial

variable {c : Cluster} (hshared : Shared c base) (hwired : c.listener = listener)
include hshared hwired

theorem places_replicate (key value : Bytes) (op : MsgType) (reply : Message) :
    Places base listener me (Replication.replicate me key value op
      (base.getReplicas key replicationFactor) (.done reply)) := by
  have hdone : Places base listener me (.done reply) := trivial
  intro now
  refine places_sendAll hdone fun r hr => ⟨Or.inl rfl, fun _ j hj => ?_⟩
  rw [← hwired] at hj
  exact ⟨r, hr, (hshared.eq_of_replica hr hj).symm⟩

/-- The primary puts what it holds. -/
theorem places_execute (hreq : msg.IsRequest) (hholds : Holds base msg.key me) :
    Places base listener me (execute me msg) := by
  have howns := owns_of_holds hholds
  rcases hreq with htype | htype | htype
  · rw [execute, htype]
    exact ⟨hholds, howns, rfl, places_replicate hshared hwired _ _ _ _⟩
  · rw [execute, htype]
    exact fun val => by cases val <;> trivial
  · rw [execute, htype]
    intro removed
    cases removed with
    | false => trivial
    | true => exact ⟨howns, rfl, places_replicate hshared hwired _ _ _ _⟩

theorem places_tryReplicas (hreq : msg.IsRequest) (target : Int) {replicas : List NodeInfo}
    (hreplicas : ∀ r ∈ replicas, r ∈ base.getReplicas msg.key replicationFactor) :
    Places base listener me (tryReplicas me target msg replicas) := by
  induction replicas with
  | nil => exact places_lastResort
  | cons r rest ih =>
    have ih := ih fun r' hr' => hreplicas r' (List.mem_cons_of_mem r hr')
    rw [tryReplicas]
    split
    · exact ih
    · split
      · split
        · intro val
          cases val with
          | none => exact ih
          | some v => trivial
        · exact ih
      · refine ⟨hreq, fun j hj => ?_, fun resp => ?_⟩
        · have hr := hreplicas r List.mem_cons_self
          rw [← hwired] at hj
          rw [hshared.eq_of_replica hr hj]
          exact owns_of_holds ⟨r, hr, rfl⟩
        · cases resp with
          | none => exact ih
          | some reply =>
            dsimp only
            split
            · trivial
            · exact ih

/-- A request that arrives at an owner is executed there only when the owner is its
primary. -/
theorem places_onMessage (hreq : msg.IsRequest) (howns : base.Owns me) :
    Places base listener me (onMessage me msg) := by
  show Places base listener me (handle me msg)
  rw [handle_of_isRequest hreq]
  refine ⟨howns, ?_⟩
  cases hp : base.getPrimary msg.key with
  | none => trivial
  | some p =>
    dsimp only
    split
    · rename_i hself
      exact places_execute hshared hwired hreq (hself ▸ holds_of_primary hp)
    · refine ⟨hreq, fun j hj => ?_, fun resp => ?_⟩
      · rw [← hwired] at hj
        exact hshared.owns_of_primary hp hj
      · cases resp with
        | none => exact ⟨howns, rfl, places_tryReplicas hshared hwired hreq _ fun _ hr => hr⟩
        | some reply => trivial

end Handlers

/-! ## Calls -/

section Calls

variable {base : HashRing} {listener : Bytes → Int → Option Int} {c : Cluster} {me : Int}
  {prog : Prog} (h : Places base listener me prog)
include h

theorem places_calls {host : Bytes} {port : Int} {msg : Message} {next : Option Message → Prog}
    (hperf : prog.perform me (c.node me) = .calls host port msg next) :
    msg.IsRequest ∧ (∀ j, listener host port = some j → base.Owns j) ∧
      ∀ r, Places base listener me (next r) := by
  cases prog with
  | sendMessage host' port' msg' next' =>
    simp only [Prog.perform, Outcome.calls.injEq] at hperf
    obtain ⟨rfl, rfl, rfl, rfl⟩ := hperf
    exact h
  | _ => simp [Prog.perform] at hperf

/-- A call on the own node stores nothing that belongs elsewhere, and what it sends
is addressed to replicas. -/
theorem places_continues (hshared : Shared c base)
    (hstore : ∀ key value, (c.node me).storage.get key = some value → Holds base key me) {n : Node}
    {rest : Prog} {sent : List Packet}
    (hperf : prog.perform me (c.node me) = .continues n rest sent) :
    Places base listener me rest ∧
      (∀ key value, n.storage.get key = some value → Holds base key me) ∧
      ∀ packet ∈ sent, Addressed base listener packet := by
  cases prog with
  | done reply => simp [Prog.perform] at hperf
  | sendMessage host port msg next => simp [Prog.perform] at hperf
  | markAlive nodeId next =>
    simp only [Prog.perform, Outcome.continues.injEq] at hperf
    obtain ⟨rfl, rfl, rfl⟩ := hperf
    exact ⟨h, hstore, by simp⟩
  | getPrimary key next =>
    simp only [Prog.perform, Outcome.continues.injEq] at hperf
    obtain ⟨rfl, rfl, rfl⟩ := hperf
    rw [hshared.getPrimary h.1 key]
    exact ⟨h.2, hstore, by simp⟩
  | getReplicas key rf next =>
    obtain ⟨howns, rfl, hnext⟩ := h
    simp only [Prog.perform, Outcome.continues.injEq] at hperf
    obtain ⟨rfl, rfl, rfl⟩ := hperf
    rw [hshared.getReplicas howns key]
    exact ⟨hnext, hstore, by simp⟩
  | storagePut key value next =>
    simp only [Prog.perform, Outcome.continues.injEq] at hperf
    obtain ⟨rfl, rfl, rfl⟩ := hperf
    refine ⟨h.2, fun k v hv => ?_, by simp⟩
    rw [StorageEngine.get_put] at hv
    split at hv
    · rename_i hk
      exact hk ▸ h.1
    · exact hstore k v hv
  | storageGet key next =>
    simp only [Prog.perform, Outcome.continues.injEq] at hperf
    obtain ⟨rfl, rfl, rfl⟩ := hperf
    exact ⟨h _, hstore, by simp⟩
  | storageDel key next =>
    simp only [Prog.perform, Outcome.continues.injEq] at hperf
    obtain ⟨rfl, rfl, rfl⟩ := hperf
    refine ⟨h _, fun k v hv => ?_, by simp⟩
    rw [StorageEngine.get_del] at hv
    split at hv
    · exact absurd hv (by simp)
    · exact hstore k v hv
  | storagePairs next =>
    simp only [Prog.perform, Outcome.continues.injEq] at hperf
    obtain ⟨rfl, rfl, rfl⟩ := hperf
    exact ⟨h _, hstore, by simp⟩
  | storagePutBatch pairs next =>
    simp only [Prog.perform, Outcome.continues.injEq] at hperf
    obtain ⟨rfl, rfl, rfl⟩ := hperf
    refine ⟨h.2, fun k v hv => ?_, by simp⟩
    rw [StorageEngine.get, StorageEngine.putBatch, StorageEngine.appendBatch_store] at hv
    rcases Contract.mem_of_lookup_insertAll hv with hmem | hold
    · exact h.1 (k, v) hmem
    · exact hstore k v hold
  | election msg next =>
    simp only [Prog.perform, Outcome.continues.injEq] at hperf
    obtain ⟨rfl, rfl, rfl⟩ := hperf
    exact ⟨h _, hstore, by simp⟩
  | nowMs next =>
    simp only [Prog.perform, Outcome.continues.injEq] at hperf
    obtain ⟨rfl, rfl, rfl⟩ := hperf
    exact ⟨h _, hstore, by simp⟩
  | sendAndForget packet next =>
    simp only [Prog.perform, Outcome.continues.injEq] at hperf
    obtain ⟨rfl, rfl, rfl⟩ := hperf
    refine ⟨h.2, hstore, fun q hq => ?_⟩
    rw [List.mem_singleton.mp hq]
    exact h.1

end Calls

/-! ## Runs -/

section Runs

variable (base : HashRing) (listener : Bytes → Int → Option Int)

structure ThreadPlaces (th : Thread) : Prop where
  prog : Places base listener th.node th.prog
  callers : ∀ caller ∈ th.callers, ∀ r, Places base listener caller.node (caller.next r)

structure Inv (m : Machine) : Prop where
  shared : Shared m.cluster base
  wired : m.cluster.listener = listener
  stores : ∀ i key value, (m.cluster.node i).storage.get key = some value → Holds base key i
  packets : ∀ packet ∈ m.cluster.inFlight, Addressed base listener packet
  threads : ∀ t th, m.threads t = some th → ThreadPlaces base listener th

variable {base listener} {m : Machine}

/-- One thread changes, or a new one starts. -/
theorem Inv.thread (h : Inv base listener m) {t : Nat} {th' : Option Thread}
    (hself : ∀ th, th' = some th → ThreadPlaces base listener th) {m' : Machine}
    (hcluster : m'.cluster = m.cluster) (hthreads : m'.threads = Function.update m.threads t th') :
    Inv base listener m' where
  shared := hcluster ▸ h.shared
  wired := hcluster ▸ h.wired
  stores := hcluster ▸ h.stores
  packets := hcluster ▸ h.packets
  threads u th hu := by
    rw [hthreads] at hu
    exact Machine.threads_update h.threads hself u th hu

theorem inv_runThread (h : Inv base listener m) {t : Nat} {th : Thread}
    (ht : m.threads t = some th) : Inv base listener (m.runThread t th) := by
  obtain ⟨hprog, hcallers⟩ := h.threads t th ht
  unfold Machine.runThread
  cases hperf : th.prog.perform th.node (m.cluster.node th.node) with
  | finished reply =>
    cases hc : th.callers with
    | nil => exact h.thread (by simp) rfl rfl
    | cons caller rest =>
      refine h.thread (fun th' hth' => ?_) rfl rfl
      rw [← Option.some.inj hth']
      rw [hc] at hcallers
      exact ⟨hcallers caller List.mem_cons_self _,
        fun c hmem => hcallers c (List.mem_cons_of_mem caller hmem)⟩
  | continues n rest sent =>
    obtain ⟨hrest, hstore, hsent⟩ :=
      places_continues hprog h.shared (h.stores th.node) hperf
    refine ⟨h.shared.perform hperf, h.wired, fun i key value hvalue => ?_, fun packet hp => ?_,
      Machine.threads_update h.threads fun th' hth' => ?_⟩
    · have hnode : (((m.cluster.setNode th.node n).send sent).node i).storage.get key =
          some value := hvalue
      by_cases hi : i = th.node
      · rw [hi, send_node, setNode_node_self] at hnode
        exact hi ▸ hstore key value hnode
      · rw [send_node, setNode_node_of_ne _ n hi] at hnode
        exact h.stores i key value hnode
    · rcases List.mem_append.mp hp with hp | hp
      · exact h.packets packet hp
      · exact hsent packet hp
    · rw [← Option.some.inj hth']
      exact ⟨hrest, hcallers⟩
  | calls host port msg next =>
    obtain ⟨hreq, howns, hnext⟩ := places_calls hprog hperf
    dsimp only
    cases hl : m.cluster.listener host port with
    | none =>
      refine h.thread (fun th' hth' => ?_) rfl rfl
      rw [← Option.some.inj hth']
      exact ⟨hnext none, hcallers⟩
    | some j =>
      refine h.thread (fun th' hth' => ?_) rfl rfl
      rw [← Option.some.inj hth']
      rw [h.wired] at hl
      refine ⟨places_onMessage h.shared h.wired hreq (howns j hl), fun caller hmem => ?_⟩
      rcases List.mem_cons.mp hmem with rfl | hmem
      · exact hnext
      · exact hcallers caller hmem

/-- The cluster changes without a thread: packets come or go, or a clock moves. -/
theorem Inv.environment (h : Inv base listener m) {c : Cluster}
    (hrouting : SameRouting m.cluster c)
    (hstorage : ∀ i, (c.node i).storage = (m.cluster.node i).storage)
    (hpackets : ∀ packet ∈ c.inFlight, Addressed base listener packet) :
    Inv base listener { m with cluster := c } where
  shared := by
    refine ⟨h.shared.alive, fun i hi => ?_, fun e he j hj => ?_⟩
    · show (c.node i).ring.ring.entries = _
      rw [hrouting.ring]
      exact h.shared.ring i hi
    · rw [hrouting.listener] at hj
      exact h.shared.at_address e he j hj
  wired := hrouting.listener.trans h.wired
  stores i key value hvalue := by
    have hnode : (c.node i).storage.get key = some value := hvalue
    rw [hstorage] at hnode
    exact h.stores i key value hnode
  packets := hpackets
  threads := h.threads

theorem inv_step {m' : Machine} {a : Action} (ha : SingleCopy.Allowed base a)
    (h : Inv base listener m) (hstep : m.step a = some m') : Inv base listener m' := by
  cases a with
  | invoke i msg =>
    obtain rfl := Option.some.inj hstep
    refine h.thread (fun th' hth' => ?_) rfl rfl
    rw [← Option.some.inj hth']
    exact ⟨places_onMessage h.shared h.wired ha.1 ha.2, by simp⟩
  | run t =>
    obtain ⟨th, ht, rfl⟩ := Option.map_eq_some_iff.mp hstep
    exact inv_runThread h ht
  | deliver packet again =>
    obtain ⟨hmem, j, flight, hl, hflight, rfl⟩ := Machine.exists_of_step_deliver hstep
    obtain ⟨honeWay, hholds⟩ := h.packets packet hmem
    have hdelivered := h.environment (c := { m.cluster with inFlight := flight })
      ⟨rfl, fun _ => rfl⟩ (fun _ => rfl) fun q hq => h.packets q (hflight q hq)
    rw [h.wired] at hl
    refine hdelivered.thread (fun th' hth' => ?_) rfl rfl
    rw [← Option.some.inj hth']
    exact ⟨places_onMessage_of_oneWay honeWay fun hrep => hholds hrep j hl, by simp⟩
  | lose packet =>
    obtain rfl := Option.some.inj hstep
    exact h.environment ⟨rfl, fun _ => rfl⟩ (fun _ => rfl)
      fun q hq => h.packets q (List.mem_of_mem_erase hq)
  | send packet =>
    obtain rfl := Option.some.inj hstep
    refine h.environment ⟨rfl, fun _ => rfl⟩ (fun _ => rfl) fun q hq => ?_
    rcases List.mem_append.mp hq with hq | hq
    · exact h.packets q hq
    · obtain rfl := List.mem_singleton.mp hq
      refine ⟨Or.inr ha, fun hrep => ?_⟩
      rcases ha with ha | ha | ha <;> exact absurd (ha.symm.trans hrep) (by decide)
  | tick i now =>
    obtain rfl := Option.some.inj hstep
    refine h.environment (SameRouting.setNode rfl) (fun j => ?_) h.packets
    by_cases hj : j = i
    · subst hj
      rw [setNode_node_self]
    · rw [setNode_node_of_ne m.cluster _ hj]
  | restart self peers => exact absurd ha id
  | sync i peer => exact absurd ha id

end Runs

/-- The nodes that hold a key are at most three. -/
theorem card_le_of_holds {base : HashRing} {key : Bytes} {s : Finset Int}
    (h : ∀ i ∈ s, Holds base key i) : s.card ≤ 3 := by
  have hsub : s ⊆ ((base.getReplicas key replicationFactor).map NodeInfo.id).toFinset := by
    intro i hi
    obtain ⟨r, hr, rfl⟩ := h i hi
    exact List.mem_toFinset.mpr (List.mem_map_of_mem hr)
  have htake : base.getReplicas key replicationFactor = (base.preference key).take 3 :=
    HashRing.getReplicas_eq_take base key (show 1 ≤ 3 by omega)
  refine (Finset.card_le_card hsub).trans ((List.toFinset_card_le _).trans ?_)
  rw [List.length_map, htake]
  exact List.length_take_le 3 _

/-- In every run of clients and nodes, whichever nodes are unreachable and however
the copies are delayed, lost or repeated, a key is stored at its replicas only, so
it never has more than three copies. -/
theorem stored_at_replicas {base : HashRing} {c : Cluster} (hshared : Shared c base)
    (hidle : c.inFlight = [])
    (hstores : ∀ i key value, (c.node i).storage.get key = some value → Holds base key i)
    {actions : List Action} {m : Machine} (hallowed : ∀ a ∈ actions, SingleCopy.Allowed base a)
    (hrun : Runs.exec Machine.step (Machine.idle c) actions = some m) :
    (∀ i key value, (m.cluster.node i).storage.get key = some value → Holds base key i) ∧
    ∀ key (s : Finset Int), (∀ i ∈ s, (m.cluster.node i).storage.get key ≠ none) → s.card ≤ 3 := by
  have hidleInv : Inv base c.listener (Machine.idle c) :=
    ⟨hshared, rfl, hstores, by simp [Machine.idle, hidle], by simp [Machine.idle]⟩
  have hinv : Inv base c.listener m := Runs.exec_invariant
    (fun _ _ _ ha h hstep => inv_step ha h hstep) hidleInv hallowed hrun
  refine ⟨hinv.stores, fun key s hs => ?_⟩
  have hholds : ∀ i ∈ s, Holds base key i := by
    intro i hi
    obtain ⟨value, hvalue⟩ := Option.ne_none_iff_exists'.mp (hs i hi)
    exact hinv.stores i key value hvalue
  exact card_le_of_holds hholds

theorem shared_launchCluster (crashed : List Int) :
    Shared (launchCluster crashed fun _ => []) HashRing.launchRing where
  alive := HashRing.alive_launchRing
  ring _ _ := rfl
  at_address e he j hj := by
    have hring := sharedRing_launchCluster crashed (fun _ => []) (by simp)
    by_cases hcrashed : e.2.id ∈ crashed
    · rw [hring.down e he (not_not.mpr hcrashed)] at hj
      exact absurd hj (by simp)
    · rw [hring.up e he hcrashed] at hj
      exact (Option.some.inj hj).symm

/-- A write, up to the moment its primary has stored it, with node 3 down. -/
def putActions : List Action := [.invoke 1 (putMsg "new"), .run 0, .run 0, .run 0]

theorem stored_at_replicas_putMsg :
    ∃ m, Runs.exec Machine.step (Machine.idle (launchCluster [3] fun _ => [])) putActions = some m ∧
      (m.cluster.node 1).storage.get (ascii "user1") = some (ascii "new") ∧
      Holds HashRing.launchRing (ascii "user1") 1 := by
  have hroute : ∀ n : Node, n.ring = HashRing.launchRing →
      (handle 1 (putMsg "new")).perform 1 n = .continues n (execute 1 (putMsg "new")) [] :=
    fun n hn => perform_handle_launchRing (Or.inl rfl) rfl hn
  have hrun : ∃ m, Runs.exec Machine.step (Machine.idle (launchCluster [3] fun _ => []))
      putActions = some m ∧
      (m.cluster.node 1).storage.get (ascii "user1") = some (ascii "new") := by
    refine ⟨_, Runs.exec_cons.mpr ⟨_, rfl, Runs.exec_cons.mpr
      ⟨_, Machine.step_run_continues rfl rfl, Runs.exec_cons.mpr
      ⟨_, Machine.step_run_continues rfl (hroute _ rfl), Runs.exec_cons.mpr
      ⟨_, Machine.step_run_continues rfl rfl, rfl⟩⟩⟩⟩, ?_⟩
    exact (StorageEngine.get_put ..).trans (if_pos rfl)
  obtain ⟨m, hrun, hget⟩ := hrun
  have howns : HashRing.launchRing.Owns 1 := owns_of_getPrimary HashRing.getPrimary_launchRing
  have hallowed : ∀ a ∈ putActions, SingleCopy.Allowed HashRing.launchRing a := by
    intro a ha
    simp only [putActions, List.mem_cons, List.not_mem_nil, or_false] at ha
    rcases ha with rfl | rfl | rfl | rfl
    · exact ⟨Or.inl rfl, howns⟩
    all_goals trivial
  have hempty : ∀ i key value, ((launchCluster [3] fun _ => []).node i).storage.get key =
      some value → Holds HashRing.launchRing key i := by
    intro i key value hvalue
    have hnone : ((launchCluster [3] fun _ => []).node i).storage.get key = none := rfl
    rw [hnone] at hvalue
    exact absurd hvalue (by simp)
  exact ⟨m, hrun, hget,
    (stored_at_replicas (shared_launchCluster [3]) rfl hempty hallowed hrun).1 1 _ _ hget⟩

end Placement
end DistributedDb
