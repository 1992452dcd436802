import DistributedDb.Cluster.Healthy
import DistributedDb.Lib.Runs

/-
Convergence of the replicas.

The primary executes writes on one key and sends each of them to the other
replicas as a `REPLICATE` on a thread of its own, so the copies for one replica
arrive in any order.  A replica applies what arrives without a look at its time
stamp.  Once everything has arrived, a replica has applied a permutation of the
writes, and it agrees with the primary exactly when its permutation ends with
the effect of the last write.
-/

namespace DistributedDb
namespace Cluster
namespace Convergence

open Coordinator Runs

inductive Event where
  /-- The primary handles a write. -/
  | request (msg : Message)
  /-- A packet in flight arrives. -/
  | deliver (packet : Packet)
  /-- The clock of a node is set, to any reading. -/
  | tick (i now : Int)
  deriving DecidableEq

/-- A write has to succeed, and a packet has to be in flight. -/
def step (primary : Int) (c : Cluster) : Event → Option Cluster
  | .request msg =>
    match serve 1 c primary msg with
    | none => none
    | some (d, reply) => if reply.success then some d else none
  | .deliver packet =>
    if packet ∈ c.inFlight then
      match c.listener packet.host packet.port with
      | none => none
      | some j =>
        (serve 1 { c with inFlight := c.inFlight.erase packet } j packet.msg).map Prod.fst
    else none
  | .tick i now => some (c.setNode i { c.node i with clock := now })

/-- The requests of the run are writes on `key`. -/
def Allowed (key : Bytes) : Event → Prop
  | .request msg => msg.key = key ∧ (msg.type = .put ∨ msg.type = .del)
  | .deliver _ | .tick _ _ => True

/-- What a write request does to its key. -/
def requestWrite (msg : Message) : Write Bytes Bytes :=
  { key := msg.key, value := if msg.type = .del then none else some msg.value }

/-- What a `REPLICATE` does to its key. -/
def replicateWrite (msg : Message) : Write Bytes Bytes :=
  { key := msg.key, value := if msg.error = ascii "DEL" then none else some msg.value }

/-- The writes of the run, in the order of the primary. -/
def requests (events : List Event) : List (Write Bytes Bytes) :=
  events.filterMap fun e =>
    match e with
    | .request msg => some (requestWrite msg)
    | .deliver _ | .tick _ _ => none

/-- The writes that node `j` received, in the order of their arrival. -/
def deliveries (listener : Bytes → Int → Option Int) (j : Int) (events : List Event) :
    List (Write Bytes Bytes) :=
  events.filterMap fun e =>
    match e with
    | .request _ | .tick _ _ => none
    | .deliver packet =>
      if listener packet.host packet.port = some j then some (replicateWrite packet.msg) else none

/-- The writes that are in flight to node `j`. -/
def pending (listener : Bytes → Int → Option Int) (j : Int) (packets : List Packet) :
    List (Write Bytes Bytes) :=
  packets.filterMap fun packet =>
    if listener packet.host packet.port = some j then some (replicateWrite packet.msg) else none

theorem requests_concat (events : List Event) (msg : Message) :
    requests (events ++ [.request msg]) = requests events ++ [requestWrite msg] := by
  simp [requests]

theorem requests_deliver (events : List Event) (packet : Packet) :
    requests (events ++ [.deliver packet]) = requests events := by
  simp [requests]

theorem deliveries_request (listener : Bytes → Int → Option Int) (j : Int) (events : List Event)
    (msg : Message) :
    deliveries listener j (events ++ [.request msg]) = deliveries listener j events := by
  simp [deliveries]

theorem deliveries_deliver (listener : Bytes → Int → Option Int) (j : Int) (events : List Event)
    (packet : Packet) :
    deliveries listener j (events ++ [.deliver packet]) =
      deliveries listener j events ++ pending listener j [packet] := by
  rw [deliveries, deliveries, pending, List.filterMap_append]
  rfl

theorem requests_tick (events : List Event) (i now : Int) :
    requests (events ++ [.tick i now]) = requests events := by
  simp [requests]

theorem deliveries_tick (listener : Bytes → Int → Option Int) (j : Int) (events : List Event)
    (i now : Int) :
    deliveries listener j (events ++ [.tick i now]) = deliveries listener j events := by
  simp [deliveries]

/-! ## What one event does -/

/-- A replica applies a `REPLICATE` to its store. -/
theorem serve_replicate (c : Cluster) (j : Int) {msg : Message} (hrep : msg.type = .replicate) :
    ∃ s, serve 1 c j msg = some (c.setNode j { c.node j with storage := s }, Replication.ack j) ∧
      ∀ k, s.get k = if k = msg.key then (replicateWrite msg).value
        else (c.node j).storage.get k := by
  rw [serve, handle, hrep]
  show ∃ s, runWith (serve 0) j (Replication.handleReplicate j msg) c = _ ∧ _
  by_cases hdel : msg.error = ascii "DEL"
  · refine ⟨((c.node j).storage.del msg.key (c.node j).clock).2, ?_, fun k => ?_⟩
    · simp [Replication.handleReplicate, hdel, runWith]
    · rw [StorageEngine.get_del, replicateWrite, if_pos hdel]
  · refine ⟨(c.node j).storage.put msg.key msg.value (c.node j).clock, ?_, fun k => ?_⟩
    · simp [Replication.handleReplicate, hdel, runWith]
    · rw [StorageEngine.get_put, replicateWrite, if_neg hdel]

/-- A successful write at the primary changes its store and sends one
`REPLICATE` of the same effect to every other replica. -/
theorem step_request {primary : NodeInfo} {c d : Cluster} {msg : Message}
    (hprim : (c.node primary.id).ring.getPrimary msg.key = some primary)
    (hwrite : msg.type = .put ∨ msg.type = .del)
    (hstep : step primary.id c (.request msg) = some d) :
    ∃ s repl, d = (c.setNode primary.id { c.node primary.id with storage := s }).send
        (Replication.packets primary.id repl
          ((c.node primary.id).ring.getReplicas msg.key replicationFactor)) ∧
      s.get msg.key = (requestWrite msg).value ∧ repl.type = .replicate ∧
      replicateWrite repl = requestWrite msg := by
  have hreq : msg.IsRequest := hwrite.imp_right Or.inr
  rw [step, serve, handle_of_isRequest hreq, runWith_route_of_self _ _ c _ hprim rfl] at hstep
  rcases hwrite with hput | hdel
  · rw [execute, hput] at hstep
    simp only [runWith_executePut] at hstep
    refine ⟨_, _, (Option.some.inj hstep).symm, ?_, rfl, ?_⟩
    · rw [StorageEngine.get_put, if_pos rfl, requestWrite, hput]
      rfl
    · rw [replicateWrite, requestWrite, hput]
      rfl
  · rw [execute, hdel] at hstep
    cases hs : (c.node primary.id).storage.get msg.key with
    | none =>
      simp only [runWith_executeDelete_of_none _ _ c msg hs] at hstep
      exact absurd hstep (by simp [makeError])
    | some v =>
      simp only [runWith_executeDelete_of_some _ _ c msg hs] at hstep
      refine ⟨_, _, (Option.some.inj hstep).symm, ?_, rfl, ?_⟩
      · rw [StorageEngine.get_del, if_pos rfl, requestWrite, hdel]
        rfl
      · rw [replicateWrite, requestWrite, hdel]
        rfl

theorem step_deliver {primary : Int} {c d : Cluster} {packet : Packet}
    (hrep : packet.msg.type = .replicate) (hstep : step primary c (.deliver packet) = some d) :
    packet ∈ c.inFlight ∧ ∃ j s, c.listener packet.host packet.port = some j ∧
      d = { c.setNode j { c.node j with storage := s } with
        inFlight := c.inFlight.erase packet } ∧
      s.get packet.msg.key = (replicateWrite packet.msg).value := by
  rw [step] at hstep
  by_cases hmem : packet ∈ c.inFlight
  · rw [if_pos hmem] at hstep
    refine ⟨hmem, ?_⟩
    cases hl : c.listener packet.host packet.port with
    | none => simp [hl] at hstep
    | some j =>
      obtain ⟨s, hserve, hget⟩ :=
        serve_replicate { c with inFlight := c.inFlight.erase packet } j hrep
      simp only [hl, hserve, Option.map_some, Option.some.injEq] at hstep
      exact ⟨j, s, rfl, hstep.symm, (hget packet.msg.key).trans (if_pos rfl)⟩
  · exact absurd hstep (by simp [hmem])

/-! ## The packets of one write -/

theorem pending_append (listener : Bytes → Int → Option Int) (j : Int) (a b : List Packet) :
    pending listener j (a ++ b) = pending listener j a ++ pending listener j b :=
  List.filterMap_append

theorem pending_singleton (listener : Bytes → Int → Option Int) (j : Int) (packet : Packet) :
    pending listener j [packet] =
      if listener packet.host packet.port = some j then [replicateWrite packet.msg] else [] := by
  by_cases h : listener packet.host packet.port = some j <;> simp [pending, h]

theorem pending_packets_of_not_mem {listener : Bytes → Int → Option Int} {primary j : Int}
    {repl : Message} {replicas : List NodeInfo}
    (hl : ∀ r ∈ replicas, listener r.host r.port = some r.id)
    (hj : j ∉ replicas.map NodeInfo.id) :
    pending listener j (Replication.packets primary repl replicas) = [] := by
  refine List.filterMap_eq_nil_iff.mpr fun packet hp => ?_
  obtain ⟨r, hr, rfl⟩ := List.mem_map.mp hp
  have hmem := (List.mem_filter.mp hr).1
  have hne : r.id ≠ j := fun h => hj (h ▸ List.mem_map_of_mem hmem)
  simp [hl r hmem, hne]

/-- Exactly one packet of a write goes to each other replica. -/
theorem pending_packets {listener : Bytes → Int → Option Int} {primary j : Int} {repl : Message}
    {replicas : List NodeInfo} (hl : ∀ r ∈ replicas, listener r.host r.port = some r.id)
    (hnodup : (replicas.map NodeInfo.id).Nodup) (hj : j ∈ replicas.map NodeInfo.id)
    (hne : j ≠ primary) :
    pending listener j (Replication.packets primary repl replicas) = [replicateWrite repl] := by
  induction replicas with
  | nil => exact absurd hj List.not_mem_nil
  | cons r rest ih =>
    rw [List.map_cons, List.nodup_cons] at hnodup
    have hlrest : ∀ r ∈ rest, listener r.host r.port = some r.id :=
      fun r hr => hl r (List.mem_cons_of_mem _ hr)
    have hcons : Replication.packets primary repl (r :: rest) =
        (if r.id ≠ primary then [{ host := r.host, port := r.port, msg := repl }] else []) ++
          Replication.packets primary repl rest := by
      by_cases hr : r.id = primary <;> simp [Replication.packets, hr]
    rw [hcons, pending_append]
    by_cases hrj : r.id = j
    · have hrest : pending listener j (Replication.packets primary repl rest) = [] :=
        pending_packets_of_not_mem hlrest (hrj ▸ hnodup.1)
      rw [if_pos (hrj ▸ hne), hrest, pending_singleton,
        if_pos (by rw [hl r List.mem_cons_self, hrj])]
      rfl
    · have hjrest := (List.mem_cons.mp hj).resolve_left (Ne.symm hrj)
      rw [ih hlrest hnodup.2 hjrest]
      by_cases hr : r.id = primary
      · simp [hr, pending]
      · rw [if_pos hr, pending_singleton, if_neg (by simp [hl r List.mem_cons_self, hrj])]
        rfl

/-! ## The invariant of a run -/

section Run

variable (c₀ : Cluster) (base : HashRing) (key : Bytes) (primary : NodeInfo)

/-- After the events `done`, every store holds what the last write it applied
left there, and each other replica has received or will receive every write. -/
structure Inv (done : List Event) (c : Cluster) : Prop where
  routing : SameRouting c₀ c
  executed : (c.node primary.id).storage.get key =
    (Write.last key (requests done)).getD ((c₀.node primary.id).storage.get key)
  replica : ∀ r ∈ base.getReplicas key replicationFactor, r.id ≠ primary.id →
    (c.node r.id).storage.get key =
      (Write.last key (deliveries c₀.listener r.id done)).getD
        ((c₀.node r.id).storage.get key)
  conserved : ∀ r ∈ base.getReplicas key replicationFactor, r.id ≠ primary.id →
    (deliveries c₀.listener r.id done ++ pending c₀.listener r.id c.inFlight).Perm
      (requests done)
  packets : ∀ packet ∈ c.inFlight, packet.msg.type = .replicate ∧ packet.msg.key = key ∧
    ∃ r ∈ base.getReplicas key replicationFactor, r.id ≠ primary.id ∧
      c₀.listener packet.host packet.port = some r.id

variable {c₀ base key primary}

theorem inv_start (hidle : c₀.inFlight = []) : Inv c₀ base key primary [] c₀ where
  routing := SameRouting.refl c₀
  executed := rfl
  replica _ _ _ := rfl
  conserved _ _ _ := by simp [hidle, deliveries, pending, requests]
  packets := by simp [hidle]

theorem inv_request (hhealthy : Healthy c₀ base) (hprim : base.getPrimary key = some primary)
    {done : List Event} {c d : Cluster} {msg : Message} (h : Inv c₀ base key primary done c)
    (hkey : msg.key = key)
    (hwrite : msg.type = .put ∨ msg.type = .del)
    (hstep : step primary.id c (.request msg) = some d) :
    Inv c₀ base key primary (done ++ [.request msg]) d := by
  subst hkey
  have hc := hhealthy.sameRouting h.routing
  have howns := owns_of_getPrimary hprim
  obtain ⟨s, repl, rfl, hs, hrepl, heffect⟩ :=
    step_request ((hc.getPrimary howns msg.key).trans hprim) hwrite hstep
  rw [hc.getReplicas howns msg.key]
  have hlast : Write.last msg.key (requests (done ++ [.request msg])) =
      some (requestWrite msg).value := by
    rw [requests_concat, Write.last_concat]
    exact if_pos rfl
  have hnode : ∀ j, j ≠ primary.id →
      ((c.setNode primary.id { c.node primary.id with storage := s }).send
        (Replication.packets primary.id repl
          (base.getReplicas msg.key replicationFactor))).node j = c.node j :=
    fun j hj => setNode_node_of_ne c _ hj
  constructor
  · exact h.routing.trans (SameRouting.setStorage c primary.id s _)
  · rw [hlast, send_node, setNode_node_self]
    exact hs
  · intro r hr hne
    rw [hnode r.id hne, deliveries_request]
    exact h.replica r hr hne
  · intro r hr hne
    have hnew : pending c₀.listener r.id (Replication.packets primary.id repl
        (base.getReplicas msg.key replicationFactor)) = [requestWrite msg] := by
      rw [← heffect]
      exact pending_packets (fun r hr => hhealthy.listener_replica hr)
        (nodup_getReplicas base msg.key) (List.mem_map_of_mem hr) hne
    rw [deliveries_request, requests_concat]
    show (deliveries c₀.listener r.id done ++ pending c₀.listener r.id (c.inFlight ++ _)).Perm _
    rw [pending_append, hnew, ← List.append_assoc]
    exact (h.conserved r hr hne).append_right _
  · intro packet hp
    rcases List.mem_append.mp hp with hp | hp
    · exact h.packets packet hp
    · obtain ⟨r, hr, rfl⟩ := List.mem_map.mp hp
      obtain ⟨hr, hne⟩ := List.mem_filter.mp hr
      have hk : repl.key = msg.key := congrArg Write.key heffect
      exact ⟨hrepl, hk, r, hr, of_decide_eq_true hne, hhealthy.listener_replica hr⟩

theorem inv_deliver {done : List Event} {c d : Cluster} {packet : Packet}
    (h : Inv c₀ base key primary done c)
    (hstep : step primary.id c (.deliver packet) = some d) :
    Inv c₀ base key primary (done ++ [.deliver packet]) d := by
  have hmem : packet ∈ c.inFlight := by
    by_contra hmem
    simp [step, hmem] at hstep
  obtain ⟨hrep, hkey, r, hr, hne, hl⟩ := h.packets packet hmem
  obtain ⟨-, j, s, hj, rfl, hs⟩ := step_deliver hrep hstep
  obtain rfl : r.id = j := by
    rw [h.routing.listener, hl] at hj
    exact Option.some.inj hj
  have hpend : ∀ k, pending c₀.listener k [packet] =
      if k = r.id then [replicateWrite packet.msg] else [] := by
    intro k
    rw [pending_singleton, hl]
    by_cases hk : k = r.id
    · simp [hk]
    · simp [hk, Ne.symm hk]
  have hnode : ∀ k, k ≠ r.id → ({ c.setNode r.id { c.node r.id with storage := s } with
      inFlight := c.inFlight.erase packet } : Cluster).node k = c.node k :=
    fun k hk => setNode_node_of_ne c _ hk
  constructor
  · refine h.routing.trans ⟨rfl, ?_⟩
    exact (SameRouting.setStorage c r.id s []).ring
  · rw [hnode primary.id (Ne.symm hne), requests_deliver]
    exact h.executed
  · intro r' hr' hne'
    rw [deliveries_deliver, hpend]
    by_cases hrr : r'.id = r.id
    · rw [if_pos hrr, hrr, Write.last_concat, if_pos (show (replicateWrite packet.msg).key = key
        from hkey)]
      show ((c.setNode r.id { c.node r.id with storage := s }).node r.id).storage.get key = _
      rw [setNode_node_self]
      exact hkey ▸ hs
    · rw [hnode r'.id hrr, if_neg hrr, List.append_nil]
      exact h.replica r' hr' hne'
  · intro r' hr' hne'
    have hperm : (pending c₀.listener r'.id c.inFlight).Perm
        (pending c₀.listener r'.id [packet] ++
          pending c₀.listener r'.id (c.inFlight.erase packet)) := by
      rw [← pending_append]
      exact (List.perm_cons_erase hmem).filterMap _
    rw [deliveries_deliver, requests_deliver, List.append_assoc]
    exact (hperm.symm.append_left _).trans (h.conserved r' hr' hne')
  · intro packet' hp'
    exact h.packets packet' (List.mem_of_mem_erase hp')

theorem inv_tick {done : List Event} {c : Cluster} (h : Inv c₀ base key primary done c)
    (i now : Int) :
    Inv c₀ base key primary (done ++ [.tick i now])
      (c.setNode i { c.node i with clock := now }) := by
  have hstorage : ∀ j, ((c.setNode i { c.node i with clock := now }).node j).storage =
      (c.node j).storage := by
    intro j
    by_cases hj : j = i
    · subst hj
      rw [setNode_node_self]
    · rw [setNode_node_of_ne c _ hj]
  constructor
  · exact h.routing.trans (SameRouting.setNode (n := { c.node i with clock := now }) rfl)
  · rw [hstorage, requests_tick]
    exact h.executed
  · intro r hr hne
    rw [hstorage, deliveries_tick]
    exact h.replica r hr hne
  · intro r hr hne
    rw [deliveries_tick, requests_tick]
    exact h.conserved r hr hne
  · exact h.packets

theorem inv_run (hhealthy : Healthy c₀ base) (hprim : base.getPrimary key = some primary)
    {events : List Event} {c : Cluster} (hidle : c₀.inFlight = [])
    (hallowed : ∀ e ∈ events, Allowed key e)
    (hrun : exec (step primary.id) c₀ events = some c) :
    Inv c₀ base key primary events c := by
  refine exec_history (fun done s a s' ha hs hstep => ?_)
    (inv_start hidle) hallowed hrun
  cases a with
  | request msg => exact inv_request hhealthy hprim hs ha.1 ha.2 hstep
  | deliver packet => exact inv_deliver hs hstep
  | tick i now => exact Option.some.inj hstep ▸ inv_tick hs i now

/-- Once everything has arrived, the replicas agree with the primary exactly
when the `REPLICATE` that each of them applied last does what the last write
did. -/
theorem replicas_converge_iff (hhealthy : Healthy c₀ base)
    (hprim : base.getPrimary key = some primary) (hidle : c₀.inFlight = [])
    (hagree : ∀ r ∈ base.getReplicas key replicationFactor,
      (c₀.node r.id).storage.get key = (c₀.node primary.id).storage.get key)
    {events : List Event} {c : Cluster} (hallowed : ∀ e ∈ events, Allowed key e)
    (hrun : exec (step primary.id) c₀ events = some c) (hdone : c.inFlight = []) :
    (∀ r ∈ base.getReplicas key replicationFactor,
      (c.node r.id).storage.get key = (c.node primary.id).storage.get key) ↔
    ∀ r ∈ base.getReplicas key replicationFactor, r.id ≠ primary.id →
      Write.last key (deliveries c₀.listener r.id events) = Write.last key (requests events) := by
  have hinv := inv_run hhealthy hprim hidle hallowed hrun
  have hperm : ∀ r ∈ base.getReplicas key replicationFactor, r.id ≠ primary.id →
      (deliveries c₀.listener r.id events).Perm (requests events) := by
    intro r hr hne
    have := hinv.conserved r hr hne
    rwa [hdone, pending, List.filterMap_nil, List.append_nil] at this
  constructor
  · intro hsame r hr hne
    have hnone : Write.last key (deliveries c₀.listener r.id events) = none ↔
        Write.last key (requests events) = none := by
      rw [Write.last_eq_none_iff, Write.last_eq_none_iff]
      exact forall_congr' fun w => imp_congr (hperm r hr hne).mem_iff Iff.rfl
    have hval := hsame r hr
    rw [hinv.executed, hinv.replica r hr hne] at hval
    cases hd : Write.last key (deliveries c₀.listener r.id events) with
    | none => exact (hnone.mp hd).symm
    | some v =>
      cases hq : Write.last key (requests events) with
      | none => exact absurd (hnone.mpr hq) (by simp [hd])
      | some w =>
        rw [hd, hq] at hval
        exact congrArg some hval
  · intro hlast r hr
    by_cases hne : r.id = primary.id
    · rw [hne]
    · rw [hinv.executed, hinv.replica r hr hne, hlast r hr hne, hagree r hr]

end Run

/-! ## Runs of the launched cluster -/

/-- The packet that carries a write of node 1 to node `j`. -/
def packetTo (j : Int) (value : String) (now : Int) : Packet :=
  { host := ascii "localhost", port := 8000 + j
    msg := Replication.replicateMsg 1 (ascii "user1") (ascii value) .put now }

theorem step_putMsg {c : Cluster} (h : SameRouting (launchCluster [] fun _ => []) c)
    (value : String) :
    ∃ d, step 1 c (.request (putMsg value)) = some d ∧
      SameRouting (launchCluster [] fun _ => []) d ∧
      d.inFlight = c.inFlight ++
        [packetTo 2 value (c.node 1).clock, packetTo 3 value (c.node 1).clock] := by
  have hc := healthy_launchCluster.sameRouting h
  have howns := owns_of_getPrimary HashRing.getPrimary_launchRing
  have hprim : (c.node 1).ring.getPrimary (putMsg value).key = some (launchNode 1) :=
    (hc.getPrimary howns (ascii "user1")).trans HashRing.getPrimary_launchRing
  have hrep : (c.node 1).ring.getReplicas (putMsg value).key replicationFactor =
      [launchNode 1, launchNode 2, launchNode 3] :=
    (hc.getReplicas howns (ascii "user1")).trans HashRing.getReplicas_launchRing
  have hrun := (runWith_route_of_self (serve 0) 1 c (executePut 1 (putMsg value)) hprim rfl).trans
    (runWith_executePut (serve 0) 1 c (putMsg value))
  rw [step, show serve 1 c 1 (putMsg value) = _ from hrun]
  simp only [hrep]
  exact ⟨_, rfl, h.trans (SameRouting.setStorage c 1 _ _), rfl⟩

theorem step_packetTo {c : Cluster} (h : SameRouting (launchCluster [] fun _ => []) c) {j : Int}
    (hj : j = 2 ∨ j = 3) {value : String} {now : Int} (hmem : packetTo j value now ∈ c.inFlight) :
    ∃ d, step 1 c (.deliver (packetTo j value now)) = some d ∧
      SameRouting (launchCluster [] fun _ => []) d ∧
      d.inFlight = c.inFlight.erase (packetTo j value now) := by
  have hl : c.listener (packetTo j value now).host (packetTo j value now).port = some j := by
    rw [h.listener]
    show (launchCluster [] fun _ => []).listener (ascii "localhost") (8000 + j) = some j
    rcases hj with rfl | rfl <;> decide
  obtain ⟨s, hserve, -⟩ := serve_replicate
    { c with inFlight := c.inFlight.erase (packetTo j value now) } j
    (show (packetTo j value now).msg.type = .replicate from rfl)
  rw [step, if_pos hmem, hl]
  simp only [hserve, Option.map_some]
  exact ⟨_, rfl, h.trans ⟨rfl, (SameRouting.setStorage c j s []).ring⟩, rfl⟩

/-- Node 1 writes `old` at time 0 and `new` at time 100. -/
def writes : List Event :=
  [.request (putMsg "old"), .tick 1 100, .request (putMsg "new")]

theorem exec_writes :
    ∃ c, exec (step 1) (launchCluster [] fun _ => []) writes = some c ∧
      SameRouting (launchCluster [] fun _ => []) c ∧
      c.inFlight = [packetTo 2 "old" 0, packetTo 3 "old" 0, packetTo 2 "new" 100,
        packetTo 3 "new" 100] := by
  obtain ⟨c1, hs1, h1, hf1⟩ := step_putMsg (SameRouting.refl _) "old"
  let c2 := c1.setNode 1 { c1.node 1 with clock := 100 }
  have h2 := h1.trans (SameRouting.setNode (c := c1) (i := 1)
    (n := { c1.node 1 with clock := 100 }) rfl)
  have hclock : (c2.node 1).clock = 100 := by rw [setNode_node_self]
  obtain ⟨c3, hs3, h3, hf3⟩ := step_putMsg h2 "new"
  rw [hclock, show c2.inFlight = c1.inFlight from rfl, hf1] at hf3
  exact ⟨c3, exec_cons.mpr ⟨c1, hs1, exec_cons.mpr ⟨c2, rfl, exec_cons.mpr ⟨c3, hs3, rfl⟩⟩⟩,
    h3, hf3⟩

/-- All packets in flight can be delivered, in any order. -/
theorem exec_deliveries {c : Cluster} (h : SameRouting (launchCluster [] fun _ => []) c)
    {packets : List Packet}
    (hto : ∀ p ∈ packets, ∃ j value now, (j = 2 ∨ j = 3) ∧ p = packetTo j value now)
    (hall : packets.Perm c.inFlight) :
    ∃ d, exec (step 1) c (packets.map .deliver) = some d ∧ d.inFlight = [] := by
  induction packets generalizing c with
  | nil => exact ⟨c, rfl, hall.nil_eq.symm⟩
  | cons p rest ih =>
    obtain ⟨j, value, now, hj, rfl⟩ := hto p List.mem_cons_self
    obtain ⟨c', hstep, h', hflight⟩ :=
      step_packetTo h hj (hall.mem_iff.mp List.mem_cons_self)
    have hrest : rest.Perm c'.inFlight := by
      have := hall.erase (packetTo j value now)
      rwa [List.erase_cons_head, ← hflight] at this
    obtain ⟨d, hrun, hdone⟩ := ih h' (fun q hq => hto q (List.mem_cons_of_mem _ hq)) hrest
    exact ⟨d, exec_cons.mpr ⟨c', hstep, hrun⟩, hdone⟩

/-- The two writes, and their packets in the given order. -/
theorem exec_writes_deliveries {packets : List Packet}
    (hall : packets.Perm [packetTo 2 "old" 0, packetTo 3 "old" 0, packetTo 2 "new" 100,
      packetTo 3 "new" 100]) :
    ∃ c, exec (step 1) (launchCluster [] fun _ => []) (writes ++ packets.map .deliver) = some c ∧
      c.inFlight = [] ∧
      Inv (launchCluster [] fun _ => []) HashRing.launchRing (ascii "user1") (launchNode 1)
        (writes ++ packets.map .deliver) c := by
  obtain ⟨c₁, hwrites, h, hflight⟩ := exec_writes
  have hto : ∀ p ∈ packets, ∃ j value now, (j = 2 ∨ j = 3) ∧ p = packetTo j value now := by
    intro p hp
    have hmem := hall.mem_iff.mp hp
    simp only [List.mem_cons, List.not_mem_nil, or_false] at hmem
    rcases hmem with rfl | rfl | rfl | rfl
    · exact ⟨2, _, _, Or.inl rfl, rfl⟩
    · exact ⟨3, _, _, Or.inr rfl, rfl⟩
    · exact ⟨2, _, _, Or.inl rfl, rfl⟩
    · exact ⟨3, _, _, Or.inr rfl, rfl⟩
  obtain ⟨c, hdeliver, hdone⟩ := exec_deliveries h hto (hflight ▸ hall)
  have hrun := exec_append.mpr ⟨c₁, hwrites, hdeliver⟩
  refine ⟨c, hrun, hdone, inv_run healthy_launchCluster HashRing.getPrimary_launchRing rfl ?_ hrun⟩
  intro e he
  rcases List.mem_append.mp he with he | he
  · simp only [writes, List.mem_cons, List.not_mem_nil, or_false] at he
    rcases he with rfl | rfl | rfl
    · exact ⟨rfl, Or.inl rfl⟩
    · trivial
    · exact ⟨rfl, Or.inl rfl⟩
  · obtain ⟨p, -, rfl⟩ := List.mem_map.mp he
    trivial

/-- The second write overtakes the first on the way to both replicas. -/
def overtaken : List Event :=
  writes ++ [packetTo 2 "new" 100, packetTo 3 "new" 100, packetTo 2 "old" 0,
    packetTo 3 "old" 0].map .deliver

/-- A healthy run in which every packet arrives and replica 2 ends with the
older value. -/
theorem overtaken_write_is_lost :
    Healthy (launchCluster [] fun _ => []) HashRing.launchRing ∧
    HashRing.launchRing.getPrimary (ascii "user1") = some (launchNode 1) ∧
    launchNode 2 ∈ HashRing.launchRing.getReplicas (ascii "user1") replicationFactor ∧
    (∀ i, ((launchCluster [] fun _ => []).node i).storage.get (ascii "user1") = none) ∧
    (launchCluster [] fun _ => []).inFlight = [] ∧
    (∀ e ∈ overtaken, Allowed (ascii "user1") e) ∧
    ∃ c, exec (step 1) (launchCluster [] fun _ => []) overtaken = some c ∧ c.inFlight = [] ∧
      (c.node 1).storage.get (ascii "user1") = some (ascii "new") ∧
      (c.node 2).storage.get (ascii "user1") = some (ascii "old") := by
  have htwo : launchNode 2 ∈ HashRing.launchRing.getReplicas (ascii "user1") replicationFactor := by
    show launchNode 2 ∈ HashRing.launchRing.getReplicas (ascii "user1") 3
    rw [HashRing.getReplicas_launchRing]
    simp
  refine ⟨healthy_launchCluster, HashRing.getPrimary_launchRing, htwo, fun _ => rfl, rfl, ?_, ?_⟩
  · simp [overtaken, writes, Allowed, putMsg]
  · obtain ⟨c, hrun, hdone, hinv⟩ := exec_writes_deliveries
      (show List.Perm [packetTo 2 "new" 100, packetTo 3 "new" 100, packetTo 2 "old" 0,
        packetTo 3 "old" 0] _ by decide)
    exact ⟨c, hrun, hdone, hinv.executed, hinv.replica (launchNode 2) htwo (by decide)⟩

/-- Both writes reach node 2 before the first one reaches node 3, and every node
ends with the newer value. -/
theorem replicas_converge_two_writes :
    ∃ c, exec (step 1) (launchCluster [] fun _ => [])
        (writes ++ [packetTo 2 "old" 0, packetTo 2 "new" 100, packetTo 3 "old" 0,
          packetTo 3 "new" 100].map .deliver) = some c ∧
      (c.node 1).storage.get (ascii "user1") = some (ascii "new") ∧
      ∀ r ∈ HashRing.launchRing.getReplicas (ascii "user1") replicationFactor,
        (c.node r.id).storage.get (ascii "user1") = (c.node 1).storage.get (ascii "user1") := by
  obtain ⟨c, hrun, hdone, hinv⟩ := exec_writes_deliveries
    (show List.Perm [packetTo 2 "old" 0, packetTo 2 "new" 100, packetTo 3 "old" 0,
      packetTo 3 "new" 100] _ by decide)
  refine ⟨c, hrun, hinv.executed, ?_⟩
  refine (replicas_converge_iff healthy_launchCluster HashRing.getPrimary_launchRing rfl
    (fun _ _ => rfl) (by simp [writes, Allowed, putMsg]) hrun hdone).mpr ?_
  show ∀ r ∈ HashRing.launchRing.getReplicas (ascii "user1") 3, _
  rw [HashRing.getReplicas_launchRing]
  decide

end Convergence
end Cluster
end DistributedDb
