import DistributedDb.Cluster.Requests
import DistributedDb.Lib.Runs

/-
The cluster as an interleaved machine.

Every connection is served by a thread, and a thread that waits for the reply of
another node is continued by the handler there: a thread is a running program
with the frames that wait for it.  One step of a thread is one call of
`Prog.perform`.  Packets in flight arrive in any order, and may be lost or
arrive again.  The trace records the requests of the clients, their replies, and
the calls that read or change a store.
-/

namespace DistributedDb

/-- A handler that waits for the reply to a `send_message`. -/
structure Caller where
  node : Int
  next : Option Message → Prog

/-- A caller that hands the reply on as its own. -/
def Passes (next : Option Message → Prog) : Prop := ∀ reply, next (some reply) = .done reply

structure Thread where
  /-- The client request that the thread answers.  A thread that serves a packet
  or runs in the background answers nobody. -/
  origin : Option Message
  node : Int
  prog : Prog
  callers : List Caller

inductive Event where
  | invoke (t : Nat) (msg : Message)
  | respond (t : Nat) (msg reply : Message)
  /-- Thread `t` reads or writes one key of the store of node `i`. -/
  | access (t : Nat) (i : Int)
  /-- A batch of pairs is loaded into the store of node `i`. -/
  | batch (i : Int)
  deriving DecidableEq

structure Machine where
  cluster : Cluster
  threads : Nat → Option Thread
  /-- The name of the next thread. -/
  next : Nat
  trace : List Event

inductive Action where
  /-- A client connects to node `i` and sends a request. -/
  | invoke (i : Int) (msg : Message)
  /-- Thread `t` makes its next call. -/
  | run (t : Nat)
  /-- A packet in flight arrives; it stays in flight when it is to arrive again. -/
  | deliver (packet : Packet) (again : Bool)
  | lose (packet : Packet)
  /-- A service thread of a node sends a message without waiting for a reply. -/
  | send (packet : Packet)
  | tick (i now : Int)
  /-- A stopped node starts again from its log, on its address. -/
  | restart (self : NodeInfo) (peers : List NodeInfo)
  /-- Node `i` starts the thread that asks a peer for its data. -/
  | sync (i : Int) (peer : NodeInfo)

namespace Machine

open Coordinator

/-- The events of one call. -/
def label (t : Nat) (i : Int) : Prog → List Event
  | .storagePut _ _ _ | .storageGet _ _ | .storageDel _ _ => [.access t i]
  | .storagePutBatch _ _ => [.batch i]
  | _ => []

def setThread (m : Machine) (t : Nat) (th : Option Thread) : Machine :=
  { m with threads := Function.update m.threads t th }

/-- Start a thread under a new name. -/
def spawn (m : Machine) (th : Thread) : Machine :=
  { m.setThread m.next (some th) with next := m.next + 1 }

def answer (t : Nat) (origin : Option Message) (reply : Message) : List Event :=
  match origin with
  | none => []
  | some msg => [.respond t msg reply]

def runThread (m : Machine) (t : Nat) (th : Thread) : Machine :=
  match th.prog.perform th.node (m.cluster.node th.node) with
  | .finished reply =>
    match th.callers with
    | [] => { m.setThread t none with trace := m.trace ++ answer t th.origin reply }
    | caller :: rest =>
      m.setThread t (some { th with
        node := caller.node, prog := caller.next (some reply), callers := rest })
  | .continues n rest sent =>
    { m.setThread t (some { th with prog := rest }) with
      cluster := (m.cluster.setNode th.node n).send sent
      trace := m.trace ++ label t th.node th.prog }
  | .calls host port msg next =>
    match m.cluster.listener host port with
    | none => m.setThread t (some { th with prog := next none })
    | some j =>
      m.setThread t (some { th with
        node := j, prog := onMessage j msg,
        callers := { node := th.node, next := next } :: th.callers })

/-- The node comes up with what its log holds, and accepts connections. -/
def restartNode (c : Cluster) (self : NodeInfo) (peers : List NodeInfo) : Cluster :=
  { c.setNode self.id (Node.start self peers (c.node self.id).storage.log (c.node self.id).clock)
      with
    listener := fun host port =>
      if host = self.host ∧ port = self.port then some self.id else c.listener host port }

def step (m : Machine) : Action → Option Machine
  | .invoke i msg =>
    some { m.spawn { origin := some msg, node := i, prog := onMessage i msg, callers := [] } with
      trace := m.trace ++ [.invoke m.next msg] }
  | .run t => (m.threads t).map (m.runThread t)
  | .deliver packet again =>
    if packet ∈ m.cluster.inFlight then
      match m.cluster.listener packet.host packet.port with
      | none => none
      | some j =>
        some { m.spawn
            { origin := none, node := j, prog := onMessage j packet.msg, callers := [] } with
          cluster := { m.cluster with
            inFlight := if again then m.cluster.inFlight else m.cluster.inFlight.erase packet } }
    else none
  | .lose packet =>
    some { m with cluster := { m.cluster with inFlight := m.cluster.inFlight.erase packet } }
  | .send packet => some { m with cluster := m.cluster.send [packet] }
  | .tick i now =>
    some { m with cluster := m.cluster.setNode i { m.cluster.node i with clock := now } }
  | .restart self peers => some { m with cluster := restartNode m.cluster self peers }
  | .sync i peer =>
    some (m.spawn
      { origin := none, node := i, prog := Replication.syncFromPeer i peer, callers := [] })

/-- A delivery starts the handler of the packet at the node that listens for it;
the packet may stay in the network. -/
theorem exists_of_step_deliver {m m' : Machine} {packet : Packet} {again : Bool}
    (h : m.step (.deliver packet again) = some m') :
    packet ∈ m.cluster.inFlight ∧
    ∃ j flight, m.cluster.listener packet.host packet.port = some j ∧
      (∀ q ∈ flight, q ∈ m.cluster.inFlight) ∧
      m' = { m.spawn
          { origin := none, node := j, prog := onMessage j packet.msg, callers := [] } with
        cluster := { m.cluster with inFlight := flight } } := by
  rw [step] at h
  split at h
  · rename_i hmem
    cases hl : m.cluster.listener packet.host packet.port with
    | none => simp [hl] at h
    | some j =>
      simp only [hl, Option.some.injEq] at h
      refine ⟨hmem, j, _, rfl, fun q hq => ?_, h.symm⟩
      cases again with
      | true => exact hq
      | false => exact List.mem_of_mem_erase hq
  · exact absurd h (by simp)

theorem runThread_continues {m : Machine} {t : Nat} {th : Thread} {n : Node} {rest : Prog}
    {sent : List Packet}
    (hperf : th.prog.perform th.node (m.cluster.node th.node) = .continues n rest sent) :
    m.runThread t th = { m.setThread t (some { th with prog := rest }) with
      cluster := (m.cluster.setNode th.node n).send sent
      trace := m.trace ++ label t th.node th.prog } := by
  rw [runThread, hperf]

theorem step_run_continues {m : Machine} {t : Nat} {th : Thread} {n : Node} {rest : Prog}
    {sent : List Packet} (ht : m.threads t = some th)
    (hperf : th.prog.perform th.node (m.cluster.node th.node) = .continues n rest sent) :
    m.step (.run t) = some { m.setThread t (some { th with prog := rest }) with
      cluster := (m.cluster.setNode th.node n).send sent
      trace := m.trace ++ label t th.node th.prog } := by
  rw [step, ht, Option.map_some, runThread_continues hperf]

theorem exists_run_continues {m : Machine} {t : Nat} {th : Thread} {n : Node} {rest : Prog}
    {sent : List Packet} (ht : m.threads t = some th)
    (hperf : th.prog.perform th.node (m.cluster.node th.node) = .continues n rest sent) :
    ∃ m', m.step (.run t) = some m' ∧ m'.threads t = some { th with prog := rest } ∧
      m'.cluster = (m.cluster.setNode th.node n).send sent ∧ m'.next = m.next ∧
      ∀ e ∈ m.trace, e ∈ m'.trace :=
  ⟨_, step_run_continues ht hperf, Function.update_self .., rfl, rfl,
    fun _ he => List.mem_append_left _ he⟩

theorem exists_run_returns {m : Machine} {t : Nat} {th : Thread} {reply : Message}
    {caller : Caller} {rest : List Caller} (ht : m.threads t = some th)
    (hprog : th.prog = .done reply) (hcallers : th.callers = caller :: rest) :
    ∃ m', m.step (.run t) = some m' ∧ m'.threads t = some { th with
      node := caller.node, prog := caller.next (some reply), callers := rest } ∧
      m'.cluster = m.cluster ∧ m'.next = m.next := by
  have hperf : th.prog.perform th.node (m.cluster.node th.node) = .finished reply := by
    rw [hprog]
    rfl
  refine ⟨m.setThread t (some _), ?_, Function.update_self .., rfl, rfl⟩
  simp only [step, ht, Option.map_some, runThread, hperf, hcallers]

theorem exists_run_calls {m : Machine} {t : Nat} {th : Thread} {host : Bytes} {port : Int}
    {msg : Message} {next : Option Message → Prog} {j : Int} (ht : m.threads t = some th)
    (hprog : th.prog = .sendMessage host port msg next)
    (hl : m.cluster.listener host port = some j) :
    ∃ m', m.step (.run t) = some m' ∧ m'.threads t = some { th with
      node := j
      prog := onMessage j msg
      callers := { node := th.node, next := next } :: th.callers } ∧
      m'.cluster = m.cluster ∧ m'.next = m.next := by
  have hperf : th.prog.perform th.node (m.cluster.node th.node) = .calls host port msg next := by
    rw [hprog]
    rfl
  refine ⟨m.setThread t (some _), ?_, Function.update_self .., rfl, rfl⟩
  simp only [step, ht, Option.map_some, runThread, hperf, hl]

theorem step_run_finished {m : Machine} {t : Nat} {th : Thread} {reply : Message}
    (ht : m.threads t = some th) (hprog : th.prog = .done reply) (hcallers : th.callers = []) :
    m.step (.run t) = some { m.setThread t none with
      trace := m.trace ++ answer t th.origin reply } := by
  have hperf : th.prog.perform th.node (m.cluster.node th.node) = .finished reply := by
    rw [hprog]
    rfl
  simp only [step, ht, Option.map_some, runThread, hperf, hcallers]

theorem restartNode_node (c : Cluster) (self : NodeInfo) (peers : List NodeInfo) :
    (restartNode c self peers).node self.id =
      Node.start self peers (c.node self.id).storage.log (c.node self.id).clock :=
  Cluster.setNode_node_self ..

theorem restartNode_node_of_ne (c : Cluster) {self : NodeInfo} (peers : List NodeInfo) {i : Int}
    (h : i ≠ self.id) : (restartNode c self peers).node i = c.node i :=
  Cluster.setNode_node_of_ne c _ h

theorem restartNode_listener_of_ne (c : Cluster) {self : NodeInfo} (peers : List NodeInfo)
    {host : Bytes} {port : Int} (h : port ≠ self.port) :
    (restartNode c self peers).listener host port = c.listener host port :=
  if_neg fun haddr => h haddr.2

/-- A cluster with no thread running and an empty trace. -/
def idle (c : Cluster) : Machine :=
  { cluster := c, threads := fun _ => none, next := 0, trace := [] }

/-! ## No request is lost -/

/-- Every request is answered or its thread is running. -/
structure Tracked (m : Machine) : Prop where
  fresh : ∀ t th, m.threads t = some th → t < m.next
  pending : ∀ t msg, .invoke t msg ∈ m.trace → (∃ reply, .respond t msg reply ∈ m.trace) ∨
    ∃ th, m.threads t = some th ∧ th.origin = some msg

/-- One thread moves, starts or ends. -/
theorem Tracked.update {m m' : Machine} (h : Tracked m) (ext : List Event) (t : Nat)
    (hnext : m.next ≤ m'.next) (ht : t < m'.next)
    (hothers : ∀ u, u ≠ t → m'.threads u = m.threads u) (htrace : m'.trace = m.trace ++ ext)
    (hext : ∀ u msg, .invoke u msg ∈ ext → u = t)
    (hself : ∀ msg, (∃ th, m.threads t = some th ∧ th.origin = some msg) ∨ .invoke t msg ∈ ext →
      (∃ reply, .respond t msg reply ∈ ext) ∨ ∃ th, m'.threads t = some th ∧ th.origin = some msg) :
    Tracked m' where
  fresh u th hu := by
    by_cases hut : u = t
    · rw [hut]
      exact ht
    · rw [hothers u hut] at hu
      have := h.fresh u th hu
      omega
  pending u msg hu := by
    rw [htrace] at hu ⊢
    have hmove : (∃ reply, .respond t msg reply ∈ ext) ∨
        (∃ th, m'.threads t = some th ∧ th.origin = some msg) →
        (∃ reply, .respond t msg reply ∈ m.trace ++ ext) ∨
        ∃ th, m'.threads t = some th ∧ th.origin = some msg :=
      Or.imp (fun ⟨reply, hr⟩ => ⟨reply, List.mem_append_right _ hr⟩) id
    rcases List.mem_append.mp hu with hu | hu
    · rcases h.pending u msg hu with ⟨reply, hr⟩ | ⟨th, hth, horigin⟩
      · exact Or.inl ⟨reply, List.mem_append_left _ hr⟩
      · by_cases hut : u = t
        · subst hut
          exact hmove (hself msg (Or.inl ⟨th, hth, horigin⟩))
        · exact Or.inr ⟨th, by rw [hothers u hut, hth], horigin⟩
    · obtain rfl := hext u msg hu
      exact hmove (hself msg (Or.inr hu))

theorem invoke_notMem_label {u t : Nat} {msg : Message} {i : Int} {p : Prog} :
    Event.invoke u msg ∉ label t i p := by
  cases p <;> simp [label]

/-- A running thread goes on for the same client. -/
theorem Tracked.setThread {m m' : Machine} (h : Tracked m) {t : Nat} {th th' : Thread}
    (ht : m.threads t = some th) (ext : List Event)
    (hthreads : m'.threads = Function.update m.threads t (some th'))
    (horigin : th'.origin = th.origin) (hnext : m'.next = m.next)
    (htrace : m'.trace = m.trace ++ ext) (hext : ∀ u msg, .invoke u msg ∉ ext) : Tracked m' := by
  refine h.update ext t (le_of_eq hnext.symm) (hnext ▸ h.fresh t th ht) (fun u hu => ?_) htrace
    (fun u msg hu => absurd hu (hext u msg)) (fun msg hmsg => ?_)
  · rw [hthreads, Function.update_of_ne hu]
  · refine Or.inr ⟨th', by rw [hthreads, Function.update_self], ?_⟩
    rcases hmsg with ⟨th₀, hth₀, hmsg⟩ | hmsg
    · rw [horigin, ← hmsg, Option.some.inj (ht.symm.trans hth₀)]
    · exact absurd hmsg (hext t msg)

theorem tracked_runThread {m : Machine} (h : Tracked m) {t : Nat} {th : Thread}
    (ht : m.threads t = some th) : Tracked (m.runThread t th) := by
  unfold runThread
  cases hperf : th.prog.perform th.node (m.cluster.node th.node) with
  | finished reply =>
    cases hcallers : th.callers with
    | nil =>
      refine h.update (answer t th.origin reply) t (le_refl _) (h.fresh t th ht)
        (fun u hu => Function.update_of_ne hu ..) rfl ?_ ?_
      · intro u msg hu
        cases horigin : th.origin <;> simp [horigin, answer] at hu
      · intro msg hmsg
        rcases hmsg with ⟨th₀, hth₀, hmsg⟩ | hmsg
        · obtain rfl := Option.some.inj (ht.symm.trans hth₀)
          exact Or.inl ⟨reply, by simp [hmsg, answer]⟩
        · cases horigin : th.origin <;> simp [horigin, answer] at hmsg
    | cons caller rest =>
      exact h.setThread ht [] rfl rfl rfl (List.append_nil _).symm (by simp)
  | continues n rest sent =>
    exact h.setThread ht _ rfl rfl rfl rfl fun _ _ => invoke_notMem_label
  | calls host port msg next =>
    dsimp only
    cases m.cluster.listener host port with
    | none => exact h.setThread ht [] rfl rfl rfl (List.append_nil _).symm (by simp)
    | some j => exact h.setThread ht [] rfl rfl rfl (List.append_nil _).symm (by simp)

theorem tracked_spawn {m m' : Machine} (h : Tracked m) (th : Thread) (ext : List Event)
    (hthreads : m'.threads = (m.spawn th).threads) (hnext : m'.next = m.next + 1)
    (htrace : m'.trace = m.trace ++ ext)
    (hext : ∀ u msg, .invoke u msg ∈ ext → u = m.next ∧ th.origin = some msg) : Tracked m' := by
  refine h.update ext m.next (by omega) (by omega) (fun u hu => ?_) htrace
    (fun u msg hu => (hext u msg hu).1) (fun msg hmsg => ?_)
  · rw [hthreads]
    exact Function.update_of_ne hu ..
  · rcases hmsg with ⟨th₀, hth₀, -⟩ | hmsg
    · exact absurd (h.fresh _ _ hth₀) (by omega)
    · refine Or.inr ⟨th, ?_, (hext _ msg hmsg).2⟩
      rw [hthreads]
      exact Function.update_self ..

theorem tracked_step {m m' : Machine} {a : Action} (h : Tracked m) (hstep : m.step a = some m') :
    Tracked m' := by
  cases a with
  | run t =>
    obtain ⟨th, ht, rfl⟩ := Option.map_eq_some_iff.mp hstep
    exact tracked_runThread h ht
  | invoke i msg =>
    obtain rfl := Option.some.inj hstep
    refine tracked_spawn h _ [.invoke m.next msg] rfl rfl rfl fun u msg' hu => ?_
    rw [List.mem_singleton, Event.invoke.injEq] at hu
    exact ⟨hu.1, by rw [hu.2]⟩
  | deliver packet again =>
    obtain ⟨-, j, flight, -, -, rfl⟩ := exists_of_step_deliver hstep
    exact tracked_spawn h _ [] rfl rfl (List.append_nil _).symm (by simp)
  | sync i peer =>
    obtain rfl := Option.some.inj hstep
    exact tracked_spawn h _ [] rfl rfl (List.append_nil _).symm (by simp)
  | lose packet =>
    obtain rfl := Option.some.inj hstep
    exact ⟨h.fresh, h.pending⟩
  | send packet =>
    obtain rfl := Option.some.inj hstep
    exact ⟨h.fresh, h.pending⟩
  | tick i now =>
    obtain rfl := Option.some.inj hstep
    exact ⟨h.fresh, h.pending⟩
  | restart self peers =>
    obtain rfl := Option.some.inj hstep
    exact ⟨h.fresh, h.pending⟩

theorem tracked_idle (c : Cluster) : Tracked (idle c) :=
  ⟨by simp [idle], by simp [idle]⟩

/-- No request is lost in a run: each one is answered or its thread is still
running. -/
theorem tracked_exec {c : Cluster} {m : Machine} {actions : List Action}
    (hrun : Runs.exec step (idle c) actions = some m) : Tracked m := by
  have hall : ∀ a ∈ actions, (fun _ : Action => True) a := fun _ _ => trivial
  exact Runs.exec_invariant (fun _ _ _ _ h hstep => tracked_step h hstep) (tracked_idle c) hall hrun

/-! ## Every reply has one request -/

structure Attributed (m : Machine) : Prop where
  threads : ∀ t th, m.threads t = some th → t < m.next ∧
    ∀ msg, th.origin = some msg → .invoke t msg ∈ m.trace
  fresh : ∀ t msg, .invoke t msg ∈ m.trace → t < m.next
  unique : ∀ t msg msg', .invoke t msg ∈ m.trace → .invoke t msg' ∈ m.trace → msg = msg'
  answered : ∀ t msg reply, .respond t msg reply ∈ m.trace → .invoke t msg ∈ m.trace

/-- A running thread moves or ends; what it adds to the trace is no request. -/
theorem Attributed.moves {m m' : Machine} (h : Attributed m) {t : Nat} {th : Thread}
    (ht : m.threads t = some th) (ext : List Event) (hnext : m'.next = m.next)
    (hothers : ∀ u, u ≠ t → m'.threads u = m.threads u)
    (hself : ∀ th', m'.threads t = some th' → th'.origin = th.origin)
    (htrace : m'.trace = m.trace ++ ext) (hext : ∀ u msg, .invoke u msg ∉ ext)
    (hrespond : ∀ u msg reply, .respond u msg reply ∈ ext → u = t ∧ th.origin = some msg) :
    Attributed m' := by
  have hinvoke : ∀ u msg, .invoke u msg ∈ m'.trace ↔ .invoke u msg ∈ m.trace := by
    intro u msg
    rw [htrace, List.mem_append]
    exact or_iff_left (hext u msg)
  refine ⟨fun u th' hu => ?_, fun u msg hu => ?_, fun u msg msg' hu hu' => ?_,
    fun u msg reply hr => ?_⟩
  · simp only [hinvoke, hnext]
    by_cases hut : u = t
    · subst hut
      rw [hself th' hu]
      exact h.threads u th ht
    · exact h.threads u th' (hothers u hut ▸ hu)
  · rw [hnext]
    exact h.fresh u msg ((hinvoke u msg).mp hu)
  · exact h.unique u msg msg' ((hinvoke u msg).mp hu) ((hinvoke u msg').mp hu')
  · rw [hinvoke]
    rw [htrace] at hr
    rcases List.mem_append.mp hr with hr | hr
    · exact h.answered u msg reply hr
    · obtain ⟨rfl, horigin⟩ := hrespond u msg reply hr
      exact (h.threads u th ht).2 msg horigin

theorem respond_notMem_label {u t : Nat} {msg reply : Message} {i : Int} {p : Prog} :
    Event.respond u msg reply ∉ label t i p := by
  cases p <;> simp [label]

/-- What holds of all threads, after one of them has changed. -/
theorem threads_update {ok : Thread → Prop} {threads : Nat → Option Thread} {t : Nat}
    {th' : Option Thread} (h : ∀ u th, threads u = some th → ok th)
    (hself : ∀ th, th' = some th → ok th) (u : Nat) (th : Thread)
    (hu : Function.update threads t th' u = some th) : ok th := by
  by_cases hut : u = t
  · subst hut
    rw [Function.update_self] at hu
    exact hself th hu
  · rw [Function.update_of_ne hut] at hu
    exact h u th hu

theorem attributed_runThread {m : Machine} (h : Attributed m) {t : Nat} {th : Thread}
    (ht : m.threads t = some th) : Attributed (m.runThread t th) := by
  have hsome : ∀ th', th'.origin = th.origin → ∀ th'',
      Function.update m.threads t (some th') t = some th'' → th''.origin = th.origin := by
    intro th' horigin th'' hth''
    rw [Function.update_self, Option.some.injEq] at hth''
    rw [← hth'', horigin]
  unfold runThread
  cases hperf : th.prog.perform th.node (m.cluster.node th.node) with
  | finished reply =>
    cases hcallers : th.callers with
    | nil =>
      refine h.moves ht (answer t th.origin reply) rfl (fun u hu => Function.update_of_ne hu ..)
        (fun th' hth' => ?_) rfl (fun u msg hu => ?_) (fun u msg reply' hr => ?_)
      · have hnone : Function.update m.threads t none t = some th' := hth'
        rw [Function.update_self] at hnone
        exact absurd hnone (by simp)
      · cases horigin : th.origin <;> simp [horigin, answer] at hu
      · cases horigin : th.origin <;> simp [horigin, answer] at hr
        exact ⟨hr.1, congrArg some hr.2.1.symm⟩
    | cons caller rest =>
      exact h.moves ht [] rfl (fun u hu => Function.update_of_ne hu ..) (hsome _ rfl)
        (List.append_nil _).symm (by simp) (by simp)
  | continues n rest sent =>
    exact h.moves ht _ rfl (fun u hu => Function.update_of_ne hu ..) (hsome _ rfl) rfl
      (fun _ _ => invoke_notMem_label) fun _ _ _ hr => absurd hr respond_notMem_label
  | calls host port msg next =>
    dsimp only
    cases m.cluster.listener host port with
    | none =>
      exact h.moves ht [] rfl (fun u hu => Function.update_of_ne hu ..) (hsome _ rfl)
        (List.append_nil _).symm (by simp) (by simp)
    | some j =>
      exact h.moves ht [] rfl (fun u hu => Function.update_of_ne hu ..) (hsome _ rfl)
        (List.append_nil _).symm (by simp) (by simp)

theorem attributed_invoke {m : Machine} (h : Attributed m) (i : Int) (msg : Message)
    {m' : Machine} (hstep : m.step (.invoke i msg) = some m') : Attributed m' := by
  obtain rfl := Option.some.inj hstep
  have hinvoke : ∀ u msg', .invoke u msg' ∈ m.trace ++ [.invoke m.next msg] →
      .invoke u msg' ∈ m.trace ∨ (u = m.next ∧ msg' = msg) := by
    intro u msg' hu
    rcases List.mem_append.mp hu with hu | hu
    · exact Or.inl hu
    · exact Or.inr (Event.invoke.inj (List.mem_singleton.mp hu))
  have hold : ∀ msg', .invoke m.next msg' ∉ m.trace :=
    fun msg' hu => absurd (h.fresh _ _ hu) (by omega)
  refine ⟨fun u th hu => ?_, fun u msg' hu => ?_, fun u msg' msg'' hu hu' => ?_,
    fun u msg' reply hr => ?_⟩
  · by_cases hut : u = m.next
    · subst hut
      obtain rfl := Option.some.inj ((Function.update_self m.next _ m.threads).symm.trans hu)
      refine ⟨Nat.lt_succ_self _, fun msg' horigin => ?_⟩
      rw [← Option.some.inj horigin]
      exact List.mem_append_right _ (List.mem_singleton_self _)
    · obtain ⟨hlt, horigin⟩ := h.threads u th ((Function.update_of_ne hut ..).symm.trans hu)
      exact ⟨Nat.lt_succ_of_lt hlt, fun msg' hmsg' => List.mem_append_left _ (horigin msg' hmsg')⟩
  · rcases hinvoke u msg' hu with hu | ⟨rfl, -⟩
    · exact Nat.lt_succ_of_lt (h.fresh u msg' hu)
    · exact Nat.lt_succ_self _
  · rcases hinvoke u msg' hu with hfirst | ⟨rfl, rfl⟩
    · rcases hinvoke u msg'' hu' with hsecond | ⟨rfl, -⟩
      · exact h.unique u msg' msg'' hfirst hsecond
      · exact absurd hfirst (hold msg')
    · rcases hinvoke m.next msg'' hu' with hsecond | ⟨-, rfl⟩
      · exact absurd hsecond (hold msg'')
      · rfl
  · rcases List.mem_append.mp hr with hr | hr
    · exact List.mem_append_left _ (h.answered u msg' reply hr)
    · exact absurd (List.mem_singleton.mp hr) (by simp)

/-- A thread that answers nobody starts. -/
theorem attributed_spawn {m m' : Machine} (h : Attributed m) (th : Thread)
    (horigin : th.origin = none) (hthreads : m'.threads = (m.spawn th).threads)
    (hnext : m'.next = m.next + 1) (htrace : m'.trace = m.trace) : Attributed m' := by
  refine ⟨fun u th' hu => ?_, fun u msg hu => ?_, ?_, ?_⟩
  · rw [hthreads] at hu
    rw [hnext, htrace]
    by_cases hut : u = m.next
    · subst hut
      obtain rfl := Option.some.inj ((Function.update_self m.next _ m.threads).symm.trans hu)
      exact ⟨Nat.lt_succ_self _, by simp [horigin]⟩
    · obtain ⟨hlt, hold⟩ := h.threads u th' ((Function.update_of_ne hut ..).symm.trans hu)
      exact ⟨Nat.lt_succ_of_lt hlt, hold⟩
  · rw [htrace] at hu
    rw [hnext]
    exact Nat.lt_succ_of_lt (h.fresh u msg hu)
  · rw [htrace]
    exact h.unique
  · rw [htrace]
    exact h.answered

theorem attributed_step {m m' : Machine} {a : Action} (h : Attributed m)
    (hstep : m.step a = some m') : Attributed m' := by
  cases a with
  | run t =>
    obtain ⟨th, ht, rfl⟩ := Option.map_eq_some_iff.mp hstep
    exact attributed_runThread h ht
  | invoke i msg => exact attributed_invoke h i msg hstep
  | deliver packet again =>
    obtain ⟨-, j, flight, -, -, rfl⟩ := exists_of_step_deliver hstep
    exact attributed_spawn h _ rfl rfl rfl rfl
  | sync i peer =>
    obtain rfl := Option.some.inj hstep
    exact attributed_spawn h _ rfl rfl rfl rfl
  | lose packet =>
    obtain rfl := Option.some.inj hstep
    exact ⟨h.threads, h.fresh, h.unique, h.answered⟩
  | send packet =>
    obtain rfl := Option.some.inj hstep
    exact ⟨h.threads, h.fresh, h.unique, h.answered⟩
  | tick i now =>
    obtain rfl := Option.some.inj hstep
    exact ⟨h.threads, h.fresh, h.unique, h.answered⟩
  | restart self peers =>
    obtain rfl := Option.some.inj hstep
    exact ⟨h.threads, h.fresh, h.unique, h.answered⟩

/-- Only a client adds a request to the trace. -/
theorem exists_trace_of_step {m m' : Machine} {a : Action} (hnot : ∀ i msg, a ≠ .invoke i msg)
    (hstep : m.step a = some m') :
    ∃ ext, m'.trace = m.trace ++ ext ∧ ∀ t msg, .invoke t msg ∉ ext := by
  cases a with
  | invoke i msg => exact absurd rfl (hnot i msg)
  | run t =>
    obtain ⟨th, -, rfl⟩ := Option.map_eq_some_iff.mp hstep
    unfold runThread
    split
    · split
      · refine ⟨_, rfl, fun u msg hu => ?_⟩
        cases horigin : th.origin <;> simp [horigin, answer] at hu
      · exact ⟨[], (List.append_nil _).symm, by simp⟩
    · exact ⟨_, rfl, fun _ _ => invoke_notMem_label⟩
    · split
      · exact ⟨[], (List.append_nil _).symm, by simp⟩
      · exact ⟨[], (List.append_nil _).symm, by simp⟩
  | deliver packet again =>
    obtain ⟨-, j, flight, -, -, rfl⟩ := exists_of_step_deliver hstep
    exact ⟨[], (List.append_nil _).symm, by simp⟩
  | sync i peer | lose packet | send packet | tick i now | restart self peers =>
    obtain rfl := Option.some.inj hstep
    exact ⟨[], (List.append_nil _).symm, by simp⟩

theorem attributed_idle (c : Cluster) : Attributed (idle c) :=
  ⟨by simp [idle], by simp [idle], by simp [idle], by simp [idle]⟩

end Machine

/-! ## Properties of every call of a program -/

namespace Prog

/-- The program and everything it may go on to, whatever the calls return. -/
def Every (ok : Prog → Prop) : Prog → Prop
  | .done reply => ok (.done reply)
  | .markAlive nodeId next => ok (.markAlive nodeId next) ∧ next.Every ok
  | .getPrimary key next => ok (.getPrimary key next) ∧ ∀ r, (next r).Every ok
  | .getReplicas key rf next => ok (.getReplicas key rf next) ∧ ∀ r, (next r).Every ok
  | .storagePut key value next => ok (.storagePut key value next) ∧ next.Every ok
  | .storageGet key next => ok (.storageGet key next) ∧ ∀ r, (next r).Every ok
  | .storageDel key next => ok (.storageDel key next) ∧ ∀ r, (next r).Every ok
  | .storagePairs next => ok (.storagePairs next) ∧ ∀ r, (next r).Every ok
  | .storagePutBatch pairs next => ok (.storagePutBatch pairs next) ∧ next.Every ok
  | .election msg next => ok (.election msg next) ∧ ∀ r, (next r).Every ok
  | .nowMs next => ok (.nowMs next) ∧ ∀ r, (next r).Every ok
  | .sendMessage host port msg next =>
    ok (.sendMessage host port msg next) ∧ ∀ r, (next r).Every ok
  | .sendAndForget packet next => ok (.sendAndForget packet next) ∧ next.Every ok

variable {ok : Prog → Prop} {p : Prog}

theorem Every.head (h : p.Every ok) : ok p := by
  cases p with
  | done reply => exact h
  | _ => exact h.1

theorem Every.mono {ok' : Prog → Prop} (hok : ∀ q, ok q → ok' q) (h : p.Every ok) :
    p.Every ok' := by
  induction p with
  | done reply => exact hok _ h
  | markAlive nodeId next ih => exact ⟨hok _ h.1, ih h.2⟩
  | storagePut key value next ih => exact ⟨hok _ h.1, ih h.2⟩
  | storagePutBatch pairs next ih => exact ⟨hok _ h.1, ih h.2⟩
  | sendAndForget packet next ih => exact ⟨hok _ h.1, ih h.2⟩
  | getPrimary key next ih => exact ⟨hok _ h.1, fun r => ih r (h.2 r)⟩
  | getReplicas key rf next ih => exact ⟨hok _ h.1, fun r => ih r (h.2 r)⟩
  | storageGet key next ih => exact ⟨hok _ h.1, fun r => ih r (h.2 r)⟩
  | storageDel key next ih => exact ⟨hok _ h.1, fun r => ih r (h.2 r)⟩
  | storagePairs next ih => exact ⟨hok _ h.1, fun r => ih r (h.2 r)⟩
  | election msg next ih => exact ⟨hok _ h.1, fun r => ih r (h.2 r)⟩
  | nowMs next ih => exact ⟨hok _ h.1, fun r => ih r (h.2 r)⟩
  | sendMessage host port msg next ih => exact ⟨hok _ h.1, fun r => ih r (h.2 r)⟩

theorem Every.continues (h : p.Every ok) {me : Int} {n n' : Node} {rest : Prog}
    {sent : List Packet} (hp : p.perform me n = .continues n' rest sent) : rest.Every ok := by
  cases p with
  | done reply => simp [perform] at hp
  | sendMessage host port msg next => simp [perform] at hp
  | markAlive nodeId next =>
    simp only [perform, Outcome.continues.injEq] at hp
    exact hp.2.1 ▸ h.2
  | storagePut key value next =>
    simp only [perform, Outcome.continues.injEq] at hp
    exact hp.2.1 ▸ h.2
  | storagePutBatch pairs next =>
    simp only [perform, Outcome.continues.injEq] at hp
    exact hp.2.1 ▸ h.2
  | sendAndForget packet next =>
    simp only [perform, Outcome.continues.injEq] at hp
    exact hp.2.1 ▸ h.2
  | _ =>
    simp only [perform, Outcome.continues.injEq] at hp
    exact hp.2.1 ▸ h.2 _

theorem Every.calls (h : p.Every ok) {me : Int} {n : Node} {host : Bytes} {port : Int}
    {msg : Message} {next : Option Message → Prog}
    (hp : p.perform me n = .calls host port msg next) :
    ok (.sendMessage host port msg next) ∧ ∀ r, (next r).Every ok := by
  cases p with
  | sendMessage host' port' msg' next' =>
    simp only [perform, Outcome.calls.injEq] at hp
    obtain ⟨rfl, rfl, rfl, rfl⟩ := hp
    exact h
  | _ => simp [perform] at hp

/-- A call leaves the ring alone or marks a node alive in it. -/
theorem perform_ring {me : Int} {n n' : Node} {rest : Prog} {sent : List Packet}
    (hp : p.perform me n = .continues n' rest sent) :
    n'.ring = n.ring ∨ ∃ id, n'.ring = n.ring.updateNodeStatus id true := by
  cases p with
  | done reply => simp [perform] at hp
  | sendMessage host port msg next => simp [perform] at hp
  | markAlive nodeId next =>
    simp only [perform, Outcome.continues.injEq] at hp
    rw [← hp.1, Node.markAlive]
    dsimp only
    split
    · exact Or.inr ⟨nodeId, rfl⟩
    · exact Or.inl rfl
  | _ =>
    simp only [perform, Outcome.continues.injEq] at hp
    exact Or.inl (hp.1 ▸ rfl)

end Prog
end DistributedDb
