import DistributedDb.Cluster.Machine

/-
Contracts of the nodes with each other.

A contract says which pairs a store may hold, which messages may be sent and what
the reply to a message may be.  A handler keeps it when everything it stores,
sends and replies is in the contract as long as what it reads is: the pairs of
the store and the replies of other nodes.  `Prog.Keeps` says this of a program,
one case for each call, like a weakest precondition with the reply as its
postcondition.

When every handler keeps a contract, every run of the machine does, over lost
and repeated packets, restarts from the log and transfers of whole stores.
-/

namespace DistributedDb

structure Contract where
  /-- A pair that a store may hold. -/
  pair : Bytes → Bytes → Prop
  /-- What the log of a node may look like. -/
  log : Bytes → Prop
  /-- A message that may be sent to a node. -/
  admits : Message → Prop
  /-- A reply that may be given to a message. -/
  answers : Message → Message → Prop

/-- The program keeps the contract and ends with a reply as in `goal`. -/
def Prog.Keeps (C : Contract) (goal : Message → Prop) : Prog → Prop
  | .done reply => goal reply
  | .markAlive _ next => next.Keeps C goal
  | .getPrimary _ next => ∀ p, (next p).Keeps C goal
  | .getReplicas _ _ next => ∀ replicas, (next replicas).Keeps C goal
  | .storagePut key value next => C.pair key value ∧ next.Keeps C goal
  | .storageGet key next => ∀ r, (∀ v, r = some v → C.pair key v) → (next r).Keeps C goal
  | .storageDel _ next => ∀ removed, (next removed).Keeps C goal
  | .storagePairs next =>
    ∀ pairs, (∀ p ∈ pairs, C.pair p.1 p.2) → (next pairs).Keeps C goal
  | .storagePutBatch pairs next => (∀ p ∈ pairs, C.pair p.1 p.2) ∧ next.Keeps C goal
  | .election _ next =>
    (next none).Keeps C goal ∧ ∀ me, (next (some (LeaderElection.ack me))).Keeps C goal
  | .nowMs next => ∀ now, (next now).Keeps C goal
  | .sendMessage _ _ msg next =>
    C.admits msg ∧ (next none).Keeps C goal ∧
      ∀ reply, C.answers msg reply → (next (some reply)).Keeps C goal
  | .sendAndForget packet next => C.admits packet.msg ∧ next.Keeps C goal

namespace Contract

open Coordinator

/-- The handlers keep the contract, and what the log holds is in it. -/
structure Lawful (C : Contract) : Prop where
  handled : ∀ i msg, C.admits msg → (onMessage i msg).Keeps C (C.answers msg)
  synced : ∀ i peer, (Replication.syncFromPeer i peer).Keeps C fun reply => reply = {}
  loggedPut : ∀ log key value now, C.log log → C.pair key value →
    C.log (log ++ Wal.format { op := .put, key := key, value := value } now)
  loggedDel : ∀ log key value now, C.log log → C.pair key value →
    C.log (log ++ Wal.format { op := .del, key := key, value := [] } now)
  recovered : ∀ log key value, C.log log → (Wal.recover ∅ log).lookup key = some value →
    C.pair key value

/-- The store of a node and its log are in the contract. -/
structure Holds (C : Contract) (e : StorageEngine) : Prop where
  store : ∀ key value, e.get key = some value → C.pair key value
  log : C.log e.log

variable {C : Contract}

/-! ## The storage engine -/

theorem log_appendWal_put (hC : C.Lawful) {e : StorageEngine} (hlog : C.log e.log)
    {key value : Bytes} (hpair : C.pair key value) (now : Int) :
    C.log (e.appendWal { op := .put, key := key, value := value } now).log := by
  unfold StorageEngine.appendWal
  split
  · exact hC.loggedPut _ key value now hlog hpair
  · exact hlog

theorem Holds.put (hC : C.Lawful) {e : StorageEngine} (he : C.Holds e) {key value : Bytes}
    (hpair : C.pair key value) (now : Int) : C.Holds (e.put key value now) where
  store k v hv := by
    rw [StorageEngine.get_put] at hv
    split at hv
    · rename_i hk
      rw [hk, ← Option.some.inj hv]
      exact hpair
    · exact he.store k v hv
  log := log_appendWal_put hC (e := { e with store := e.store.insert key value }) he.log hpair now

theorem Holds.del (hC : C.Lawful) {e : StorageEngine} (he : C.Holds e) (key : Bytes) (now : Int) :
    C.Holds (e.del key now).2 where
  store k v hv := by
    rw [StorageEngine.get_del] at hv
    split at hv
    · exact absurd hv (by simp)
    · exact he.store k v hv
  log := by
    unfold StorageEngine.del
    cases hlookup : e.store.lookup key with
    | none => exact he.log
    | some value =>
      -- A record is written for a key that was bound, so the key is in the contract.
      show C.log (StorageEngine.appendWal _ _ now).log
      unfold StorageEngine.appendWal
      split
      · exact hC.loggedDel _ key value now he.log (he.store key value hlookup)
      · exact he.log

theorem mem_of_lookup_insertAll {s : Store} {pairs : List (Bytes × Bytes)} {k v : Bytes}
    (h : (s.insertAll pairs).lookup k = some v) : (k, v) ∈ pairs ∨ s.lookup k = some v := by
  induction pairs generalizing s with
  | nil => exact Or.inr h
  | cons p rest ih =>
    rcases ih (s := s.insert p.1 p.2) h with hmem | hold
    · exact Or.inl (List.mem_cons_of_mem p hmem)
    · by_cases hk : k = p.1
      · subst hk
        rw [AList.lookup_insert, Option.some.injEq] at hold
        subst hold
        exact Or.inl List.mem_cons_self
      · rw [AList.lookup_insert_ne hk] at hold
        exact Or.inr hold

theorem log_appendBatch (hC : C.Lawful) {e : StorageEngine} (hlog : C.log e.log)
    {pairs : List (Bytes × Bytes)} (hpairs : ∀ p ∈ pairs, C.pair p.1 p.2) (now : Nat → Int) :
    C.log (e.appendBatch pairs now).log := by
  induction pairs generalizing e now with
  | nil => exact hlog
  | cons p rest ih =>
    exact ih (log_appendWal_put hC hlog (hpairs p List.mem_cons_self) (now 0))
      (fun q hq => hpairs q (List.mem_cons_of_mem p hq)) _

theorem Holds.putBatch (hC : C.Lawful) {e : StorageEngine} (he : C.Holds e)
    {pairs : List (Bytes × Bytes)} (hpairs : ∀ p ∈ pairs, C.pair p.1 p.2) (now : Nat → Int) :
    C.Holds (e.putBatch pairs now) where
  store k v hv := by
    rw [StorageEngine.get, StorageEngine.putBatch, StorageEngine.appendBatch_store] at hv
    rcases mem_of_lookup_insertAll hv with hmem | hold
    · exact hpairs (k, v) hmem
    · exact he.store k v hold
  log := log_appendBatch hC (e := { e with store := e.store.insertAll pairs }) he.log hpairs now

theorem holds_start (hC : C.Lawful) {log : Bytes} (hlog : C.log log) (opened : Bool) :
    C.Holds (StorageEngine.start log opened) where
  store key value hv := hC.recovered log key value hlog hv
  log := hlog

/-! ## One call -/

theorem keeps_finished {goal : Message → Prop} {p : Prog} (hp : p.Keeps C goal) {me : Int}
    {n : Node} {reply : Message} (hperf : p.perform me n = .finished reply) : goal reply := by
  cases p with
  | done r =>
    simp only [Prog.perform, Outcome.finished.injEq] at hperf
    exact hperf ▸ hp
  | _ => simp [Prog.perform] at hperf

theorem keeps_calls {goal : Message → Prop} {p : Prog} (hp : p.Keeps C goal) {me : Int} {n : Node}
    {host : Bytes} {port : Int} {msg : Message} {next : Option Message → Prog}
    (hperf : p.perform me n = .calls host port msg next) :
    C.admits msg ∧ (next none).Keeps C goal ∧
      ∀ reply, C.answers msg reply → (next (some reply)).Keeps C goal := by
  cases p with
  | sendMessage host' port' msg' next' =>
    simp only [Prog.perform, Outcome.calls.injEq] at hperf
    obtain ⟨rfl, rfl, rfl, rfl⟩ := hperf
    exact hp
  | _ => simp [Prog.perform] at hperf

theorem handleElection_reply (n : Node) (me : Int) (msg : Message) :
    (n.handleElection me msg).2 = none ∨
      (n.handleElection me msg).2 = some (LeaderElection.ack me) := by
  unfold Node.handleElection LeaderElection.handleMessage
  split
  · split
    · exact Or.inr rfl
    · exact Or.inl rfl
  · exact Or.inr rfl
  · exact Or.inl rfl
  · exact Or.inl rfl

/-- A call on the own node leaves its store in the contract, goes on in it, and
sends only what it admits. -/
theorem keeps_continues (hC : C.Lawful) {goal : Message → Prop} {p : Prog} (hp : p.Keeps C goal)
    {me : Int} {n : Node} (hn : C.Holds n.storage) {n' : Node} {rest : Prog} {sent : List Packet}
    (hperf : p.perform me n = .continues n' rest sent) :
    C.Holds n'.storage ∧ rest.Keeps C goal ∧ ∀ packet ∈ sent, C.admits packet.msg := by
  cases p with
  | done r => simp [Prog.perform] at hperf
  | sendMessage host port msg next => simp [Prog.perform] at hperf
  | markAlive nodeId next =>
    simp only [Prog.perform, Outcome.continues.injEq] at hperf
    obtain ⟨rfl, rfl, rfl⟩ := hperf
    exact ⟨hn, hp, by simp⟩
  | getPrimary key next =>
    simp only [Prog.perform, Outcome.continues.injEq] at hperf
    obtain ⟨rfl, rfl, rfl⟩ := hperf
    exact ⟨hn, hp _, by simp⟩
  | getReplicas key rf next =>
    simp only [Prog.perform, Outcome.continues.injEq] at hperf
    obtain ⟨rfl, rfl, rfl⟩ := hperf
    exact ⟨hn, hp _, by simp⟩
  | storagePut key value next =>
    simp only [Prog.perform, Outcome.continues.injEq] at hperf
    obtain ⟨rfl, rfl, rfl⟩ := hperf
    exact ⟨hn.put hC hp.1 _, hp.2, by simp⟩
  | storageGet key next =>
    simp only [Prog.perform, Outcome.continues.injEq] at hperf
    obtain ⟨rfl, rfl, rfl⟩ := hperf
    exact ⟨hn, hp _ (hn.store key), by simp⟩
  | storageDel key next =>
    simp only [Prog.perform, Outcome.continues.injEq] at hperf
    obtain ⟨rfl, rfl, rfl⟩ := hperf
    exact ⟨hn.del hC key _, hp _, by simp⟩
  | storagePairs next =>
    simp only [Prog.perform, Outcome.continues.injEq] at hperf
    obtain ⟨rfl, rfl, rfl⟩ := hperf
    refine ⟨hn, hp _ fun p hmem => hn.store p.1 p.2 ?_, by simp⟩
    exact StorageEngine.mem_getAllPairs.mp hmem
  | storagePutBatch pairs next =>
    simp only [Prog.perform, Outcome.continues.injEq] at hperf
    obtain ⟨rfl, rfl, rfl⟩ := hperf
    exact ⟨hn.putBatch hC hp.1 _, hp.2, by simp⟩
  | election msg next =>
    simp only [Prog.perform, Outcome.continues.injEq] at hperf
    obtain ⟨rfl, rfl, rfl⟩ := hperf
    refine ⟨hn, ?_, by simp⟩
    rcases handleElection_reply n me msg with hreply | hreply
    · rw [hreply]
      exact hp.1
    · rw [hreply]
      exact hp.2 me
  | nowMs next =>
    simp only [Prog.perform, Outcome.continues.injEq] at hperf
    obtain ⟨rfl, rfl, rfl⟩ := hperf
    exact ⟨hn, hp _, by simp⟩
  | sendAndForget packet next =>
    simp only [Prog.perform, Outcome.continues.injEq] at hperf
    obtain ⟨rfl, rfl, rfl⟩ := hperf
    refine ⟨hn, hp.2, fun q hq => ?_⟩
    rw [List.mem_singleton.mp hq]
    exact hp.1

/-! ## Runs -/

/-- Replies as in `goal` answer an admitted message, or they are the empty one with
which a transfer ends. -/
def Gives (C : Contract) (goal : Message → Prop) : Prop :=
  (∃ msg, C.admits msg ∧ ∀ reply, goal reply → C.answers msg reply) ∨
    ∀ reply, goal reply → reply = {}

/-- The callers of a program that ends with a reply as in `goal`: each one keeps the
contract with such a reply, and the last one answers the client. -/
def Returns (C : Contract) (origin : Option Message) : (Message → Prop) → List Caller → Prop
  | goal, [] => ∀ reply, goal reply → ∀ msg, origin = some msg → C.answers msg reply
  | goal, caller :: rest =>
    ∃ goal', (∀ reply, goal reply → (caller.next (some reply)).Keeps C goal') ∧
      C.Gives goal' ∧ Returns C origin goal' rest

def ThreadKeeps (C : Contract) (th : Thread) : Prop :=
  ∃ goal, th.prog.Keeps C goal ∧ C.Gives goal ∧ C.Returns th.origin goal th.callers

theorem gives_answers {msg : Message} (hmsg : C.admits msg) : C.Gives (C.answers msg) :=
  Or.inl ⟨msg, hmsg, fun _ h => h⟩

structure Inv (C : Contract) (m : Machine) : Prop where
  nodes : ∀ i, C.Holds (m.cluster.node i).storage
  packets : ∀ packet ∈ m.cluster.inFlight, C.admits packet.msg
  threads : ∀ t th, m.threads t = some th → C.ThreadKeeps th
  answered : ∀ t msg reply, .respond t msg reply ∈ m.trace → C.answers msg reply

/-- What clients and services send is admitted; anything else may happen. -/
def Allowed (C : Contract) : Action → Prop
  | .invoke _ msg => C.admits msg
  | .send packet => C.admits packet.msg
  | _ => True

theorem inv_runThread (hC : C.Lawful) {m : Machine} (h : C.Inv m) {t : Nat} {th : Thread}
    (ht : m.threads t = some th) : C.Inv (m.runThread t th) := by
  obtain ⟨goal, hprog, hgives, hreturns⟩ := h.threads t th ht
  unfold Machine.runThread
  cases hperf : th.prog.perform th.node (m.cluster.node th.node) with
  | finished reply =>
    have hreply := keeps_finished hprog hperf
    cases hcallers : th.callers with
    | nil =>
      rw [hcallers] at hreturns
      refine ⟨h.nodes, h.packets, Machine.threads_update h.threads (by simp), fun u msg r hr => ?_⟩
      rcases List.mem_append.mp hr with hr | hr
      · exact h.answered u msg r hr
      · cases horigin : th.origin with
        | none => simp [horigin, Machine.answer] at hr
        | some msg' =>
          simp only [horigin, Machine.answer, List.mem_singleton, Event.respond.injEq] at hr
          obtain ⟨-, rfl, rfl⟩ := hr
          exact hreturns r hreply msg horigin
    | cons caller rest =>
      rw [hcallers] at hreturns
      obtain ⟨goal', hcaller, hgives', hrest⟩ := hreturns
      refine ⟨h.nodes, h.packets, Machine.threads_update h.threads fun th' hth' => ?_, h.answered⟩
      rw [← Option.some.inj hth']
      exact ⟨goal', hcaller reply hreply, hgives', hrest⟩
  | continues n rest sent =>
    obtain ⟨hn, hrest, hsent⟩ := keeps_continues hC hprog (h.nodes th.node) hperf
    refine ⟨fun i => ?_, fun packet hp => ?_, Machine.threads_update h.threads fun th' hth' => ?_,
      fun u msg r hr => ?_⟩
    · show C.Holds (((m.cluster.setNode th.node n).send sent).node i).storage
      by_cases hi : i = th.node
      · rw [hi, Cluster.send_node, Cluster.setNode_node_self]
        exact hn
      · rw [Cluster.send_node, Cluster.setNode_node_of_ne _ n hi]
        exact h.nodes i
    · rcases List.mem_append.mp hp with hp | hp
      · exact h.packets packet hp
      · exact hsent packet hp
    · rw [← Option.some.inj hth']
      exact ⟨goal, hrest, hgives, hreturns⟩
    · rcases List.mem_append.mp hr with hr | hr
      · exact h.answered u msg r hr
      · exact absurd hr Machine.respond_notMem_label
  | calls host port msg next =>
    obtain ⟨hadmits, hnone, hsome⟩ := keeps_calls hprog hperf
    dsimp only
    cases m.cluster.listener host port with
    | none =>
      refine ⟨h.nodes, h.packets, Machine.threads_update h.threads fun th' hth' => ?_, h.answered⟩
      rw [← Option.some.inj hth']
      exact ⟨goal, hnone, hgives, hreturns⟩
    | some j =>
      refine ⟨h.nodes, h.packets, Machine.threads_update h.threads fun th' hth' => ?_, h.answered⟩
      rw [← Option.some.inj hth']
      exact ⟨_, hC.handled j msg hadmits, gives_answers hadmits, goal, hsome, hgives, hreturns⟩

/-- A thread starts, and packets may leave the network. -/
theorem Inv.spawn {m : Machine} (h : C.Inv m) {th : Thread} (hth : C.ThreadKeeps th)
    {m' : Machine} (hnodes : m'.cluster.node = m.cluster.node)
    (hpackets : ∀ packet ∈ m'.cluster.inFlight, packet ∈ m.cluster.inFlight)
    (hthreads : m'.threads = (m.spawn th).threads)
    (htrace : ∀ t msg reply, .respond t msg reply ∈ m'.trace →
      .respond t msg reply ∈ m.trace) : C.Inv m' where
  nodes i := by
    rw [hnodes]
    exact h.nodes i
  packets packet hp := h.packets packet (hpackets packet hp)
  threads t th' ht := by
    rw [hthreads] at ht
    exact Machine.threads_update h.threads (fun th'' hth'' => Option.some.inj hth'' ▸ hth) t th' ht
  answered t msg reply hr := h.answered t msg reply (htrace t msg reply hr)

theorem inv_step (hC : C.Lawful) {m m' : Machine} {a : Action} (ha : C.Allowed a) (h : C.Inv m)
    (hstep : m.step a = some m') : C.Inv m' := by
  cases a with
  | invoke i msg =>
    obtain rfl := Option.some.inj hstep
    have hreturns : C.Returns (some msg) (C.answers msg) [] := by
      intro reply hreply msg' hmsg'
      rwa [← Option.some.inj hmsg']
    have hth : C.ThreadKeeps
        { origin := some msg, node := i, prog := onMessage i msg, callers := [] } :=
      ⟨C.answers msg, hC.handled i msg ha, gives_answers ha, hreturns⟩
    refine h.spawn hth rfl (fun _ hp => hp) rfl fun t msg' reply hr => ?_
    rcases List.mem_append.mp hr with hr | hr
    · exact hr
    · exact absurd (List.mem_singleton.mp hr) (by simp)
  | run t =>
    obtain ⟨th, ht, rfl⟩ := Option.map_eq_some_iff.mp hstep
    exact inv_runThread hC h ht
  | deliver packet again =>
    obtain ⟨hmem, j, flight, -, hflight, rfl⟩ := Machine.exists_of_step_deliver hstep
    have hadmits := h.packets packet hmem
    exact h.spawn ⟨_, hC.handled j packet.msg hadmits, gives_answers hadmits, by simp [Returns]⟩ rfl
      hflight rfl fun _ _ _ hr => hr
  | lose packet =>
    obtain rfl := Option.some.inj hstep
    exact ⟨h.nodes, fun q hq => h.packets q (List.mem_of_mem_erase hq), h.threads, h.answered⟩
  | send packet =>
    obtain rfl := Option.some.inj hstep
    refine ⟨h.nodes, fun q hq => ?_, h.threads, h.answered⟩
    rcases List.mem_append.mp hq with hq | hq
    · exact h.packets q hq
    · rw [List.mem_singleton.mp hq]
      exact ha
  | tick i now =>
    obtain rfl := Option.some.inj hstep
    refine ⟨fun j => ?_, h.packets, h.threads, h.answered⟩
    show C.Holds ((m.cluster.setNode i _).node j).storage
    by_cases hj : j = i
    · rw [hj, Cluster.setNode_node_self]
      exact h.nodes i
    · rw [Cluster.setNode_node_of_ne _ _ hj]
      exact h.nodes j
  | restart self peers =>
    obtain rfl := Option.some.inj hstep
    refine ⟨fun j => ?_, h.packets, h.threads, h.answered⟩
    by_cases hj : j = self.id
    · rw [hj, Machine.restartNode_node]
      exact holds_start hC (h.nodes self.id).log true
    · rw [Machine.restartNode_node_of_ne _ peers hj]
      exact h.nodes j
  | sync i peer =>
    obtain rfl := Option.some.inj hstep
    have hgives : C.Gives fun reply => reply = {} := Or.inr fun _ hreply => hreply
    exact h.spawn ⟨_, hC.synced i peer, hgives, by simp [Returns]⟩ rfl (fun _ hp => hp) rfl
      fun _ _ _ hr => hr

theorem inv_idle {c : Cluster} (hnodes : ∀ i, C.Holds (c.node i).storage)
    (hidle : c.inFlight = []) : C.Inv (Machine.idle c) :=
  ⟨hnodes, by simp [Machine.idle, hidle], by simp [Machine.idle], by simp [Machine.idle]⟩

/-- A lawful contract is kept in every run. -/
theorem inv_run (hC : C.Lawful) {c : Cluster} (hnodes : ∀ i, C.Holds (c.node i).storage)
    (hidle : c.inFlight = []) {actions : List Action} (hallowed : ∀ a ∈ actions, C.Allowed a)
    {m : Machine} (hrun : Runs.exec Machine.step (Machine.idle c) actions = some m) : C.Inv m :=
  Runs.exec_invariant (fun _ _ _ ha h hstep => inv_step hC ha h hstep) (inv_idle hnodes hidle)
    hallowed hrun

/-- The messages that the threads exchange: what is given to `send_message` is
admitted, and what a handler returns answers an admitted message. -/
theorem Inv.exchanged {m : Machine} (h : C.Inv m) {t : Nat} {th : Thread}
    (ht : m.threads t = some th) :
    (∀ host port msg next, th.prog = .sendMessage host port msg next → C.admits msg) ∧
    ∀ reply, th.prog = .done reply →
      (∃ msg, C.admits msg ∧ C.answers msg reply) ∨ reply = {} := by
  obtain ⟨goal, hprog, hgives, -⟩ := h.threads t th ht
  constructor
  · intro host port msg next heq
    rw [heq] at hprog
    exact hprog.1
  · intro reply heq
    rw [heq] at hprog
    rcases hgives with ⟨msg, hmsg, hanswers⟩ | hempty
    · exact Or.inl ⟨msg, hmsg, hanswers reply hprog⟩
    · exact Or.inr (hempty reply hprog)

/-! ## The handlers

What a contract has to provide for the handlers to keep it. -/

/-- The obligations of a contract, one for each reply and message that a handler
makes. -/
structure Terms (C : Contract) : Prop where
  /-- What is stored on behalf of a message is in it. -/
  put : ∀ msg, C.admits msg → msg.type = .put → C.pair msg.key msg.value
  replicate : ∀ msg, C.admits msg → msg.type = .replicate → msg.error ≠ ascii "DEL" →
    C.pair msg.key msg.value
  syncData : ∀ msg, C.admits msg → msg.type = .syncData → ∀ p ∈ msg.kvPairs, C.pair p.1 p.2
  /-- The copies of an executed write. -/
  copyPut : ∀ me msg now, C.admits msg → msg.type = .put →
    C.admits (Replication.replicateMsg me msg.key msg.value .put now)
  copyDel : ∀ me msg now, C.admits msg → msg.type = .del →
    C.admits (Replication.replicateMsg me msg.key [] .del now)
  syncRequest : ∀ me, C.admits { type := .syncRequest, nodeId := me }
  /-- The replies. -/
  found : ∀ me msg value, C.admits msg → msg.type = .get → C.pair msg.key value →
    C.answers msg (makeAck me true value)
  done : ∀ me msg, C.admits msg → msg.type ∉ [.get, .syncRequest, .ack, .unknown] →
    C.answers msg (makeAck me true [])
  missing : ∀ me msg, C.admits msg → msg.type = .get ∨ msg.type = .del →
    C.answers msg (makeError me (ascii "Key not found: " ++ msg.key))
  unavailable : ∀ me msg, C.admits msg → msg.IsRequest →
    C.answers msg (makeError me (ascii "All nodes for key unavailable")) ∧
      C.answers msg (makeError me (ascii "No available node for key: " ++ msg.key))
  unknown : ∀ me msg, C.admits msg → msg.type = .ack ∨ msg.type = .unknown →
    C.answers msg (makeError me (ascii "Unknown message type"))
  synced : ∀ me msg pairs, msg.type = .syncRequest → (∀ p ∈ pairs, C.pair p.1 p.2) →
    C.answers msg { type := .syncData, nodeId := me, kvPairs := pairs, success := true }
  snapshot : ∀ me reply, C.answers { type := .syncRequest, nodeId := me } reply →
    ∀ p ∈ reply.kvPairs, C.pair p.1 p.2

section Handlers

variable (hT : C.Terms) {me : Int} {msg : Message} (hmsg : C.admits msg)

theorem keeps_sendAll {repl : Message} (hrepl : C.admits repl) {goal : Message → Prop}
    {next : Prog} (hnext : next.Keeps C goal) (replicas : List NodeInfo) :
    (Replication.sendAll me repl next replicas).Keeps C goal := by
  induction replicas with
  | nil => exact hnext
  | cons r rest ih =>
    rw [Replication.sendAll]
    split
    · exact ih
    · exact ⟨hrepl, ih⟩

theorem keeps_replicate {key value : Bytes} {op : MsgType}
    (hrepl : ∀ now, C.admits (Replication.replicateMsg me key value op now))
    {goal : Message → Prop} {next : Prog} (hnext : next.Keeps C goal)
    (replicas : List NodeInfo) :
    (Replication.replicate me key value op replicas next).Keeps C goal :=
  fun now => keeps_sendAll (hrepl now) hnext replicas

include hT hmsg

theorem keeps_lastResort (hreq : msg.IsRequest) :
    (lastResort me msg).Keeps C (C.answers msg) := by
  have hunavailable := (hT.unavailable me msg hmsg hreq).1
  rw [lastResort]
  split
  · rename_i hget
    intro r hr
    cases r with
    | none => exact hunavailable
    | some v => exact hT.found me msg v hmsg hget (hr v rfl)
  · exact hunavailable

theorem keeps_tryReplicas (hreq : msg.IsRequest) (target : Int) (replicas : List NodeInfo) :
    (tryReplicas me target msg replicas).Keeps C (C.answers msg) := by
  induction replicas with
  | nil => exact keeps_lastResort hT hmsg hreq
  | cons r rest ih =>
    rw [tryReplicas]
    split
    · exact ih
    · split
      · split
        · rename_i hget
          intro val hval
          cases val with
          | none => exact ih
          | some v => exact hT.found me msg v hmsg hget (hval v rfl)
        · exact ih
      · refine ⟨hmsg, ih, fun reply hreply => ?_⟩
        dsimp only
        split
        · exact hreply
        · exact ih

theorem keeps_route (hreq : msg.IsRequest) {execute : Prog}
    (hexecute : execute.Keeps C (C.answers msg)) :
    (route me msg execute).Keeps C (C.answers msg) := by
  intro primary
  cases primary with
  | none => exact (hT.unavailable me msg hmsg hreq).2
  | some p =>
    dsimp only
    split
    · exact hexecute
    · exact ⟨hmsg, fun replicas => keeps_tryReplicas hT hmsg hreq p.id replicas, fun _ h => h⟩

theorem keeps_executePut (hput : msg.type = .put) :
    (executePut me msg).Keeps C (C.answers msg) := by
  refine ⟨hT.put msg hmsg hput, fun replicas => ?_⟩
  refine keeps_replicate (fun now => hT.copyPut me msg now hmsg hput) ?_ replicas
  exact hT.done me msg hmsg (by simp [hput])

theorem keeps_executeGet (hget : msg.type = .get) :
    (executeGet me msg).Keeps C (C.answers msg) := by
  intro val hval
  cases val with
  | none => exact hT.missing me msg hmsg (Or.inl hget)
  | some v => exact hT.found me msg v hmsg hget (hval v rfl)

theorem keeps_executeDelete (hdel : msg.type = .del) :
    (executeDelete me msg).Keeps C (C.answers msg) := by
  intro removed
  cases removed with
  | false => exact hT.missing me msg hmsg (Or.inr hdel)
  | true =>
    refine fun replicas =>
      keeps_replicate (fun now => hT.copyDel me msg now hmsg hdel) ?_ replicas
    exact hT.done me msg hmsg (by simp [hdel])

theorem keeps_handleReplicate (hrepl : msg.type = .replicate) :
    (Replication.handleReplicate me msg).Keeps C (C.answers msg) := by
  have hdone := hT.done me msg hmsg (by simp [hrepl])
  rw [Replication.handleReplicate]
  split
  · exact fun _ => hdone
  · rename_i herror
    exact ⟨hT.replicate msg hmsg hrepl herror, hdone⟩

theorem keeps_handle : (handle me msg).Keeps C (C.answers msg) := by
  rw [handle]
  cases htype : msg.type with
  | put => exact keeps_route hT hmsg (Or.inl htype) (keeps_executePut hT hmsg htype)
  | get => exact keeps_route hT hmsg (Or.inr (Or.inl htype)) (keeps_executeGet hT hmsg htype)
  | del => exact keeps_route hT hmsg (Or.inr (Or.inr htype)) (keeps_executeDelete hT hmsg htype)
  | replicate => exact keeps_handleReplicate hT hmsg htype
  | syncRequest => exact fun pairs hpairs => hT.synced me msg pairs htype hpairs
  | syncData =>
    have hdone := hT.done me msg hmsg (by simp [htype])
    show (Replication.handleSyncData msg _).Keeps C _
    rw [Replication.handleSyncData]
    split
    · exact hdone
    · exact ⟨hT.syncData msg hmsg htype, hdone⟩
  | heartbeat => exact hT.done me msg hmsg (by simp [htype])
  | election | leader =>
    exact ⟨hT.done me msg hmsg (by simp [htype]),
      fun other => hT.done other msg hmsg (by simp [htype])⟩
  | ack => exact hT.unknown me msg hmsg (Or.inl htype)
  | unknown => exact hT.unknown me msg hmsg (Or.inr htype)

end Handlers

theorem keeps_syncFromPeer (hT : C.Terms) (me : Int) (peer : NodeInfo) :
    (Replication.syncFromPeer me peer).Keeps C fun reply => reply = {} := by
  refine ⟨hT.syncRequest me, rfl, fun reply hreply => ?_⟩
  dsimp only
  split
  · exact rfl
  · rw [Replication.handleSyncData]
    split
    · exact rfl
    · exact ⟨hT.snapshot me reply hreply, rfl⟩

/-- A contract whose terms hold and whose logs hold nothing else is lawful. -/
theorem Terms.lawful (hT : C.Terms)
    (loggedPut : ∀ log key value now, C.log log → C.pair key value →
      C.log (log ++ Wal.format { op := .put, key := key, value := value } now))
    (loggedDel : ∀ log key value now, C.log log → C.pair key value →
      C.log (log ++ Wal.format { op := .del, key := key, value := [] } now))
    (recovered : ∀ log key value, C.log log → (Wal.recover ∅ log).lookup key = some value →
      C.pair key value) : C.Lawful where
  handled _ _ hmsg := keeps_handle hT hmsg
  synced me peer := keeps_syncFromPeer hT me peer
  loggedPut := loggedPut
  loggedDel := loggedDel
  recovered := recovered

end Contract
end DistributedDb
