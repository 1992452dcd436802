import DistributedDb.Node.Election

/-
Leader election over a network that delays, reorders, repeats and loses messages,
between nodes that crash and restart.

The threads and their accesses are those of `Task`.  A message that has been sent
stays in flight until it is delivered, which may happen again, or lost.  The
exchange of an `ELECTION` message has two outcomes: the receiver handles it and
its acknowledgement comes back, or the sender gives up and the message is still on
its way.  A node that crashes takes its threads with it, and a node that restarts
has the atomics of the constructor and a round of its own to come.
-/

namespace DistributedDb
namespace Election

deriving instance DecidableEq for Task

namespace Net

inductive Action where
  /-- Thread `t` makes its next access; an exchange is given up. -/
  | run (t : Nat)
  /-- The exchange of thread `t` is answered. -/
  | answer (t : Nat)
  /-- A message arrives, and may arrive again. -/
  | deliver (j : Int) (msg : Message) (again : Bool)
  | lose (j : Int) (msg : Message)
  /-- Somebody calls `trigger_election` on node `i`. -/
  | trigger (i : Int)
  /-- The failure detector of node `i` calls `on_node_failure`. -/
  | notice (i nodeId : Int)
  | crash (i : Int)
  | restart (i : Int)
  deriving DecidableEq

/-- The request of an exchange. -/
def request (me : Int) : Task → List (Int × Message)
  | .exchange term _ (n :: _) => [(n.id, electionMsg me term)]
  | _ => []

/-- A thread makes an access on its own node, and what it sends is in flight. -/
def runTask (s : State) (t : Nat) (i : Int) (task : Task) : State :=
  let effect := task.perform i (s.node i)
  let s' := { (s.setNode i effect.node).setThread t (effect.task.map fun task' => (i, task')) with
    flight := s.flight ++ (request i task ++ effect.sent) }
  match effect.spawned with
  | none => s'
  | some task' => s'.spawn i task'

/-- The exchange of thread `t` on node `i` with the first of its higher nodes. -/
def answered (s : State) (t : Nat) (i term : Int) (acked : Bool) (n : NodeInfo)
    (rest : List NodeInfo) : State :=
  let p := s.answerElection i n.id term
  p.1.setThread t
    (some (i, if p.2.type = .ack then .storeAck term rest else .exchange term acked rest))

/-- What a delivered message does on node `j`. -/
def receive (s : State) (j : Int) (msg : Message) : State :=
  match msg.type with
  | .leader => s.spawn j (.testLeader msg)
  | .election =>
    let p := (s.node j).handleMessage j msg
    if p.2.2 then (s.setNode j p.1).spawn j .trigger else s.setNode j p.1
  | _ => s

/-- Node `i` stops, and its threads with it. -/
def dropThreads (s : State) (i : Int) : State :=
  { s with threads := fun t => (s.threads t).filter fun th => decide (th.1 ≠ i) }

/-- The atomics of a node whose `start` has been called. -/
def fresh (allNodes : List NodeInfo) : LeaderElection :=
  { LeaderElection.start allNodes with running := true }

/-- Messages in flight are told apart by their receiver and their fields. -/
local instance lawfulBEq_flight : LawfulBEq (Int × Message) := inferInstance

def step (s : State) : Action → Option State
  | .run t => (s.threads t).map fun th => runTask s t th.1 th.2
  | .answer t =>
    match s.threads t with
    | some (i, .exchange term acked (n :: rest)) =>
      if s.up n.id then some (answered s t i term acked n rest) else none
    | _ => none
  | .deliver j msg again =>
    if (j, msg) ∈ s.flight ∧ s.up j = true then
      some { receive s j msg with flight := if again then s.flight else s.flight.erase (j, msg) }
    else none
  | .lose j msg =>
    if (j, msg) ∈ s.flight then some { s with flight := s.flight.erase (j, msg) } else none
  | .trigger i => if s.up i then some (s.spawn i .trigger) else none
  | .notice i nodeId => if s.up i then some (s.spawn i (.onNodeFailure nodeId)) else none
  | .crash i => some { dropThreads s i with up := Function.update s.up i false }
  | .restart i =>
    let s' := (dropThreads s i).setNode i (fresh (s.node i).allNodes)
    some { s'.spawn i .trigger with up := Function.update s.up i true }

/-- The nodes as they are started, with none of their rounds begun. -/
def launch (allNodes : List NodeInfo) (up : Int → Bool) : State :=
  { up := up
    node := fun _ => fresh allNodes
    threads := fun _ => none
    next := 0
    flight := [] }

/-! ## What one access does -/

section Perform

variable (me : Int) (e : LeaderElection) (task : Task)

theorem currentLeaderId_perform :
    (task.perform me e).node.currentLeaderId =
      match task with
      | .becomeLeader => me
      | .storeLeader msg => msg.nodeId
      | _ => e.currentLeaderId := by
  cases task with
  | trigger =>
    simp only [Task.perform]
    split <;> rfl
  | exchange term acked higher => cases higher <;> rfl
  | _ => rfl

theorem electionTerm_perform :
    (task.perform me e).node.electionTerm =
      match task with
      | .nextTerm => LeaderElection.nextTerm e.electionTerm
      | .storeTerm msg => msg.term
      | _ => e.electionTerm := by
  cases task with
  | trigger =>
    simp only [Task.perform]
    split <;> rfl
  | exchange term acked higher => cases higher <;> rfl
  | _ => rfl

theorem gotHigherAck_perform :
    (task.perform me e).node.gotHigherAck =
      match task with
      | .resetAck _ => false
      | .storeAck _ _ => true
      | _ => e.gotHigherAck := by
  cases task with
  | trigger =>
    simp only [Task.perform]
    split <;> rfl
  | exchange term acked higher => cases higher <;> rfl
  | _ => rfl

theorem allNodes_perform : (task.perform me e).node.allNodes = e.allNodes := by
  cases task with
  | trigger =>
    simp only [Task.perform]
    split <;> rfl
  | exchange term acked higher => cases higher <;> rfl
  | _ => rfl

variable {me e task}

/-- Only the entry of a round raises the guard. -/
theorem electionInProgress_perform
    (h : (task.perform me e).node.electionInProgress = true) :
    e.electionInProgress = true ∨ (task = .trigger ∧ e.running = true) := by
  cases task with
  | trigger =>
    by_cases hrunning : e.running = true
    · exact Or.inr ⟨rfl, hrunning⟩
    · simp only [Task.perform, hrunning, true_or, if_true] at h
      exact Or.inl h
  | exchange term acked higher => cases higher <;> exact Or.inl h
  | _ => simp_all [Task.perform]

/-- Only a round that has been won announces anything. -/
theorem sent_perform (h : task ≠ .broadcastLeader) : (task.perform me e).sent = [] := by
  cases task with
  | trigger =>
    simp only [Task.perform]
    split <;> rfl
  | exchange term acked higher => cases higher <;> rfl
  | broadcastLeader => exact absurd rfl h
  | _ => rfl

/-- A thread that asks another node goes on. -/
theorem request_of_ends (h : (task.perform me e).task = none) : request me task = [] := by
  cases task with
  | exchange term acked higher => cases higher <;> exact absurd h (by simp [Task.perform])
  | _ => rfl

/-- Only a thread that has been answered starts a thread, its timer. -/
theorem spawned_perform {task' : Task} (h : (task.perform me e).spawned = some task') :
    ∃ term, task = .startTimer term ∧ task' = .timer term := by
  cases task with
  | trigger =>
    simp only [Task.perform] at h
    split at h <;> exact absurd h (by simp)
  | exchange term acked higher => cases higher <;> exact absurd h (by simp [Task.perform])
  | startTimer term => exact ⟨term, rfl, (Option.some.inj h).symm⟩
  | _ => exact absurd h (by simp [Task.perform])

/-- Where a thread goes with an access on the node `me` that holds `e`. -/
inductive Continues (me : Int) (e : LeaderElection) : Task → Task → Prop
  | onNodeFailure : Continues me e (.onNodeFailure e.currentLeaderId) .trigger
  | trigger (hrunning : e.running = true) (hidle : e.electionInProgress = false) :
    Continues me e .trigger .nextTerm
  | nextTerm : Continues me e .nextTerm (.resetAck (LeaderElection.nextTerm e.electionTerm))
  | resetAck {term : Int} : Continues me e (.resetAck term) (.collect term)
  | collect {term : Int} : Continues me e (.collect term) (.exchange term false (e.higherNodes me))
  | exchange {term : Int} {acked : Bool} {n : NodeInfo} {rest : List NodeInfo} :
    Continues me e (.exchange term acked (n :: rest)) (.exchange term acked rest)
  | exchanged {term : Int} {acked : Bool} :
    Continues me e (.exchange term acked []) (.testAck term acked)
  | storeAck {term : Int} {rest : List NodeInfo} :
    Continues me e (.storeAck term rest) (.exchange term true rest)
  | waits {term : Int} {acked : Bool} (hack : e.gotHigherAck = true) :
    Continues me e (.testAck term acked) (.startTimer term)
  | leads {term : Int} {acked : Bool} (hack : e.gotHigherAck = false) :
    Continues me e (.testAck term acked) .becomeLeader
  | becomeLeader : Continues me e .becomeLeader .endRound
  | endRound : Continues me e .endRound .broadcastLeader
  | startTimer {term : Int} : Continues me e (.startTimer term) .standBack
  | timer {term : Int} (hbusy : e.electionInProgress = true) :
    Continues me e (.timer term) (.timerTerm term)
  | timerTerm : Continues me e (.timerTerm e.electionTerm) .timerRetry
  | timerRetry : Continues me e .timerRetry .trigger
  | higherId {msg : Message} (hid : e.currentLeaderId < msg.nodeId) :
    Continues me e (.testLeader msg) (.storeLeader msg)
  | lowerId {msg : Message} : Continues me e (.testLeader msg) (.testTerm msg)
  | newerTerm {msg : Message} (hterm : e.electionTerm < msg.term) :
    Continues me e (.testTerm msg) (.storeLeader msg)
  | storeLeader {msg : Message} : Continues me e (.storeLeader msg) (.storeTerm msg)
  | storeTerm {msg : Message} : Continues me e (.storeTerm msg) (.clearProgress msg)
  | clearProgress {msg : Message} : Continues me e (.clearProgress msg) (.noteAlive msg)

theorem continues_of_perform {task' : Task} (h : (task.perform me e).task = some task') :
    Continues me e task task' := by
  cases task with
  | onNodeFailure nodeId =>
    simp only [Task.perform] at h
    split at h
    · rename_i hleader
      exact hleader ▸ Option.some.inj h ▸ .onNodeFailure
    · exact absurd h (by simp)
  | trigger =>
    simp only [Task.perform] at h
    split at h
    · exact absurd h (by simp)
    · rename_i hstart
      simp only [not_or, Bool.not_eq_false, Bool.not_eq_true] at hstart
      exact Option.some.inj h ▸ .trigger hstart.1 hstart.2
  | exchange term acked higher =>
    cases higher with
    | nil => exact Option.some.inj h ▸ .exchanged
    | cons n rest => exact Option.some.inj h ▸ .exchange
  | testAck term acked =>
    simp only [Task.perform] at h
    split at h
    · exact Option.some.inj h ▸ .waits ‹_›
    · rename_i hack
      exact Option.some.inj h ▸ .leads (Bool.not_eq_true _ ▸ hack)
  | timer term =>
    simp only [Task.perform] at h
    split at h
    · exact Option.some.inj h ▸ .timer ‹_›
    · exact absurd h (by simp)
  | timerTerm term =>
    simp only [Task.perform] at h
    split at h
    · rename_i hterm
      exact hterm ▸ Option.some.inj h ▸ .timerTerm
    · exact absurd h (by simp)
  | testLeader msg =>
    simp only [Task.perform] at h
    split at h
    · exact Option.some.inj h ▸ .higherId ‹_›
    · exact Option.some.inj h ▸ .lowerId
  | testTerm msg =>
    simp only [Task.perform] at h
    split at h
    · exact Option.some.inj h ▸ .newerTerm ‹_›
    · exact absurd h (by simp)
  | nextTerm => exact Option.some.inj h ▸ .nextTerm
  | resetAck term => exact Option.some.inj h ▸ .resetAck
  | collect term => exact Option.some.inj h ▸ .collect
  | storeAck term rest => exact Option.some.inj h ▸ .storeAck
  | becomeLeader => exact Option.some.inj h ▸ .becomeLeader
  | endRound => exact Option.some.inj h ▸ .endRound
  | startTimer term => exact Option.some.inj h ▸ .startTimer
  | timerRetry => exact Option.some.inj h ▸ .timerRetry
  | storeLeader msg => exact Option.some.inj h ▸ .storeLeader
  | storeTerm msg => exact Option.some.inj h ▸ .storeTerm
  | clearProgress msg => exact Option.some.inj h ▸ .clearProgress
  | _ => exact absurd h (by simp [Task.perform])

end Perform

/-! ## What one step does -/

/-- An `ELECTION` message is acknowledged, notes its sender as alive, and starts a
round on a node with a higher id. -/
theorem handleMessage_election (j : Int) (e : LeaderElection) {msg : Message}
    (h : msg.type = .election) :
    (e.handleMessage j msg).1 = { e with nodeAlive := e.nodeAlive.insert msg.nodeId true } ∧
      (e.handleMessage j msg).2.1 =
        (if msg.nodeId < j then some (LeaderElection.ack j) else none) ∧
      (e.handleMessage j msg).2.2 = decide (msg.nodeId < j) := by
  simp only [LeaderElection.handleMessage, h]
  split <;> simp [*]

theorem type_answerElection (s : State) (i j term : Int) :
    (s.answerElection i j term).2.type = .ack := by
  obtain ⟨-, hreply, -⟩ := handleMessage_election j (s.node j)
    (show (electionMsg i term).type = .election from rfl)
  show (((s.node j).handleMessage j (electionMsg i term)).2.1.getD _).type = .ack
  rw [hreply]
  split <;> rfl

/-- Node `j` notes that `nodeId` is alive. -/
def noteAlive (s : State) (j nodeId : Int) : State :=
  s.setNode j { s.node j with nodeAlive := (s.node j).nodeAlive.insert nodeId true }

/-- Node `j` handles an `ELECTION` message of `nodeId`. -/
def handleElection (s : State) (j nodeId : Int) : State :=
  if nodeId < j then (noteAlive s j nodeId).spawn j .trigger else noteAlive s j nodeId

theorem next_le_handleElection (s : State) (j nodeId : Int) :
    s.next ≤ (handleElection s j nodeId).next := by
  unfold handleElection
  split
  · exact Nat.le_succ _
  · exact le_refl _

theorem flight_handleElection (s : State) (j nodeId : Int) :
    (handleElection s j nodeId).flight = s.flight := by
  unfold handleElection
  split <;> rfl

theorem answered_eq (s : State) (t : Nat) (i term : Int) (acked : Bool) (n : NodeInfo)
    (rest : List NodeInfo) :
    answered s t i term acked n rest =
      (handleElection s n.id i).setThread t (some (i, .storeAck term rest)) := by
  have hmsg := handleMessage_election n.id (s.node n.id)
    (show (electionMsg i term).type = .election from rfl)
  have hstate : (s.answerElection i n.id term).1 = handleElection s n.id i := by
    simp only [State.answerElection, hmsg.1, hmsg.2.2, handleElection, noteAlive,
      decide_eq_true_eq]
    rfl
  simp only [answered, type_answerElection, if_true, hstate]

theorem receive_leader (s : State) (j : Int) {msg : Message} (h : msg.type = .leader) :
    receive s j msg = s.spawn j (.testLeader msg) := by
  simp only [receive, h]

theorem receive_election (s : State) (j : Int) {msg : Message} (h : msg.type = .election) :
    receive s j msg = handleElection s j msg.nodeId := by
  have hmsg := handleMessage_election j (s.node j) h
  simp only [receive, h, hmsg.1, hmsg.2.2, handleElection, noteAlive, decide_eq_true_eq]

theorem receive_other (s : State) (j : Int) {msg : Message} (hl : msg.type ≠ .leader)
    (he : msg.type ≠ .election) : receive s j msg = s := by
  unfold receive
  split
  · exact absurd ‹_› hl
  · exact absurd ‹_› he
  · rfl

theorem node_runTask (s : State) (t : Nat) (i : Int) (task : Task) :
    (runTask s t i task).node = Function.update s.node i (task.perform i (s.node i)).node := by
  unfold runTask
  dsimp only
  split <;> rfl

theorem flight_runTask (s : State) (t : Nat) (i : Int) (task : Task) :
    (runTask s t i task).flight =
      s.flight ++ (request i task ++ (task.perform i (s.node i)).sent) := by
  unfold runTask
  dsimp only
  split <;> rfl

theorem threads_runTask (s : State) (t : Nat) (i : Int) (task : Task) :
    (runTask s t i task).threads =
      match (task.perform i (s.node i)).spawned with
      | none => Function.update s.threads t
          ((task.perform i (s.node i)).task.map fun task' => (i, task'))
      | some spawned => Function.update (Function.update s.threads t
          ((task.perform i (s.node i)).task.map fun task' => (i, task'))) s.next
          (some (i, spawned)) := by
  unfold runTask
  dsimp only
  split <;> rfl

/-- Where a thread comes from after an access of thread `t`. -/
theorem origin_runTask {s : State} {t t' : Nat} {i j : Int} {task task' : Task}
    (h : (runTask s t i task).threads t' = some (j, task')) :
    (t' ≠ t ∧ s.threads t' = some (j, task')) ∨
      (j = i ∧ ((task.perform i (s.node i)).task = some task' ∨
        (task.perform i (s.node i)).spawned = some task')) := by
  have hown : Function.update s.threads t
      ((task.perform i (s.node i)).task.map fun task' => (i, task')) t' = some (j, task') →
      (t' ≠ t ∧ s.threads t' = some (j, task')) ∨
        (j = i ∧ ((task.perform i (s.node i)).task = some task' ∨
          (task.perform i (s.node i)).spawned = some task')) := by
    intro h
    by_cases ht : t' = t
    · subst ht
      rw [Function.update_self] at h
      obtain ⟨task'', htask, heq⟩ := Option.map_eq_some_iff.mp h
      obtain ⟨rfl, rfl⟩ := Prod.mk.inj heq
      exact Or.inr ⟨rfl, Or.inl htask⟩
    · rw [Function.update_of_ne ht] at h
      exact Or.inl ⟨ht, h⟩
  rw [threads_runTask] at h
  split at h
  · exact hown h
  · rename_i spawned hspawned
    by_cases hnext : t' = s.next
    · rw [hnext, Function.update_self] at h
      obtain ⟨rfl, rfl⟩ := Prod.mk.inj (Option.some.inj h)
      exact Or.inr ⟨rfl, Or.inr hspawned⟩
    · rw [Function.update_of_ne hnext] at h
      exact hown h

/-- The steps, with what they need and what they leave. -/
inductive Steps (s : State) : Action → State → Prop
  | run {t : Nat} {i : Int} {task : Task} (hthread : s.threads t = some (i, task)) :
    Steps s (.run t) (runTask s t i task)
  | answer {t : Nat} {i term : Int} {acked : Bool} {n : NodeInfo} {rest : List NodeInfo}
      (hthread : s.threads t = some (i, .exchange term acked (n :: rest)))
      (hup : s.up n.id = true) :
    Steps s (.answer t)
      ((handleElection s n.id i).setThread t (some (i, .storeAck term rest)))
  | leader {j : Int} {msg : Message} {again : Bool} (hmem : (j, msg) ∈ s.flight)
      (htype : msg.type = .leader) :
    Steps s (.deliver j msg again) { s.spawn j (.testLeader msg) with
      flight := if again then s.flight else s.flight.erase (j, msg) }
  | election {j : Int} {msg : Message} {again : Bool} (hmem : (j, msg) ∈ s.flight)
      (htype : msg.type = .election) :
    Steps s (.deliver j msg again) { handleElection s j msg.nodeId with
      flight := if again then s.flight else s.flight.erase (j, msg) }
  | other {j : Int} {msg : Message} {again : Bool} (hmem : (j, msg) ∈ s.flight)
      (hleader : msg.type ≠ .leader) (helection : msg.type ≠ .election) :
    Steps s (.deliver j msg again) { s with
      flight := if again then s.flight else s.flight.erase (j, msg) }
  | lose {j : Int} {msg : Message} (hmem : (j, msg) ∈ s.flight) :
    Steps s (.lose j msg) { s with flight := s.flight.erase (j, msg) }
  | trigger {i : Int} : Steps s (.trigger i) (s.spawn i .trigger)
  | notice {i nodeId : Int} : Steps s (.notice i nodeId) (s.spawn i (.onNodeFailure nodeId))
  | crash {i : Int} :
    Steps s (.crash i) { dropThreads s i with up := Function.update s.up i false }
  | restart {i : Int} :
    Steps s (.restart i)
      { ((dropThreads s i).setNode i (fresh (s.node i).allNodes)).spawn i .trigger with
        up := Function.update s.up i true }

theorem step_cases {s s' : State} {a : Action} (h : step s a = some s') : Steps s a s' := by
  cases a with
  | run t =>
    obtain ⟨th, hth, rfl⟩ := Option.map_eq_some_iff.mp h
    exact .run hth
  | answer t =>
    unfold step at h
    dsimp only at h
    split at h
    · rename_i i term acked n rest hthread
      split at h
      · rename_i hup
        rw [answered_eq] at h
        exact Option.some.inj h ▸ .answer hthread hup
      · exact absurd h (by simp)
    · exact absurd h (by simp)
  | deliver j msg again =>
    unfold step at h
    dsimp only at h
    split at h
    · rename_i hmem
      obtain rfl := Option.some.inj h
      by_cases hleader : msg.type = .leader
      · rw [receive_leader s j hleader]
        exact .leader hmem.1 hleader
      · by_cases helection : msg.type = .election
        · rw [receive_election s j helection]
          exact .election hmem.1 helection
        · rw [receive_other s j hleader helection]
          exact .other hmem.1 hleader helection
    · exact absurd h (by simp)
  | lose j msg =>
    unfold step at h
    dsimp only at h
    split at h
    · exact Option.some.inj h ▸ .lose ‹_›
    · exact absurd h (by simp)
  | trigger i =>
    unfold step at h
    dsimp only at h
    split at h
    · exact Option.some.inj h ▸ .trigger
    · exact absurd h (by simp)
  | notice i nodeId =>
    unfold step at h
    dsimp only at h
    split at h
    · exact Option.some.inj h ▸ .notice
    · exact absurd h (by simp)
  | crash i => exact Option.some.inj h ▸ .crash
  | restart i => exact Option.some.inj h ▸ .restart

/-! ## New names for new threads -/

/-- No thread has a name that is still to be given. -/
def Fresh (s : State) : Prop := ∀ t, s.next ≤ t → s.threads t = none

namespace Fresh

variable {s s' : State} {a : Action}

theorem lt (h : Fresh s) {t : Nat} {th : Int × Task} (ht : s.threads t = some th) : t < s.next := by
  by_contra hge
  rw [h t (by omega)] at ht
  exact absurd ht (by simp)

theorem congr (h : Fresh s) (hnext : s'.next = s.next) (hthreads : s'.threads = s.threads) :
    Fresh s' := by
  intro t ht
  rw [hthreads]
  exact h t (hnext ▸ ht)

theorem setThread (h : Fresh s) {t : Nat} (ht : t < s.next) (th : Option (Int × Task)) :
    Fresh (s.setThread t th) := by
  intro t' ht'
  change s.next ≤ t' at ht'
  show Function.update s.threads t th t' = none
  rw [Function.update_of_ne (by omega)]
  exact h t' ht'

theorem spawn (h : Fresh s) (i : Int) (task : Task) : Fresh (s.spawn i task) := by
  intro t ht
  change s.next + 1 ≤ t at ht
  rw [State.spawn_threads_of_ne _ _ _ (by omega)]
  exact h t (by omega)

theorem handleElection (h : Fresh s) (j nodeId : Int) : Fresh (Net.handleElection s j nodeId) := by
  unfold Net.handleElection
  split
  · exact (h.congr rfl rfl : Fresh (noteAlive s j nodeId)).spawn j .trigger
  · exact h.congr rfl rfl

theorem dropThreads (h : Fresh s) (i : Int) : Fresh (Net.dropThreads s i) := by
  intro t ht
  show (s.threads t).filter _ = none
  rw [h t ht]
  rfl

theorem runTask (h : Fresh s) {t : Nat} {i : Int} {task : Task}
    (hthread : s.threads t = some (i, task)) : Fresh (Net.runTask s t i task) := by
  have hset := h.setThread (h.lt hthread)
    ((task.perform i (s.node i)).task.map fun task' => (i, task'))
  unfold Net.runTask
  dsimp only
  split
  · exact hset.congr rfl rfl
  · exact spawn (hset.congr rfl rfl) _ _

theorem step (h : Fresh s) (hstep : Net.step s a = some s') : Fresh s' := by
  cases step_cases hstep with
  | run hthread => exact h.runTask hthread
  | @answer t i term acked n rest hthread hup =>
    have hlt : t < (Net.handleElection s n.id i).next :=
      (h.lt hthread).trans_le (next_le_handleElection s n.id i)
    exact (h.handleElection _ _).setThread hlt _
  | leader hmem htype => exact (h.spawn _ _).congr rfl rfl
  | election hmem htype => exact (h.handleElection _ _).congr rfl rfl
  | other hmem hleader helection => exact h.congr rfl rfl
  | lose hmem => exact h.congr rfl rfl
  | trigger => exact h.spawn _ _
  | notice => exact h.spawn _ _
  | crash => exact (h.dropThreads _).congr rfl rfl
  | @restart i =>
    refine (spawn ?_ i .trigger).congr rfl rfl
    exact (h.dropThreads i).congr rfl rfl

theorem launch (allNodes : List NodeInfo) (up : Int → Bool) : Fresh (Net.launch allNodes up) :=
  fun _ _ => rfl

end Fresh

/-! ## Runs without losses

A step of `State.step` is a step of the network, after which the messages to nodes
that do not run are lost. -/

/-- What is on its way are announcements to nodes that run. -/
def Announced (s : State) : Prop := ∀ p ∈ s.flight, s.up p.1 = true ∧ p.2.type = .leader

theorem exec_lose (sent : List (Int × Message)) {s : State}
    (hup : ∀ p ∈ s.flight, s.up p.1 = true) :
    ∃ actions, Runs.exec step { s with flight := s.flight ++ sent } actions =
      some { s with flight := s.flight ++ sent.filter fun p => s.up p.1 } := by
  induction sent generalizing s with
  | nil => exact ⟨[], rfl⟩
  | cons p rest ih =>
    by_cases hp : s.up p.1 = true
    · have hkept : ∀ q ∈ s.flight ++ [p], s.up q.1 = true := by
        intro q hq
        rcases List.mem_append.mp hq with hq | hq
        · exact hup q hq
        · exact List.mem_singleton.mp hq ▸ hp
      obtain ⟨actions, hrun⟩ := ih (s := { s with flight := s.flight ++ [p] }) hkept
      have hfilter : (p :: rest).filter (fun q => s.up q.1) =
          p :: rest.filter fun q => s.up q.1 := List.filter_cons_of_pos hp
      refine ⟨actions, ?_⟩
      rw [hfilter]
      simpa only [List.append_assoc, List.singleton_append] using hrun
    · have hnot : p ∉ s.flight := fun hmem => hp (hup p hmem)
      obtain ⟨actions, hrun⟩ := ih hup
      refine ⟨.lose p.1 p.2 :: actions,
        Runs.exec_cons.mpr ⟨{ s with flight := s.flight ++ rest }, ?_, ?_⟩⟩
      · have hmem : p ∈ s.flight ++ p :: rest := List.mem_append_right _ List.mem_cons_self
        have herase : (s.flight ++ p :: rest).erase p = s.flight ++ rest := by
          rw [List.erase_append_right _ hnot, List.erase_cons_head]
        simp only [step, if_pos hmem, herase]
      · have hfilter : (p :: rest).filter (fun q => s.up q.1) =
            rest.filter fun q => s.up q.1 := List.filter_cons_of_neg hp
        rw [hfilter]
        exact hrun

theorem up_runLocal (s : State) (t : Nat) (i : Int) (task : Task) :
    (s.runLocal t i task).up = s.up := by
  unfold State.runLocal
  dsimp only
  split <;> rfl

theorem flight_runLocal (s : State) (t : Nat) (i : Int) (task : Task) :
    (s.runLocal t i task).flight =
      s.flight ++ (task.perform i (s.node i)).sent.filter fun p => s.up p.1 := by
  unfold State.runLocal
  dsimp only
  split <;> rfl

theorem runTask_eq (s : State) (t : Nat) (i : Int) (task : Task) :
    runTask s t i task = { s.runLocal t i task with
      flight := s.flight ++ (request i task ++ (task.perform i (s.node i)).sent) } := by
  cases hspawned : (task.perform i (s.node i)).spawned with
  | none =>
    simp only [runTask, State.runLocal, hspawned]
  | some task' =>
    simp only [runTask, State.runLocal, hspawned]
    rfl

theorem announced_runLocal {s : State} (h : Announced s) (t : Nat) (i : Int) (task : Task) :
    Announced (s.runLocal t i task) := by
  intro p hp
  rw [up_runLocal]
  rw [flight_runLocal] at hp
  rcases List.mem_append.mp hp with hp | hp
  · exact h p hp
  · obtain ⟨hsent, hup⟩ := List.mem_filter.mp hp
    refine ⟨hup, ?_⟩
    by_cases hbroadcast : task = .broadcastLeader
    · subst hbroadcast
      obtain ⟨n, -, rfl⟩ := List.mem_map.mp hsent
      rfl
    · rw [sent_perform hbroadcast] at hsent
      exact absurd hsent List.not_mem_nil

/-- An access without an answer. -/
theorem exec_runLocal {s : State} (h : Announced s) {t : Nat} {i : Int} {task : Task}
    (hthread : s.threads t = some (i, task)) (hdown : ∀ p ∈ request i task, s.up p.1 = false) :
    ∃ actions, Runs.exec step s actions = some (s.runLocal t i task) := by
  have hup : ∀ p ∈ s.flight, (s.runLocal t i task).up p.1 = true := by
    rw [up_runLocal]
    exact fun p hp => (h p hp).1
  obtain ⟨actions, hrun⟩ := exec_lose (request i task ++ (task.perform i (s.node i)).sent)
    (s := { s.runLocal t i task with flight := s.flight }) hup
  refine ⟨.run t :: actions, Runs.exec_cons.mpr ⟨runTask s t i task, ?_, ?_⟩⟩
  · rw [step, hthread]
    rfl
  · have hrequest : (request i task).filter (fun p => (s.runLocal t i task).up p.1) = [] := by
      rw [up_runLocal]
      exact List.filter_eq_nil_iff.mpr fun p hp => by simp [hdown p hp]
    have hflight : s.flight ++ (task.perform i (s.node i)).sent.filter
        (fun p => (s.runLocal t i task).up p.1) = (s.runLocal t i task).flight := by
      rw [up_runLocal, flight_runLocal]
    rw [List.filter_append, hrequest, List.nil_append] at hrun
    rw [runTask_eq]
    exact hrun.trans (congrArg some (by rw [hflight]))

theorem exec_runThread {s : State} (h : Announced s) {t : Nat} {i : Int} {task : Task}
    (hthread : s.threads t = some (i, task)) :
    Announced (s.runThread t i task) ∧
      ∃ actions, Runs.exec step s actions = some (s.runThread t i task) := by
  by_cases hanswer : ∃ term acked n rest, task = .exchange term acked (n :: rest) ∧
      s.up n.id = true
  · obtain ⟨term, acked, n, rest, rfl, hup⟩ := hanswer
    have hthread' : s.runThread t i (.exchange term acked (n :: rest)) =
        answered s t i term acked n rest := by
      simp only [State.runThread, hup, if_true, answered]
    rw [hthread']
    refine ⟨?_, [.answer t], Runs.exec_cons.mpr ⟨_, ?_, rfl⟩⟩
    · rw [answered_eq]
      intro p hp
      change p ∈ (handleElection s n.id i).flight at hp
      rw [flight_handleElection] at hp
      have hkept : (handleElection s n.id i).up = s.up := by
        unfold handleElection
        split <;> rfl
      show (handleElection s n.id i).up p.1 = true ∧ _
      rw [hkept]
      exact h p hp
    · simp only [step, hthread, hup, if_true]
  · have hlocal : s.runThread t i task = s.runLocal t i task := by
      cases task with
      | exchange term acked higher =>
        cases higher with
        | nil => rfl
        | cons n rest =>
          have hdown : s.up n.id ≠ true := fun hup => hanswer ⟨term, acked, n, rest, rfl, hup⟩
          simp only [State.runThread, if_neg hdown]
      | _ => rfl
    rw [hlocal]
    refine ⟨announced_runLocal h t i task, exec_runLocal h hthread fun p hp => ?_⟩
    cases task with
    | exchange term acked higher =>
      cases higher with
      | nil => exact absurd hp List.not_mem_nil
      | cons n rest =>
        rw [List.mem_singleton.mp hp]
        exact Bool.eq_false_iff.mpr fun hup => hanswer ⟨term, acked, n, rest, rfl, hup⟩
    | _ => exact absurd hp List.not_mem_nil

theorem exec_reliable_step {s s' : State} {a : Election.Action} (h : Announced s)
    (hstep : s.step a = some s') :
    Announced s' ∧ ∃ actions, Runs.exec step s actions = some s' := by
  cases a with
  | run t =>
    obtain ⟨⟨i, task⟩, hthread, rfl⟩ := Option.map_eq_some_iff.mp hstep
    exact exec_runThread h hthread
  | deliver j msg =>
    rw [State.step] at hstep
    split at hstep
    · rename_i hmem
      obtain rfl := Option.some.inj hstep
      obtain ⟨hup, htype⟩ := h (j, msg) hmem
      refine ⟨fun p hp => h p (List.mem_of_mem_erase hp), [.deliver j msg false],
        Runs.exec_cons.mpr ⟨_, ?_, rfl⟩⟩
      simp only [step, if_pos (And.intro hmem hup), receive_leader s j htype]
      rfl
    · exact absurd hstep (by simp)

/-- Every run without losses is a run over the network. -/
theorem exec_of_reliable {s s' : State} {actions : List Election.Action} (h : Announced s)
    (hrun : Runs.exec State.step s actions = some s') :
    ∃ steps, Runs.exec step s steps = some s' :=
  Runs.exec_simulates (fun _ _ _ => exec_reliable_step) h hrun

/-- How a thread that runs can move in one step. -/
inductive Moves (s : State) (a : Action) (t : Nat) (i : Int) (task' : Task) : Prop
  | stays (hthread : s.threads t = some (i, task'))
  | runs {task : Task} (ha : a = .run t) (hthread : s.threads t = some (i, task))
      (hnext : Continues i (s.node i) task task')
  | acked {term : Int} {acked : Bool} {n : NodeInfo} {rest : List NodeInfo} (ha : a = .answer t)
      (hthread : s.threads t = some (i, .exchange term acked (n :: rest)))
      (htask : task' = .storeAck term rest)

theorem threads_handleElection (s : State) (j nodeId : Int) {t : Nat} (ht : t < s.next) :
    (handleElection s j nodeId).threads t = s.threads t := by
  unfold handleElection
  split
  · exact State.spawn_threads_of_ne (noteAlive s j nodeId) _ _ (Nat.ne_of_lt ht)
  · rfl

theorem threads_runTask_of_lt (s : State) {t t' : Nat} (i : Int) (task : Task)
    (ht' : t' < s.next) :
    (runTask s t i task).threads t' = Function.update s.threads t
      ((task.perform i (s.node i)).task.map fun task' => (i, task')) t' := by
  rw [threads_runTask]
  split
  · rfl
  · rw [Function.update_of_ne (Nat.ne_of_lt ht')]

theorem threads_step {s s' : State} {a : Action} (hstep : step s a = some s') {t : Nat}
    (ht : t < s.next) {i : Int} {task' : Task} (h : s'.threads t = some (i, task')) :
    Moves s a t i task' := by
  cases step_cases hstep with
  | @run t₀ i₀ task hthread =>
    rw [threads_runTask_of_lt s i₀ task ht] at h
    by_cases hsame : t = t₀
    · subst hsame
      rw [Function.update_self] at h
      obtain ⟨task'', htask, heq⟩ := Option.map_eq_some_iff.mp h
      obtain ⟨rfl, rfl⟩ := Prod.mk.inj heq
      exact .runs rfl hthread (continues_of_perform htask)
    · rw [Function.update_of_ne hsame] at h
      exact .stays h
  | @answer t₀ i₀ term acked n rest hthread hup =>
    change Function.update (handleElection s n.id i₀).threads t₀ _ t = _ at h
    by_cases hsame : t = t₀
    · subst hsame
      rw [Function.update_self] at h
      obtain ⟨rfl, rfl⟩ := Prod.mk.inj (Option.some.inj h)
      exact .acked rfl hthread rfl
    · rw [Function.update_of_ne hsame, threads_handleElection s _ _ ht] at h
      exact .stays h
  | leader hmem htype =>
    rw [State.spawn_threads_of_ne _ _ _ (Nat.ne_of_lt ht)] at h
    exact .stays h
  | election hmem htype =>
    change (handleElection s _ _).threads t = _ at h
    rw [threads_handleElection s _ _ ht] at h
    exact .stays h
  | other hmem hleader helection => exact .stays h
  | lose hmem => exact .stays h
  | trigger =>
    rw [State.spawn_threads_of_ne _ _ _ (Nat.ne_of_lt ht)] at h
    exact .stays h
  | notice =>
    rw [State.spawn_threads_of_ne _ _ _ (Nat.ne_of_lt ht)] at h
    exact .stays h
  | crash => exact .stays (Option.mem_filter_iff.mp h).1
  | @restart j =>
    have hne : t ≠ ((dropThreads s j).setNode j (fresh (s.node j).allNodes)).next :=
      Nat.ne_of_lt ht
    change ((State.spawn _ _ _).threads t) = _ at h
    rw [State.spawn_threads_of_ne _ _ _ hne] at h
    exact .stays (Option.mem_filter_iff.mp h).1

/-- Where a thread can begin. -/
def starts : Task → Bool
  | .onNodeFailure _ => true
  | .trigger => true
  | .timer _ => true
  | .testLeader _ => true
  | _ => false

theorem threads_spawn_new {s : State} (hfresh : Fresh s) {i j : Int}
    {task task' : Task} {t : Nat} (ht : s.next ≤ t)
    (h : (s.spawn i task).threads t = some (j, task')) : task' = task := by
  by_cases hnext : t = s.next
  · subst hnext
    rw [State.spawn_threads_self] at h
    exact (Prod.mk.inj (Option.some.inj h)).2.symm
  · rw [State.spawn_threads_of_ne _ _ _ hnext, hfresh t ht] at h
    exact absurd h (by simp)

theorem starts_handleElection {s : State} (hfresh : Fresh s) {j nodeId i : Int} {task : Task}
    {t : Nat} (ht : s.next ≤ t)
    (h : (handleElection s j nodeId).threads t = some (i, task)) :
    starts task = true := by
  unfold handleElection at h
  split at h
  · rw [threads_spawn_new (s := noteAlive s j nodeId) hfresh ht h]
    rfl
  · exact absurd ((hfresh t ht).symm.trans h) (by simp)

/-- A thread that was not there before a step is at its beginning. -/
theorem starts_of_new {s s' : State} {a : Action} (hfresh : Fresh s)
    (hstep : step s a = some s') {t : Nat} (ht : s.next ≤ t) {i : Int} {task : Task}
    (h : s'.threads t = some (i, task)) : starts task = true := by
  have hnone := hfresh t ht
  cases step_cases hstep with
  | @run t₀ i₀ task₀ hthread =>
    have hne : t ≠ t₀ := by
      have := hfresh.lt hthread
      omega
    rw [threads_runTask] at h
    split at h
    · rw [Function.update_of_ne hne, hnone] at h
      exact absurd h (by simp)
    · rename_i spawned hspawned
      obtain ⟨term, -, rfl⟩ := spawned_perform hspawned
      by_cases hnext : t = s.next
      · rw [hnext, Function.update_self] at h
        obtain ⟨-, rfl⟩ := Prod.mk.inj (Option.some.inj h)
        rfl
      · rw [Function.update_of_ne hnext, Function.update_of_ne hne, hnone] at h
        exact absurd h (by simp)
  | @answer t₀ i₀ term acked n rest hthread hup =>
    have hne : t ≠ t₀ := by
      have := hfresh.lt hthread
      omega
    change Function.update (handleElection s n.id i₀).threads t₀ _ t = _ at h
    rw [Function.update_of_ne hne] at h
    exact starts_handleElection hfresh ht h
  | leader hmem htype =>
    rw [threads_spawn_new hfresh ht h]
    rfl
  | election hmem htype => exact starts_handleElection hfresh ht h
  | other hmem hleader helection => exact absurd (hnone.symm.trans h) (by simp)
  | lose hmem => exact absurd (hnone.symm.trans h) (by simp)
  | trigger =>
    rw [threads_spawn_new hfresh ht h]
    rfl
  | notice =>
    rw [threads_spawn_new hfresh ht h]
    rfl
  | @crash j => exact absurd ((hfresh.dropThreads j t ht).symm.trans h) (by simp)
  | @restart j =>
    have hdrop : Fresh ((dropThreads s j).setNode j (fresh (s.node j).allNodes)) :=
      hfresh.dropThreads j
    rw [threads_spawn_new hdrop ht h]
    rfl

/-- The thread that runs goes where its access sends it. -/
theorem threads_run {s s' : State} {t : Nat} {i : Int} {task : Task} (hfresh : Fresh s)
    (hthread : s.threads t = some (i, task)) (hstep : step s (.run t) = some s') :
    s'.threads t = (task.perform i (s.node i)).task.map fun task' => (i, task') := by
  obtain ⟨th, hth, rfl⟩ := Option.map_eq_some_iff.mp hstep
  obtain rfl := Option.some.inj (hthread.symm.trans hth)
  rw [threads_runTask_of_lt s i task (hfresh.lt hthread), Function.update_self]

theorem threads_answer {s s' : State} {t : Nat} (hstep : step s (.answer t) = some s') :
    ∃ i term rest, s'.threads t = some (i, .storeAck term rest) := by
  cases step_cases hstep with
  | answer hthread hup => exact ⟨_, _, _, Function.update_self ..⟩

/-- A thread that neither runs nor is answered stays where it is, as long as its
node does not stop. -/
theorem threads_kept {s s' : State} {a : Action} {t : Nat} {i : Int} {task : Task}
    (hfresh : Fresh s) (hthread : s.threads t = some (i, task)) (hstep : step s a = some s')
    (hrun : a ≠ .run t) (hanswer : a ≠ .answer t) (hcrash : a ≠ .crash i)
    (hrestart : a ≠ .restart i) : s'.threads t = some (i, task) := by
  have ht := hfresh.lt hthread
  cases step_cases hstep with
  | @run t₀ i₀ task₀ hthread₀ =>
    have hne : t ≠ t₀ := fun h => hrun (h ▸ rfl)
    rw [threads_runTask_of_lt s i₀ task₀ ht, Function.update_of_ne hne]
    exact hthread
  | @answer t₀ i₀ term acked n rest hthread₀ hup =>
    have hne : t ≠ t₀ := fun h => hanswer (h ▸ rfl)
    show Function.update (handleElection s n.id i₀).threads t₀ _ t = _
    rw [Function.update_of_ne hne, threads_handleElection s _ _ ht]
    exact hthread
  | leader hmem htype => exact (State.spawn_threads_of_ne s _ _ (Nat.ne_of_lt ht)).trans hthread
  | election hmem htype => exact (threads_handleElection s _ _ ht).trans hthread
  | other hmem hleader helection => exact hthread
  | lose hmem => exact hthread
  | trigger => exact (State.spawn_threads_of_ne s _ _ (Nat.ne_of_lt ht)).trans hthread
  | notice => exact (State.spawn_threads_of_ne s _ _ (Nat.ne_of_lt ht)).trans hthread
  | @crash j =>
    have hne : i ≠ j := fun h => hcrash (h ▸ rfl)
    exact Option.mem_filter_iff.mpr ⟨hthread, decide_eq_true hne⟩
  | @restart j =>
    have hne : i ≠ j := fun h => hrestart (h ▸ rfl)
    have hnext : t ≠ ((dropThreads s j).setNode j (fresh (s.node j).allNodes)).next :=
      Nat.ne_of_lt ht
    refine (State.spawn_threads_of_ne _ _ _ hnext).trans ?_
    exact Option.mem_filter_iff.mpr ⟨hthread, decide_eq_true hne⟩

/-- How the atomics of node `i` can change in one step. -/
inductive Alters (s : State) (a : Action) (i : Int) : LeaderElection → Prop
  | same : Alters s a i (s.node i)
  | alive (nodeAlive : AList fun _ : Int => Bool) :
    Alters s a i { s.node i with nodeAlive := nodeAlive }
  | runs {t : Nat} {task : Task} (ha : a = .run t) (hthread : s.threads t = some (i, task)) :
    Alters s a i (task.perform i (s.node i)).node
  | restarts (ha : a = .restart i) : Alters s a i (fresh (s.node i).allNodes)

theorem alters_handleElection (s : State) (a : Action) (i j nodeId : Int) :
    Alters s a i ((handleElection s j nodeId).node i) := by
  have hnote : Alters s a i ((noteAlive s j nodeId).node i) := by
    show Alters s a i (Function.update s.node j _ i)
    by_cases hi : i = j
    · subst hi
      rw [Function.update_self]
      exact .alive _
    · rw [Function.update_of_ne hi]
      exact .same
  unfold handleElection
  split <;> exact hnote

theorem node_step {s s' : State} {a : Action} (hstep : step s a = some s') (i : Int) :
    Alters s a i (s'.node i) := by
  cases step_cases hstep with
  | @run t j task hthread =>
    rw [node_runTask]
    by_cases hi : i = j
    · subst hi
      rw [Function.update_self]
      exact .runs rfl hthread
    · rw [Function.update_of_ne hi]
      exact .same
  | answer hthread hup => exact alters_handleElection s _ i _ _
  | election hmem htype => exact alters_handleElection s _ i _ _
  | @restart j =>
    show Alters s _ i (Function.update s.node j _ i)
    by_cases hi : i = j
    · subst hi
      rw [Function.update_self]
      exact .restarts rfl
    · rw [Function.update_of_ne hi]
      exact .same
  | _ => exact .same

theorem next_le_step {s s' : State} {a : Action} (hstep : step s a = some s') :
    s.next ≤ s'.next := by
  cases step_cases hstep with
  | run hthread =>
    unfold runTask
    dsimp only
    split
    · exact le_refl _
    · exact Nat.le_succ _
  | answer hthread hup => exact next_le_handleElection s _ _
  | election hmem htype => exact next_le_handleElection s _ _
  | leader hmem htype => exact Nat.le_succ _
  | trigger => exact Nat.le_succ _
  | notice => exact Nat.le_succ _
  | restart => exact Nat.le_succ _
  | _ => exact le_refl _

/-! ## What an observer sees -/

/-- A thread is also an invocation of `trigger_election`: it makes at most one. -/
inductive Event where
  /-- Thread `t` sends an `ELECTION` message to node `j`. -/
  | asked (t : Nat) (j : Int)
  /-- It is answered with an acknowledgement. -/
  | answered (t : Nat)
  /-- Thread `t` sets `current_leader_id_` to the id of its node. -/
  | leads (t : Nat)
  deriving DecidableEq

def emit (s : State) : Action → List Event
  | .run t =>
    match s.threads t with
    | some (_, .exchange _ _ (n :: _)) => [.asked t n.id]
    | some (_, .becomeLeader) => [.leads t]
    | _ => []
  | .answer t =>
    match s.threads t with
    | some (_, .exchange _ _ (n :: _)) => [.asked t n.id, .answered t]
    | _ => []
  | _ => []

theorem mem_emit_answered {s : State} {a : Action} {t : Nat} (h : .answered t ∈ emit s a) :
    a = .answer t ∧
      ∃ i term acked n rest, s.threads t = some (i, .exchange term acked (n :: rest)) := by
  cases a with
  | run t₀ =>
    simp only [emit] at h
    split at h <;> simp at h
  | answer t₀ =>
    simp only [emit] at h
    split at h
    · rename_i i term acked n rest hthread
      obtain rfl : t = t₀ := by simpa using h
      exact ⟨rfl, i, term, acked, n, rest, hthread⟩
    · simp at h
  | _ => simp [emit] at h

theorem mem_emit_leads {s : State} {a : Action} {t : Nat} (h : .leads t ∈ emit s a) :
    a = .run t ∧ ∃ i, s.threads t = some (i, .becomeLeader) := by
  cases a with
  | run t₀ =>
    simp only [emit] at h
    split at h
    · simp at h
    · rename_i i hthread
      obtain rfl : t = t₀ := by simpa using h
      exact ⟨rfl, i, hthread⟩
    · simp at h
  | answer t₀ =>
    simp only [emit] at h
    split at h <;> simp at h
  | _ => simp [emit] at h

/-! ## Invariants of the nodes and their threads -/

/-- `N` holds of the atomics of every node, and `Q` of every thread and the atomics
of its node. -/
structure Holds (N : Int → LeaderElection → Prop) (Q : Int → LeaderElection → Task → Prop)
    (s : State) : Prop where
  node : ∀ i, N i (s.node i)
  thread : ∀ t i task, s.threads t = some (i, task) → Q i (s.node i) task

/-- Neither depends on who is noted as alive, and both hold at the start of a node
and of a thread. -/
structure Local (N : Int → LeaderElection → Prop) (Q : Int → LeaderElection → Task → Prop) :
    Prop where
  alive : ∀ i e nodeAlive, N i e → N i { e with nodeAlive := nodeAlive }
  aliveThread : ∀ i e nodeAlive task, Q i e task → Q i { e with nodeAlive := nodeAlive } task
  fresh : ∀ i allNodes, N i (fresh allNodes)
  trigger : ∀ i e, Q i e .trigger
  onNodeFailure : ∀ i e nodeId, Q i e (.onNodeFailure nodeId)
  storeAck : ∀ i e term rest, Q i e (.storeAck term rest)
  testLeader : ∀ i e msg, Q i e (.testLeader msg)

/-- An access of thread `t` leaves its node and the threads of its node as the
invariant asks. -/
structure Keeps (N : Int → LeaderElection → Prop) (Q : Int → LeaderElection → Task → Prop)
    (s : State) (t : Nat) (i : Int) (task : Task) : Prop where
  node : N i (task.perform i (s.node i)).node
  others : ∀ t' task', t' ≠ t → s.threads t' = some (i, task') →
    Q i (task.perform i (s.node i)).node task'
  continues : ∀ task', (task.perform i (s.node i)).task = some task' →
    Q i (task.perform i (s.node i)).node task'
  spawns : ∀ task', (task.perform i (s.node i)).spawned = some task' →
    Q i (task.perform i (s.node i)).node task'

namespace Holds

variable {N : Int → LeaderElection → Prop} {Q : Int → LeaderElection → Task → Prop}
  {s s' : State} {a : Action}

theorem congr (h : Holds N Q s) (hnode : s'.node = s.node) (hthreads : s'.threads = s.threads) :
    Holds N Q s' where
  node := by
    rw [hnode]
    exact h.node
  thread := by
    rw [hnode, hthreads]
    exact h.thread

theorem setThread (h : Holds N Q s) (t : Nat) {i : Int} {task : Task} (hq : Q i (s.node i) task) :
    Holds N Q (s.setThread t (some (i, task))) where
  node := h.node
  thread := by
    intro t' j task' ht'
    change Function.update s.threads t (some (i, task)) t' = some (j, task') at ht'
    by_cases ht : t' = t
    · rw [ht, Function.update_self] at ht'
      obtain ⟨rfl, rfl⟩ := Prod.mk.inj (Option.some.inj ht')
      exact hq
    · rw [Function.update_of_ne ht] at ht'
      exact h.thread t' j task' ht'

theorem spawn (h : Holds N Q s) {i : Int} {task : Task} (hq : Q i (s.node i) task) :
    Holds N Q (s.spawn i task) :=
  (h.setThread s.next hq).congr rfl rfl

theorem update_node (h : Holds N Q s) {i : Int} {e : LeaderElection} (he : N i e) :
    ∀ j, N j (Function.update s.node i e j) :=
  (Function.forall_update_iff s.node N).mpr ⟨he, fun j _ => h.node j⟩

theorem noteAlive (hl : Local N Q) (h : Holds N Q s) (j nodeId : Int) :
    Holds N Q (Net.noteAlive s j nodeId) where
  node := h.update_node (hl.alive j _ _ (h.node j))
  thread := by
    intro t i task ht
    show Q i (Function.update s.node j _ i) task
    by_cases hij : i = j
    · subst hij
      rw [Function.update_self]
      exact hl.aliveThread i _ _ task (h.thread t i task ht)
    · rw [Function.update_of_ne hij]
      exact h.thread t i task ht

theorem handleElection (hl : Local N Q) (h : Holds N Q s) (j nodeId : Int) :
    Holds N Q (Net.handleElection s j nodeId) := by
  unfold Net.handleElection
  split
  · exact (h.noteAlive hl j nodeId).spawn (hl.trigger j _)
  · exact h.noteAlive hl j nodeId

theorem dropThreads (h : Holds N Q s) (i : Int) : Holds N Q (Net.dropThreads s i) where
  node := h.node
  thread := by
    intro t j task ht
    exact h.thread t j task (Option.mem_filter_iff.mp ht).1

/-- A node that has lost its threads starts again. -/
theorem restart (hl : Local N Q) (h : Holds N Q s) (i : Int) (allNodes : List NodeInfo) :
    Holds N Q (((Net.dropThreads s i).setNode i (Net.fresh allNodes)).spawn i .trigger) := by
  refine spawn ⟨h.update_node (hl.fresh i allNodes), fun t j task ht => ?_⟩ (hl.trigger i _)
  obtain ⟨ht, hne⟩ := Option.mem_filter_iff.mp ht
  have hj : j ≠ i := of_decide_eq_true hne
  show Q j (Function.update s.node i _ j) task
  rw [Function.update_of_ne hj]
  exact h.thread t j task ht

theorem runTask (h : Holds N Q s) {t : Nat} {i : Int} {task : Task} (hk : Keeps N Q s t i task) :
    Holds N Q (Net.runTask s t i task) where
  node := by
    rw [node_runTask]
    exact h.update_node hk.node
  thread := by
    intro t' j task' ht'
    rw [node_runTask]
    rcases origin_runTask ht' with ⟨hne, hold⟩ | ⟨rfl, hnew⟩
    · by_cases hj : j = i
      · subst hj
        rw [Function.update_self]
        exact hk.others t' task' hne hold
      · rw [Function.update_of_ne hj]
        exact h.thread t' j task' hold
    · rw [Function.update_self]
      rcases hnew with hnew | hnew
      · exact hk.continues task' hnew
      · exact hk.spawns task' hnew

/-- A step keeps the invariant when the accesses do. -/
theorem step (hl : Local N Q) (h : Holds N Q s)
    (hrun : ∀ t i task, a = .run t → s.threads t = some (i, task) → Keeps N Q s t i task)
    (hstep : Net.step s a = some s') : Holds N Q s' := by
  cases step_cases hstep with
  | run hthread => exact h.runTask (hrun _ _ _ rfl hthread)
  | answer hthread hup =>
    exact (h.handleElection hl _ _).setThread _ (hl.storeAck _ _ _ _)
  | leader hmem htype => exact (h.spawn (hl.testLeader _ _ _)).congr rfl rfl
  | election hmem htype => exact (h.handleElection hl _ _).congr rfl rfl
  | other hmem hleader helection => exact h.congr rfl rfl
  | lose hmem => exact h.congr rfl rfl
  | trigger => exact h.spawn (hl.trigger _ _)
  | notice => exact h.spawn (hl.onNodeFailure _ _ _)
  | crash => exact (h.dropThreads _).congr rfl rfl
  | restart => exact (h.restart hl _ _).congr rfl rfl

/-- Nothing runs after the launch. -/
theorem launch (hl : Local N Q) (allNodes : List NodeInfo) (up : Int → Bool) :
    Holds N Q (Net.launch allNodes up) where
  node := fun i => hl.fresh i allNodes
  thread := fun _ _ _ hnone => absurd hnone (by simp [Net.launch])

end Holds

end Net
end Election
end DistributedDb
