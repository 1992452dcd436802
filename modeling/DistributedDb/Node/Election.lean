import Mathlib.Algebra.Group.Int.Defs
import DistributedDb.Lib.Runs
import DistributedDb.Node.Coordinator

/-
Leader election between the nodes, one access to the atomics at a time.

Each thread of the election is a `Task`, named after the access it makes next.
`Task.perform` is one access on the node of the thread.  The exchange of an
`ELECTION` message waits for the handler of the receiver, which starts a round
of its own there; `LEADER` announcements travel by detached threads and arrive
in any order.  An address stands for the node whose id it carries.  The lock of
the heartbeat tables, which the monitor holds during `on_node_failure`, rules out
some of these interleavings and adds none.
-/

namespace DistributedDb

namespace LeaderElection

/-- The nodes that a round asks: higher ids not known to be dead. -/
def higherNodes (e : LeaderElection) (myId : Int) : List NodeInfo :=
  e.allNodes.filter fun n =>
    decide (myId < n.id) && decide (e.nodeAlive.lookup n.id = some true)

/-- `++election_term_`, which wraps around like every `std::atomic<int>`. -/
def nextTerm (term : Int) : Int := (term + 1 + 2 ^ 31) % 2 ^ 32 - 2 ^ 31

theorem neg_le_nextTerm (term : Int) : -2 ^ 31 ≤ nextTerm term := by
  unfold nextTerm
  omega

theorem nextTerm_le {term : Int} (h : -2 ^ 31 ≤ term) : nextTerm term ≤ term + 1 := by
  unfold nextTerm
  omega

theorem nextTerm_of_lt {term : Int} (hlow : -2 ^ 31 ≤ term) (hhigh : term < 2 ^ 31 - 1) :
    nextTerm term = term + 1 := by
  unfold nextTerm
  omega

/-- The term goes down only where it wraps around. -/
theorem le_of_nextTerm_lt {term : Int} (h : nextTerm term < term) : 2 ^ 31 - 1 ≤ term := by
  unfold nextTerm at h
  omega

end LeaderElection

namespace Election

inductive Task where
  /-- `on_node_failure`, about to compare with `get_leader()`. -/
  | onNodeFailure (nodeId : Int)
  /-- `trigger_election`, at its entry. -/
  | trigger
  | nextTerm
  | resetAck (term : Int)
  | collect (term : Int)
  /-- The loop over the higher nodes.  `acked` says that one of them answered in
  this round; the code keeps this in `got_higher_ack_` only, which all rounds of
  the node share, and never reads `acked`. -/
  | exchange (term : Int) (acked : Bool) (higher : List NodeInfo)
  | storeAck (term : Int) (higher : List NodeInfo)
  | testAck (term : Int) (acked : Bool)
  | becomeLeader
  | endRound
  | broadcastLeader
  | startTimer (term : Int)
  | standBack
  /-- The thread that waits for the election timeout. -/
  | timer (term : Int)
  | timerTerm (term : Int)
  | timerRetry
  /-- The handler of a `LEADER` message, at the first half of its test. -/
  | testLeader (msg : Message)
  | testTerm (msg : Message)
  | storeLeader (msg : Message)
  | storeTerm (msg : Message)
  | clearProgress (msg : Message)
  | noteAlive (msg : Message)

/-- What one access does: the atomics of the node, where the thread goes, a
thread it starts, and the messages it sends. -/
structure Effect where
  node : LeaderElection
  task : Option Task := none
  spawned : Option Task := none
  sent : List (Int × Message) := []

def leaderMsg (myId term : Int) : Message := { type := .leader, nodeId := myId, term := term }

def electionMsg (myId term : Int) : Message := { type := .election, nodeId := myId, term := term }

/-- One access on the node `me`.  The exchange is the one with a node that does
not answer. -/
def Task.perform (me : Int) (e : LeaderElection) : Task → Effect
  | .onNodeFailure nodeId =>
    { node := e, task := if e.currentLeaderId = nodeId then some .trigger else none }
  | .trigger =>
    if e.running = false ∨ e.electionInProgress = true then { node := e }
    else { node := { e with electionInProgress := true }, task := some .nextTerm }
  | .nextTerm =>
    let term := LeaderElection.nextTerm e.electionTerm
    { node := { e with electionTerm := term }, task := some (.resetAck term) }
  | .resetAck term =>
    { node := { e with gotHigherAck := false }, task := some (.collect term) }
  | .collect term => { node := e, task := some (.exchange term false (e.higherNodes me)) }
  | .exchange term acked [] => { node := e, task := some (.testAck term acked) }
  | .exchange term acked (_ :: rest) => { node := e, task := some (.exchange term acked rest) }
  | .storeAck term rest =>
    { node := { e with gotHigherAck := true }, task := some (.exchange term true rest) }
  | .testAck term _ =>
    { node := e, task := some (if e.gotHigherAck then .startTimer term else .becomeLeader) }
  | .becomeLeader => { node := { e with currentLeaderId := me }, task := some .endRound }
  | .endRound =>
    { node := { e with electionInProgress := false }, task := some .broadcastLeader }
  | .broadcastLeader =>
    { node := e
      sent := (e.allNodes.filter fun n => decide (n.id ≠ me)).map fun n =>
        (n.id, leaderMsg me e.electionTerm) }
  | .startTimer term => { node := e, task := some .standBack, spawned := some (.timer term) }
  | .standBack => { node := { e with electionInProgress := false } }
  | .timer term =>
    { node := e, task := if e.electionInProgress then some (.timerTerm term) else none }
  | .timerTerm term =>
    { node := e, task := if e.electionTerm = term then some .timerRetry else none }
  | .timerRetry => { node := { e with electionInProgress := false }, task := some .trigger }
  | .testLeader msg =>
    { node := e
      task := some (if e.currentLeaderId < msg.nodeId then .storeLeader msg else .testTerm msg) }
  | .testTerm msg =>
    { node := e, task := if e.electionTerm < msg.term then some (.storeLeader msg) else none }
  | .storeLeader msg =>
    { node := { e with currentLeaderId := msg.nodeId }, task := some (.storeTerm msg) }
  | .storeTerm msg =>
    { node := { e with electionTerm := msg.term }, task := some (.clearProgress msg) }
  | .clearProgress msg =>
    { node := { e with electionInProgress := false }, task := some (.noteAlive msg) }
  | .noteAlive msg => { node := { e with nodeAlive := e.nodeAlive.insert msg.nodeId true } }

/-- A thread that nobody interrupts, for at most `fuel` accesses. -/
def Task.alone (me : Int) : Nat → LeaderElection → Task → LeaderElection
  | 0, e, _ => e
  | fuel + 1, e, task =>
    match (task.perform me e).task with
    | none => (task.perform me e).node
    | some task' => task'.alone me fuel (task.perform me e).node

/-- The handler of `LEADER`, uninterrupted, is the one of the node. -/
theorem alone_testLeader {me : Int} {e : LeaderElection} {msg : Message}
    (htype : msg.type = .leader) :
    (Task.testLeader msg).alone me 6 e = (e.handleMessage me msg).1 := by
  simp only [LeaderElection.handleMessage, htype, LeaderElection.accepts]
  by_cases hid : e.currentLeaderId < msg.nodeId
  · simp [Task.alone, Task.perform, hid, LeaderElection.accept]
  · by_cases hterm : e.electionTerm < msg.term
    · simp [Task.alone, Task.perform, hid, hterm, LeaderElection.accept]
    · simp [Task.alone, Task.perform, hid, hterm]

/-! ## The cluster -/

structure State where
  /-- The nodes that run. -/
  up : Int → Bool
  node : Int → LeaderElection
  /-- The threads, each with its node. -/
  threads : Nat → Option (Int × Task)
  next : Nat
  /-- `LEADER` messages on their way to a node that runs. -/
  flight : List (Int × Message)

inductive Action where
  /-- Thread `t` makes its next access. -/
  | run (t : Nat)
  /-- An announcement arrives. -/
  | deliver (j : Int) (msg : Message)

namespace State

def setNode (s : State) (i : Int) (e : LeaderElection) : State :=
  { s with node := Function.update s.node i e }

def setThread (s : State) (t : Nat) (th : Option (Int × Task)) : State :=
  { s with threads := Function.update s.threads t th }

/-- Start a thread under a new name. -/
def spawn (s : State) (i : Int) (task : Task) : State :=
  { s.setThread s.next (some (i, task)) with next := s.next + 1 }

theorem spawn_threads_self (s : State) (i : Int) (task : Task) :
    (s.spawn i task).threads s.next = some (i, task) := Function.update_self ..

theorem spawn_threads_of_ne (s : State) (i : Int) (task : Task) {t : Nat} (h : t ≠ s.next) :
    (s.spawn i task).threads t = s.threads t := Function.update_of_ne h ..

/-- A thread makes an access on its own node.  A message to a node that does not
run is gone. -/
def runLocal (s : State) (t : Nat) (i : Int) (task : Task) : State :=
  let effect := task.perform i (s.node i)
  let s' := { (s.setNode i effect.node).setThread t (effect.task.map fun task' => (i, task')) with
    flight := s.flight ++ effect.sent.filter fun p => s.up p.1 }
  match effect.spawned with
  | none => s'
  | some task' => s'.spawn i task'

/-- The handler of an `ELECTION` message on the receiver `j`, which may start a
round there, and the reply to the sender. -/
def answerElection (s : State) (i j term : Int) : State × Message :=
  let p := (s.node j).handleMessage j (electionMsg i term)
  let s' := s.setNode j p.1
  (if p.2.2 then s'.spawn j .trigger else s',
    p.2.1.getD (Coordinator.makeAck j true []))

def runThread (s : State) (t : Nat) (i : Int) (task : Task) : State :=
  match task with
  | .exchange term acked (n :: rest) =>
    if s.up n.id then
      let p := s.answerElection i n.id term
      p.1.setThread t
        (some (i, if p.2.type = .ack then .storeAck term rest else .exchange term acked rest))
    else s.runLocal t i task
  | task => s.runLocal t i task

def step (s : State) : Action → Option State
  | .run t => (s.threads t).map fun th => s.runThread t th.1 th.2
  | .deliver j msg =>
    if (j, msg) ∈ s.flight then
      some { s.spawn j (.testLeader msg) with flight := s.flight.erase (j, msg) }
    else none

/-- No announcement is on its way, and no thread runs but timers that wait. -/
def Quiescent (s : State) : Prop :=
  s.flight = [] ∧ ∀ t th, s.threads t = some th → ∃ term, th.2 = .timer term

end State
end Election
end DistributedDb
