import DistributedDb.Lib.RankWeight
import DistributedDb.Node.ElectionNet

/-
What one call of `trigger_election` costs.

An `ELECTION` message starts a round on its receiver, which asks the nodes above
it in turn, while the other rounds go on.  A thread and a message in flight carry
a weight, and an access takes off the weight of its thread what it leaves behind:
the thread where it stands then, the thread it starts and the messages it sends.
With one choice of the weights what is paid is an `ELECTION` message, with
another it is a step.
-/

namespace DistributedDb
namespace Election
namespace Net

open Finset

/-! ## Weights of threads and messages -/

structure Weights where
  thread : Int → Task → Nat
  message : Int → Message → Nat

namespace Weights

variable (w : Weights)

def ofThread : Option (Int × Task) → Nat
  | none => 0
  | some th => w.thread th.1 th.2

def ofThreads (s : State) : Nat := ∑ t ∈ range s.next, w.ofThread (s.threads t)

def ofFlight (flight : List (Int × Message)) : Nat :=
  (flight.map fun p => w.message p.1 p.2).sum

def ofState (s : State) : Nat := w.ofThreads s + w.ofFlight s.flight

/-- What an access on node `i` leaves behind. -/
def ofEffect (i : Int) (effect : Effect) : Nat :=
  w.ofThread (effect.task.map fun task => (i, task)) +
    w.ofThread (effect.spawned.map fun task => (i, task)) + w.ofFlight effect.sent

theorem ofFlight_append (f g : List (Int × Message)) :
    w.ofFlight (f ++ g) = w.ofFlight f + w.ofFlight g := by
  simp [ofFlight]

theorem ofFlight_erase {flight : List (Int × Message)} {j : Int} {msg : Message}
    (h : (j, msg) ∈ flight) :
    w.message j msg + w.ofFlight (flight.erase (j, msg)) = w.ofFlight flight := by
  have hperm := (List.perm_cons_erase h).map fun p => w.message p.1 p.2
  simpa [ofFlight] using hperm.sum_eq.symm

theorem ofThreads_setThread (s : State) {t : Nat} (ht : t < s.next) (th : Option (Int × Task)) :
    w.ofThreads (s.setThread t th) + w.ofThread (s.threads t) =
      w.ofThreads s + w.ofThread th := by
  have hmem : t ∈ range s.next := mem_range.mpr ht
  have hother : ∑ t' ∈ (range s.next).erase t, w.ofThread (Function.update s.threads t th t') =
      ∑ t' ∈ (range s.next).erase t, w.ofThread (s.threads t') :=
    sum_congr rfl fun t' ht' => by rw [Function.update_of_ne (ne_of_mem_erase ht')]
  have hset : w.ofThreads (s.setThread t th) =
      ∑ t' ∈ range s.next, w.ofThread (Function.update s.threads t th t') := rfl
  rw [hset, ofThreads, ← sum_erase_add _ _ hmem, ← sum_erase_add _ _ hmem, hother,
    Function.update_self]
  omega

theorem ofThreads_spawn (s : State) (i : Int) (task : Task) :
    w.ofThreads (s.spawn i task) = w.ofThreads s + w.thread i task := by
  have hold : ∑ t ∈ range s.next, w.ofThread ((s.spawn i task).threads t) = w.ofThreads s :=
    sum_congr rfl fun t ht => by
      rw [State.spawn_threads_of_ne s i task (Nat.ne_of_lt (mem_range.mp ht))]
  show ∑ t ∈ range (s.next + 1), w.ofThread ((s.spawn i task).threads t) = _
  rw [sum_range_succ, hold, State.spawn_threads_self]
  rfl

theorem ofThreads_dropThreads (s : State) (i : Int) :
    w.ofThreads (dropThreads s i) ≤ w.ofThreads s := by
  refine sum_le_sum fun t _ => ?_
  show w.ofThread ((s.threads t).filter _) ≤ _
  cases hth : s.threads t with
  | none => exact le_refl _
  | some th =>
    rw [Option.filter_some]
    split
    · exact le_refl _
    · exact Nat.zero_le _

theorem ofThreads_handleElection (s : State) (j nodeId : Int) :
    w.ofThreads (handleElection s j nodeId) ≤ w.ofThreads s + w.thread j .trigger := by
  unfold handleElection
  split
  · exact le_of_eq (w.ofThreads_spawn (noteAlive s j nodeId) j .trigger)
  · exact Nat.le_add_right _ _

/-- The weight of the cluster changes by that of the thread that runs, of what its
access leaves behind and of the request it sends. -/
theorem ofState_runTask {s : State} {t : Nat} {i : Int} {task : Task} (hfresh : Fresh s)
    (hthread : s.threads t = some (i, task)) :
    w.ofState (runTask s t i task) + w.thread i task =
      w.ofState s + w.ofEffect i (task.perform i (s.node i)) + w.ofFlight (request i task) := by
  have hflight : w.ofFlight (runTask s t i task).flight = w.ofFlight s.flight +
      (w.ofFlight (request i task) + w.ofFlight (task.perform i (s.node i)).sent) := by
    rw [flight_runTask, ofFlight_append, ofFlight_append]
  have hset := w.ofThreads_setThread (s.setNode i (task.perform i (s.node i)).node)
    (hfresh.lt hthread) ((task.perform i (s.node i)).task.map fun task' => (i, task'))
  have hthreads : w.ofThreads (runTask s t i task) =
      w.ofThreads ((s.setNode i (task.perform i (s.node i)).node).setThread t
        ((task.perform i (s.node i)).task.map fun task' => (i, task'))) +
      w.ofThread ((task.perform i (s.node i)).spawned.map fun task' => (i, task')) := by
    unfold runTask
    dsimp only
    cases (task.perform i (s.node i)).spawned with
    | none => rfl
    | some task' => exact w.ofThreads_spawn _ i task'
  have hrun : w.ofThread (s.threads t) = w.thread i task := by
    rw [hthread]
    rfl
  have hsame : w.ofThreads (s.setNode i (task.perform i (s.node i)).node) = w.ofThreads s := rfl
  change _ + w.ofThread (s.threads t) = _ at hset
  unfold ofState ofEffect
  omega

end Weights

/-! ## The steps of a cascade -/

/-- A step of a cascade: nobody calls in from outside, a message arrives at most
once, and no timer gets as far as its retry. -/
def InCascade (s : State) : Action → Prop
  | .run t => ∀ th ∈ s.threads t, th.2 ≠ .timerRetry
  | .answer _ => True
  | .deliver _ _ again => again = false
  | .lose _ _ => True
  | .crash _ => True
  | _ => False

instance (s : State) : (a : Action) → Decidable (InCascade s a)
  | .run t => inferInstanceAs (Decidable (∀ th ∈ s.threads t, _))
  | .deliver _ _ again => inferInstanceAs (Decidable (again = false))
  | .answer _ | .lose _ _ | .crash _ => .isTrue trivial
  | .trigger _ | .notice _ _ | .restart _ => .isFalse not_false

/-- What a step costs: an access, an exchange that is answered, or a message that
leaves the network. -/
def cost (access : Task → Nat) (arrival : Nat) (s : State) : Action → Nat
  | .run t => (s.threads t).elim 0 fun th => access th.2
  | .answer _ => 1
  | .deliver _ _ _ => arrival
  | .lose _ _ => arrival
  | _ => 0

/-- The weights pay for the cost of every step, among nodes that know `all`. -/
structure Pays (all : List NodeInfo) (w : Weights) (access : Task → Nat) (arrival : Nat) :
    Prop where
  continues : ∀ i e task task', e.allNodes = all → task ≠ .timerRetry →
    (∀ term, task ≠ .startTimer term) → Continues i e task task' →
    access task + (w.thread i task' + w.ofFlight (request i task)) ≤ w.thread i task
  ends : ∀ i task, task ≠ .timerRetry → access task ≤ w.thread i task
  startTimer : ∀ i term, access (.startTimer term) +
    (w.thread i .standBack + w.thread i (.timer term)) ≤ w.thread i (.startTimer term)
  broadcastLeader : ∀ i e, e.allNodes = all →
    access .broadcastLeader + w.ofFlight (Task.broadcastLeader.perform i e).sent ≤
      w.thread i .broadcastLeader
  answer : ∀ i term acked n rest,
    1 + (w.thread n.id .trigger + w.thread i (.storeAck term rest)) ≤
      w.thread i (.exchange term acked (n :: rest))
  leader : ∀ j msg, msg.type = .leader → arrival + w.thread j (.testLeader msg) ≤ w.message j msg
  election : ∀ j msg, msg.type = .election → arrival + w.thread j .trigger ≤ w.message j msg
  message : ∀ j msg, arrival ≤ w.message j msg

/-- An access is paid for, with all it leaves behind. -/
theorem Pays.run {all : List NodeInfo} {w : Weights} {access : Task → Nat} {arrival : Nat}
    (hpays : Pays all w access arrival) (i : Int) {e : LeaderElection} {task : Task}
    (hall : e.allNodes = all) (hretry : task ≠ .timerRetry) :
    access task + (w.ofEffect i (task.perform i e) + w.ofFlight (request i task)) ≤
      w.thread i task := by
  by_cases hbroadcast : task = .broadcastLeader
  · subst hbroadcast
    simpa [Weights.ofEffect, Weights.ofThread, Weights.ofFlight, request, Task.perform] using
      hpays.broadcastLeader i e hall
  by_cases htimer : ∃ term, task = .startTimer term
  · obtain ⟨term, rfl⟩ := htimer
    simpa [Weights.ofEffect, Weights.ofThread, Weights.ofFlight, request, Task.perform] using
      hpays.startTimer i term
  have hspawned : (task.perform i e).spawned = none := by
    by_contra hsome
    obtain ⟨task', htask'⟩ := Option.ne_none_iff_exists'.mp hsome
    obtain ⟨term, hterm, -⟩ := spawned_perform htask'
    exact htimer ⟨term, hterm⟩
  have hleaves : w.ofEffect i (task.perform i e) =
      w.ofThread ((task.perform i e).task.map fun task' => (i, task')) := by
    simp [Weights.ofEffect, hspawned, sent_perform hbroadcast, Weights.ofThread, Weights.ofFlight]
  rw [hleaves]
  cases htask : (task.perform i e).task with
  | none =>
    rw [request_of_ends htask]
    exact hpays.ends i task hretry
  | some task' =>
    exact hpays.continues i e task task' hall hretry (fun term h => htimer ⟨term, h⟩)
      (continues_of_perform htask)

theorem Pays.step {all : List NodeInfo} {w : Weights} {access : Task → Nat} {arrival : Nat}
    (hpays : Pays all w access arrival) {s s' : State} {a : Action} (hfresh : Fresh s)
    (hall : ∀ j, (s.node j).allNodes = all) (hcascade : InCascade s a)
    (hstep : step s a = some s') :
    cost access arrival s a + w.ofState s' ≤ w.ofState s := by
  cases step_cases hstep with
  | @run t i task hthread =>
    have hretry : task ≠ .timerRetry := hcascade (i, task) hthread
    have hpaid := hpays.run i (hall i) hretry
    have hrun := w.ofState_runTask hfresh hthread
    have hcost : cost access arrival s (.run t) = access task := by simp [cost, hthread]
    omega
  | @answer t i term acked n rest hthread hup =>
    have hpaid := hpays.answer i term acked n rest
    have hhandle := w.ofThreads_handleElection s n.id i
    have hlt : t < (handleElection s n.id i).next :=
      (hfresh.lt hthread).trans_le (next_le_handleElection s n.id i)
    have hset := w.ofThreads_setThread (handleElection s n.id i) hlt
      (some (i, .storeAck term rest))
    rw [threads_handleElection s n.id i (hfresh.lt hthread), hthread] at hset
    change _ + w.thread i (.exchange term acked (n :: rest)) =
      _ + w.thread i (.storeAck term rest) at hset
    show 1 + (_ + w.ofFlight (handleElection s n.id i).flight) ≤ _ + w.ofFlight s.flight
    rw [flight_handleElection]
    omega
  | @leader j msg again hmem htype =>
    obtain rfl : again = false := hcascade
    have hpaid := hpays.leader j msg htype
    have hspawn := w.ofThreads_spawn s j (.testLeader msg)
    have hgone := w.ofFlight_erase hmem
    show arrival + (w.ofThreads (s.spawn j (.testLeader msg)) + w.ofFlight (s.flight.erase _)) ≤
      w.ofThreads s + w.ofFlight s.flight
    omega
  | @election j msg again hmem htype =>
    obtain rfl : again = false := hcascade
    have hpaid := hpays.election j msg htype
    have hhandle := w.ofThreads_handleElection s j msg.nodeId
    have hgone := w.ofFlight_erase hmem
    show arrival + (w.ofThreads (handleElection s j msg.nodeId) +
      w.ofFlight (s.flight.erase _)) ≤ w.ofThreads s + w.ofFlight s.flight
    omega
  | @other j msg again hmem hleader helection =>
    obtain rfl : again = false := hcascade
    have hpaid := hpays.message j msg
    have hgone := w.ofFlight_erase hmem
    show arrival + (w.ofThreads s + w.ofFlight (s.flight.erase _)) ≤
      w.ofThreads s + w.ofFlight s.flight
    omega
  | @lose j msg hmem =>
    have hpaid := hpays.message j msg
    have hgone := w.ofFlight_erase hmem
    show arrival + (w.ofThreads s + w.ofFlight (s.flight.erase _)) ≤
      w.ofThreads s + w.ofFlight s.flight
    omega
  | @crash i =>
    have hdrop := w.ofThreads_dropThreads s i
    show 0 + (w.ofThreads (dropThreads s i) + w.ofFlight s.flight) ≤
      w.ofThreads s + w.ofFlight s.flight
    omega
  | trigger => exact hcascade.elim
  | notice => exact hcascade.elim
  | restart => exact hcascade.elim

/-- What the bounds rest on: thread names that are free, and nodes that know the
same nodes. -/
structure Knows (all : List NodeInfo) (s : State) : Prop where
  fresh : Fresh s
  allNodes : ∀ j, (s.node j).allNodes = all

theorem Knows.step {all : List NodeInfo} {s s' : State} {a : Action} (h : Knows all s)
    (hstep : Net.step s a = some s') : Knows all s' where
  fresh := h.fresh.step hstep
  allNodes := by
    intro j
    have halters := node_step hstep j
    generalize s'.node j = e at halters ⊢
    cases halters with
    | same => exact h.allNodes j
    | alive nodeAlive => exact h.allNodes j
    | runs ha hthread => exact (allNodes_perform j _ _).trans (h.allNodes j)
    | restarts ha => exact h.allNodes j

/-! ## The messages of a cascade -/

section Bounds

variable (all : List NodeInfo)

/-- A round on node `i` and all the rounds it may cause. -/
def roundWeight (i : Int) : Nat := RankWeight.rankWeight (all.map NodeInfo.id).toFinset i

/-- The `ELECTION` messages that may still come of a thread on node `i`. -/
def calls (i : Int) : Task → Nat
  | .onNodeFailure _ => roundWeight all i - 1
  | .trigger => roundWeight all i - 1
  | .nextTerm => roundWeight all i - 1
  | .resetAck _ => roundWeight all i - 1
  | .collect _ => roundWeight all i - 1
  | .exchange _ _ higher => (higher.map fun n => roundWeight all n.id).sum
  | .storeAck _ higher => (higher.map fun n => roundWeight all n.id).sum
  | _ => 0

/-- The weights that pay for `ELECTION` messages. -/
def callWeights : Weights where
  thread := calls all
  message := fun j msg => if msg.type = .election then roundWeight all j - 1 else 0

/-- The access that sends an `ELECTION` message. -/
def asks : Task → Nat
  | .exchange _ _ (_ :: _) => 1
  | _ => 0

variable {all}

/-- A round pays for the nodes it asks. -/
theorem sum_roundWeight_higherNodes (hids : (all.map NodeInfo.id).Nodup) (i : Int)
    {e : LeaderElection} (hall : e.allNodes = all) :
    ((e.higherNodes i).map fun n => roundWeight all n.id).sum < roundWeight all i := by
  have hsub : (e.higherNodes i).Sublist all := hall ▸ List.filter_sublist
  have habove : ∀ j ∈ (e.higherNodes i).map NodeInfo.id,
      j ∈ RankWeight.above (all.map NodeInfo.id).toFinset i := by
    intro j hj
    obtain ⟨n, hn, rfl⟩ := List.mem_map.mp hj
    have hhigher : i < n.id := by
      have := (List.mem_filter.mp hn).2
      simp only [Bool.and_eq_true, decide_eq_true_eq] at this
      exact this.1
    have hmem : n.id ∈ all.map NodeInfo.id := List.mem_map_of_mem (hsub.subset hn)
    exact mem_filter.mpr ⟨List.mem_toFinset.mpr hmem, hhigher⟩
  have hlt := RankWeight.sum_map_rankWeight_lt (hids.sublist (hsub.map NodeInfo.id)) habove
  rw [List.map_map] at hlt
  exact hlt

theorem roundWeight_pos (j : Int) : 0 < roundWeight all j := RankWeight.rankWeight_pos _ _

theorem pays_calls (hids : (all.map NodeInfo.id).Nodup) : Pays all (callWeights all) asks 0 where
  continues := by
    intro i e task task' hall hretry htimer hnext
    cases hnext with
    | collect =>
      have hpaid := sum_roundWeight_higherNodes hids i hall
      show 0 + (_ + 0) ≤ roundWeight all i - 1
      simp only [callWeights, calls]
      omega
    | @exchange term acked n rest =>
      have hpos : 0 < roundWeight all n.id := roundWeight_pos _
      show 1 + (calls all i (.exchange term acked rest) + (roundWeight all n.id - 1 + 0)) ≤ _
      simp only [callWeights, calls, List.map_cons, List.sum_cons]
      omega
    | timerRetry => exact absurd rfl hretry
    | startTimer => exact absurd rfl (htimer _)
    | _ => simp [callWeights, calls, asks, request, Weights.ofFlight]
  ends := by
    intro i task hretry
    cases task with
    | exchange term acked higher =>
      cases higher with
      | nil => exact Nat.zero_le _
      | cons n rest =>
        have hpos : 0 < roundWeight all n.id := roundWeight_pos _
        simp only [callWeights, calls, asks, List.map_cons, List.sum_cons]
        omega
    | _ => exact Nat.zero_le _
  startTimer := fun i term => le_refl 0
  broadcastLeader := by
    intro i e hall
    have hnone : ∀ p ∈ (Task.broadcastLeader.perform i e).sent,
        (callWeights all).message p.1 p.2 = 0 := by
      intro p hp
      obtain ⟨n, -, rfl⟩ := List.mem_map.mp hp
      rfl
    show 0 + _ ≤ 0
    rw [Weights.ofFlight, List.map_congr_left hnone]
    simp
  answer := by
    intro i term acked n rest
    have hpos : 0 < roundWeight all n.id := roundWeight_pos _
    simp only [callWeights, calls, List.map_cons, List.sum_cons]
    omega
  leader := fun j msg htype => Nat.zero_le _
  election := by
    intro j msg htype
    simp [callWeights, htype, calls]
  message := fun j msg => Nat.zero_le _

/-! ## The steps of a cascade -/

variable (all)

/-- What is left of a round or of a handler when nobody is asked any more. -/
def remaining : Task → Nat
  | .onNodeFailure _ => 7 * all.length + 11
  | .trigger => 7 * all.length + 10
  | .nextTerm => 7 * all.length + 9
  | .resetAck _ => 7 * all.length + 8
  | .collect _ => 7 * all.length + 7
  | .storeAck _ _ => 7 * all.length + 7
  | .exchange _ _ _ => 7 * all.length + 6
  | .testAck _ _ => 7 * all.length + 5
  | .becomeLeader => 7 * all.length + 3
  | .endRound => 7 * all.length + 2
  | .broadcastLeader => 7 * all.length + 1
  | .startTimer _ => 4
  | .standBack => 1
  | .timer _ => 2
  | .timerTerm _ => 1
  | .timerRetry => 0
  | .testLeader _ => 6
  | .testTerm _ => 5
  | .storeLeader _ => 4
  | .storeTerm _ => 3
  | .clearProgress _ => 2
  | .noteAlive _ => 1

/-- An announcement is handled in six accesses. -/
def remainingMessage (msg : Message) : Nat :=
  match msg.type with
  | .leader => 7
  | .election => 7 * all.length + 11
  | _ => 1

/-- The steps that one `ELECTION` message is worth. -/
def price : Nat := 7 * all.length + 12

/-- The weights that pay for steps. -/
def stepWeights : Weights where
  thread := fun i task => price all * calls all i task + remaining all task
  message := fun j msg => price all * (callWeights all).message j msg + remainingMessage all msg

theorem ofFlight_stepWeights (flight : List (Int × Message)) :
    (stepWeights all).ofFlight flight = price all * (callWeights all).ofFlight flight +
      (flight.map fun p => remainingMessage all p.2).sum := by
  induction flight with
  | nil => rfl
  | cons p rest ih =>
    simp only [Weights.ofFlight, List.map_cons, List.sum_cons, Nat.mul_add] at ih ⊢
    rw [ih]
    simp only [stepWeights]
    omega

/-- What is left shrinks with every access, unless a node is asked. -/
theorem remaining_continues {i : Int} {e : LeaderElection} {task task' : Task}
    (hretry : task ≠ .timerRetry) (hnext : Continues i e task task') :
    1 + remaining all task' + ((request i task).map fun p => remainingMessage all p.2).sum ≤
      price all * asks task + remaining all task := by
  cases hnext with
  | timerRetry => exact absurd rfl hretry
  | exchange =>
    simp [remaining, asks, request, price, remainingMessage, electionMsg]
    omega
  | _ => simp [remaining, asks, request] <;> omega

variable {all}

theorem pays_steps (hids : (all.map NodeInfo.id).Nodup) :
    Pays all (stepWeights all) (fun _ => 1) 1 where
  continues := by
    intro i e task task' hall hretry htimer hnext
    have hcalls := Nat.mul_le_mul_left (price all)
      ((pays_calls hids).continues i e task task' hall hretry htimer hnext)
    rw [Nat.mul_add, Nat.mul_add] at hcalls
    have hleft := remaining_continues all hretry hnext
    rw [ofFlight_stepWeights]
    simp only [stepWeights]
    simp only [callWeights] at hcalls ⊢
    omega
  ends := by
    intro i task hretry
    have hleft : 1 ≤ remaining all task := by
      cases task with
      | timerRetry => exact absurd rfl hretry
      | _ => simp [remaining]
    exact le_trans hleft (Nat.le_add_left _ _)
  startTimer := by
    intro i term
    simp [stepWeights, calls, remaining]
  broadcastLeader := by
    intro i e hall
    have hcalls := (pays_calls hids).broadcastLeader i e hall
    have hsent : ((Task.broadcastLeader.perform i e).sent.map fun p =>
        remainingMessage all p.2).sum ≤ 7 * all.length := by
      have hseven : ∀ p ∈ (Task.broadcastLeader.perform i e).sent,
          remainingMessage all p.2 = 7 := by
        intro p hp
        obtain ⟨n, -, rfl⟩ := List.mem_map.mp hp
        rfl
      have hlength : (Task.broadcastLeader.perform i e).sent.length ≤ all.length := by
        simp only [Task.perform, List.length_map, hall]
        exact List.length_filter_le _ _
      rw [List.map_congr_left hseven, List.map_const', List.sum_replicate_nat]
      omega
    have hnone : (callWeights all).ofFlight (Task.broadcastLeader.perform i e).sent = 0 :=
      Nat.le_zero.mp ((Nat.le_add_left _ _).trans hcalls)
    rw [ofFlight_stepWeights, hnone]
    simp only [stepWeights, calls, remaining]
    omega
  answer := by
    intro i term acked n rest
    have hcalls := Nat.mul_le_mul_left (price all)
      ((pays_calls hids).answer i term acked n rest)
    rw [Nat.mul_add, Nat.mul_add] at hcalls
    have hprice : price all = 7 * all.length + 12 := rfl
    simp only [stepWeights, remaining]
    simp only [callWeights] at hcalls
    omega
  leader := by
    intro j msg htype
    simp [stepWeights, callWeights, calls, remaining, remainingMessage, htype]
  election := by
    intro j msg htype
    simp [stepWeights, callWeights, calls, remaining, remainingMessage, htype]
    omega
  message := by
    intro j msg
    have hleft : 1 ≤ remainingMessage all msg := by
      unfold remainingMessage
      split <;> omega
    exact le_trans hleft (Nat.le_add_left _ _)

end Bounds

/-! ## What one call causes -/

def Event.isAsked : Event → Bool
  | .asked _ _ => true
  | _ => false

def Action.isCrash : Action → Bool
  | .crash _ => true
  | _ => false

theorem countP_emit_le (s : State) (a : Action) :
    (emit s a).countP Event.isAsked ≤ cost asks 0 s a := by
  cases a with
  | run t =>
    simp only [emit, cost]
    split
    · rename_i hthread
      rw [hthread]
      exact le_refl 1
    · exact Nat.zero_le _
    · exact Nat.zero_le _
  | answer t =>
    simp only [emit, cost]
    split
    · exact le_refl 1
    · exact Nat.zero_le _
  | _ => exact le_refl 0

/-- Every step but a crash costs one. -/
theorem countP_action_le {s s' : State} {a : Action} (hcascade : InCascade s a)
    (hstep : step s a = some s') :
    [a].countP (fun a => !a.isCrash) ≤ cost (fun _ => 1) 1 s a := by
  cases step_cases hstep with
  | run hthread =>
    simp only [cost, hthread]
    exact le_refl 1
  | crash => exact le_refl 0
  | trigger => exact hcascade.elim
  | notice => exact hcascade.elim
  | restart => exact hcascade.elim
  | _ => exact le_refl 1

section Run

variable {all : List NodeInfo} {s t : State} {actions : List Action}

/-- The weight at the start bounds the `ELECTION` messages of a run. -/
theorem asked_add_ofState_le (hids : (all.map NodeInfo.id).Nodup) (hknows : Knows all s)
    (hcascade : Runs.Along step InCascade s actions)
    (hrun : Runs.exec step s actions = some t) :
    (Runs.trace step emit s actions).countP Event.isAsked + (callWeights all).ofState t ≤
      (callWeights all).ofState s := by
  refine Runs.exec_charge (fun u a u' _ hu hstep => hu.step hstep) ?_ hknows hcascade hrun
  intro u a u' ha hu hstep
  have hpaid := (pays_calls hids).step hu.fresh hu.allNodes ha hstep
  have hcost := countP_emit_le u a
  omega

/-- The weight at the start bounds the steps of a run, crashes apart. -/
theorem steps_add_ofState_le (hids : (all.map NodeInfo.id).Nodup) (hknows : Knows all s)
    (hcascade : Runs.Along step InCascade s actions)
    (hrun : Runs.exec step s actions = some t) :
    actions.countP (fun a => !a.isCrash) + (stepWeights all).ofState t ≤
      (stepWeights all).ofState s := by
  have hpay : ∀ u a u', InCascade u a → Knows all u → step u a = some u' →
      [a].countP (fun a => !a.isCrash) + (stepWeights all).ofState u' ≤
        (stepWeights all).ofState u := by
    intro u a u' ha hu hstep
    have hpaid := (pays_steps hids).step hu.fresh hu.allNodes ha hstep
    have hcost := countP_action_le ha hstep
    omega
  have hbound := Runs.exec_charge (fun u a u' _ hu hstep => hu.step hstep) hpay hknows hcascade hrun
  rwa [Runs.trace_actions hrun] at hbound

end Run

theorem roundWeight_eq {all : List NodeInfo} (hids : (all.map NodeInfo.id).Nodup) (i : Int) :
    roundWeight all i = 2 ^ (all.filter fun n => decide (i < n.id)).length := by
  unfold roundWeight RankWeight.rankWeight
  rw [RankWeight.card_above_toFinset hids, List.filter_map, List.length_map]
  rfl

/-- Where only timers wait, a thread weighs what they weigh. -/
theorem ofState_spawn_le {w : Weights} {s : State} {N : Nat} (hquiet : s.Quiescent)
    (htimer : ∀ i term, w.thread i (.timer term) ≤ N) (i : Int) (task : Task) :
    w.ofState (s.spawn i task) ≤ N * s.next + w.thread i task := by
  have hthreads : w.ofThreads s ≤ N * s.next := by
    have hone : ∀ t ∈ range s.next, w.ofThread (s.threads t) ≤ N := by
      intro t _
      cases hth : s.threads t with
      | none => exact Nat.zero_le _
      | some th =>
        obtain ⟨term, hterm⟩ := hquiet.2 t th hth
        show w.thread th.1 th.2 ≤ N
        rw [hterm]
        exact htimer _ _
    have hsum := sum_le_card_nsmul (range s.next) _ N hone
    rw [card_range, nsmul_eq_mul, Nat.cast_id, Nat.mul_comm] at hsum
    exact hsum
  have hflight : w.ofFlight (s.spawn i task).flight = 0 := by
    show w.ofFlight s.flight = 0
    rw [hquiet.1]
    rfl
  rw [Weights.ofState, hflight, w.ofThreads_spawn]
  omega

/-- Somebody calls `trigger_election` on a node with `r` nodes above it, while no
other round runs.  Whatever the atomics of the nodes and whichever of them are or
go down, at most `2 ^ r - 1` `ELECTION` messages are sent, and the cascade ends:
it has no more steps than the bound, crashes apart. -/
theorem cascade_ends {all : List NodeInfo} (hids : (all.map NodeInfo.id).Nodup)
    {s s' t : State} {i : Int} {actions : List Action} (hfresh : Fresh s) (hquiet : s.Quiescent)
    (hall : ∀ j, (s.node j).allNodes = all) (hcall : step s (.trigger i) = some s')
    (hcascade : Runs.Along step InCascade s' actions)
    (hrun : Runs.exec step s' actions = some t) :
    (Runs.trace step emit s' actions).countP Event.isAsked ≤
        2 ^ (all.filter fun n => decide (i < n.id)).length - 1 ∧
      actions.countP (fun a => !a.isCrash) ≤
        (7 * all.length + 12) * 2 ^ (all.filter fun n => decide (i < n.id)).length +
          2 * s.next := by
  have hknows : Knows all s' := Knows.step ⟨hfresh, hall⟩ hcall
  obtain rfl : s' = s.spawn i .trigger := by
    cases step_cases hcall
    rfl
  constructor
  · have hbound := asked_add_ofState_le hids hknows hcascade hrun
    have hstart := ofState_spawn_le (w := callWeights all) hquiet (fun _ _ => le_refl 0) i .trigger
    have hweight : (callWeights all).thread i .trigger = roundWeight all i - 1 := rfl
    rw [roundWeight_eq hids] at hweight
    omega
  · have hbound := steps_add_ofState_le hids hknows hcascade hrun
    have hstart := ofState_spawn_le (w := stepWeights all) hquiet (fun _ _ => le_refl 2) i .trigger
    have hweight : (stepWeights all).thread i .trigger ≤ price all * roundWeight all i := by
      show price all * (roundWeight all i - 1) + (7 * all.length + 10) ≤ _
      have hpos : 0 < roundWeight all i := roundWeight_pos i
      obtain ⟨k, hk⟩ := Nat.exists_eq_succ_of_ne_zero hpos.ne'
      rw [hk, Nat.succ_sub_one, Nat.mul_succ]
      exact Nat.add_le_add_left (Nat.add_le_add_left (by decide) _) _
    rw [roundWeight_eq hids] at hweight
    unfold price at hweight
    omega

/-- Three nodes that are launched and called by nobody yet. -/
def three : State := launch [launchNode 1, launchNode 2, launchNode 3] fun _ => true

/-- Node 1 asks nodes 2 and 3, and node 2 asks node 3. -/
def allAsked : List Action :=
  [List.replicate 4 (.run 0), [.answer 0, .run 0, .answer 0, .run 0], List.replicate 4 (.run 1),
    [.answer 1]].flatten

theorem cascade_ends_three :
    ∃ s t, step three (.trigger 1) = some s ∧ Runs.exec step s allAsked = some t ∧
      (Runs.trace step emit s allAsked).countP Event.isAsked = 3 ∧
      (Runs.trace step emit s allAsked).countP Event.isAsked ≤ 2 ^ 2 - 1 ∧
      allAsked.countP (fun a => !a.isCrash) ≤ 33 * 2 ^ 2 := by
  have hdata : ((step three (.trigger 1)).bind fun s => (Runs.exec step s allAsked).map fun _ =>
      ((Runs.trace step emit s allAsked).countP Event.isAsked,
        decide (Runs.Along step InCascade s allAsked))) = some (3, true) := by
    decide +kernel
  obtain ⟨s, hcall, hdata⟩ := Option.bind_eq_some_iff.mp hdata
  obtain ⟨t, hrun, hdata⟩ := Option.map_eq_some_iff.mp hdata
  obtain ⟨hasked, hcascade⟩ := Prod.mk.inj hdata
  have hquiet : three.Quiescent := ⟨rfl, fun _ _ hnone => absurd hnone (by simp [three, launch])⟩
  have hids : ([launchNode 1, launchNode 2, launchNode 3].map NodeInfo.id).Nodup := by decide
  have hbound := cascade_ends hids (Fresh.launch _ _) hquiet (fun _ => rfl) hcall
    (of_decide_eq_true hcascade) hrun
  exact ⟨s, t, hcall, hrun, hasked, hbound⟩

end Net
end Election
end DistributedDb
