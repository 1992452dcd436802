import Mathlib.Algebra.Group.Nat.Defs
import DistributedDb.Cluster.ElectionSafety

/-
Leaders and terms come out of rounds.

The nodes talk to each other only: nobody else sends an `ELECTION` or `LEADER`
message.  Then whoever is recorded as the leader anywhere has won a round before,
and no term, in an atomic or in a message, is larger than the number of the rounds
begun so far.  Until there are enough of them for a counter to wrap around, no term
is negative either.
-/

namespace DistributedDb
namespace Election
namespace Net

/-- What a round does that other nodes can hear of later. -/
inductive Deed where
  | begins (i : Int)
  | leads (i : Int)
  deriving DecidableEq

def deeds (s : State) : Action → List Deed
  | .run t =>
    match s.threads t with
    | some (i, .nextTerm) => [.begins i]
    | some (i, .becomeLeader) => [.leads i]
    | _ => []
  | _ => []

def Deed.isBegin : Deed → Bool
  | .begins _ => true
  | .leads _ => false

/-- The rounds begun. -/
def rounds (seen : List Deed) : Nat := seen.countP Deed.isBegin

/-- A term that a counter can have reached. -/
structure EarnedTerm (seen : List Deed) (term : Int) : Prop where
  low : -2 ^ 31 ≤ term
  nonneg : rounds seen < 2 ^ 31 → 0 ≤ term
  le : term ≤ rounds seen

/-- An announcement of a node that has won a round. -/
structure EarnedMsg (seen : List Deed) (msg : Message) : Prop where
  leads : .leads msg.nodeId ∈ seen
  term : EarnedTerm seen msg.term

structure EarnedNode (seen : List Deed) (e : LeaderElection) : Prop where
  leader : e.currentLeaderId = -1 ∨ .leads e.currentLeaderId ∈ seen
  term : EarnedTerm seen e.electionTerm

def EarnedTask (seen : List Deed) (i : Int) : Task → Prop
  | .endRound | .broadcastLeader => .leads i ∈ seen
  | .testLeader msg | .testTerm msg | .storeLeader msg | .storeTerm msg => EarnedMsg seen msg
  | _ => True

structure Earned (seen : List Deed) (s : State) : Prop where
  node : ∀ i, EarnedNode seen (s.node i)
  thread : ∀ t i task, s.threads t = some (i, task) → EarnedTask seen i task
  flight : ∀ p ∈ s.flight, p.2.type = .leader → EarnedMsg seen p.2

variable {seen more : List Deed} {s s' : State}

theorem rounds_append : rounds (seen ++ more) = rounds seen + rounds more :=
  List.countP_append

theorem rounds_le_append : rounds seen ≤ rounds (seen ++ more) := by
  rw [rounds_append]
  omega

theorem EarnedTerm.mono {term : Int} (h : EarnedTerm seen term) :
    EarnedTerm (seen ++ more) term where
  low := h.low
  nonneg hfew := h.nonneg (lt_of_le_of_lt rounds_le_append hfew)
  le := h.le.trans (Int.ofNat_le.mpr rounds_le_append)

/-- The next round of a node. -/
theorem EarnedTerm.next {term : Int} (h : EarnedTerm seen term)
    (hbegun : rounds (seen ++ more) = rounds seen + 1) :
    EarnedTerm (seen ++ more) (LeaderElection.nextTerm term) where
  low := LeaderElection.neg_le_nextTerm term
  nonneg hfew := by
    have hterm := h.le
    have hnonneg := h.nonneg (by omega)
    rw [LeaderElection.nextTerm_of_lt h.low (by omega)]
    omega
  le := by
    have hterm := h.le
    have hnext := LeaderElection.nextTerm_le h.low
    omega

theorem EarnedMsg.mono {msg : Message} (h : EarnedMsg seen msg) : EarnedMsg (seen ++ more) msg where
  leads := List.mem_append_left more h.leads
  term := h.term.mono

theorem EarnedNode.mono {e : LeaderElection} (h : EarnedNode seen e) :
    EarnedNode (seen ++ more) e where
  leader := h.leader.imp_right (List.mem_append_left more)
  term := h.term.mono

theorem EarnedTask.mono {i : Int} {task : Task} (h : EarnedTask seen i task) :
    EarnedTask (seen ++ more) i task := by
  cases task with
  | endRound => exact List.mem_append_left more h
  | broadcastLeader => exact List.mem_append_left more h
  | testLeader msg => exact EarnedMsg.mono h
  | testTerm msg => exact EarnedMsg.mono h
  | storeLeader msg => exact EarnedMsg.mono h
  | storeTerm msg => exact EarnedMsg.mono h
  | _ => trivial

/-! ## One access -/

section Access

variable {t : Nat} {i : Int} {task : Task} (h : Earned seen s)
  (hthread : s.threads t = some (i, task))
include h hthread

theorem earnedNode_perform :
    EarnedNode (seen ++ deeds s (.run t)) (task.perform i (s.node i)).node := by
  have hnode : EarnedNode (seen ++ deeds s (.run t)) (s.node i) := (h.node i).mono
  have htask : EarnedTask (seen ++ deeds s (.run t)) i task := (h.thread t i task hthread).mono
  constructor
  · rw [currentLeaderId_perform]
    cases task with
    | becomeLeader =>
      right
      simp [deeds, hthread]
    | storeLeader msg => exact Or.inr htask.leads
    | _ => exact hnode.leader
  · rw [electionTerm_perform]
    cases task with
    | nextTerm =>
      refine (h.node i).term.next ?_
      rw [rounds_append]
      simp [deeds, hthread, rounds, Deed.isBegin]
    | storeTerm msg => exact htask.term
    | _ => exact hnode.term

theorem earnedTask_continues {task' : Task}
    (hnext : (task.perform i (s.node i)).task = some task') :
    EarnedTask (seen ++ deeds s (.run t)) i task' := by
  have htask : EarnedTask (seen ++ deeds s (.run t)) i task := (h.thread t i task hthread).mono
  cases continues_of_perform hnext with
  | becomeLeader =>
    show Deed.leads i ∈ _
    simp [deeds, hthread]
  | endRound => exact htask
  | higherId hid => exact htask
  | lowerId => exact htask
  | newerTerm hterm => exact htask
  | storeLeader => exact htask
  | _ => trivial

/-- A won round is announced with a term of the node. -/
theorem earnedMsg_sent {p : Int × Message}
    (hp : p ∈ request i task ++ (task.perform i (s.node i)).sent) (htype : p.2.type = .leader) :
    EarnedMsg seen p.2 := by
  rcases List.mem_append.mp hp with hp | hp
  · cases task with
    | exchange term acked higher =>
      cases higher with
      | nil => exact absurd hp List.not_mem_nil
      | cons n rest =>
        rw [List.mem_singleton.mp hp] at htype
        exact absurd htype (by simp [electionMsg])
    | _ => exact absurd hp List.not_mem_nil
  · by_cases hbroadcast : task = .broadcastLeader
    · subst hbroadcast
      have hleads : Deed.leads i ∈ seen := h.thread t i _ hthread
      obtain ⟨n, -, rfl⟩ := List.mem_map.mp hp
      exact ⟨hleads, (h.node i).term⟩
    · rw [sent_perform hbroadcast] at hp
      exact absurd hp List.not_mem_nil

theorem earned_runTask : Earned (seen ++ deeds s (.run t)) (runTask s t i task) where
  node j := by
    rw [node_runTask]
    by_cases hj : j = i
    · rw [hj, Function.update_self]
      exact earnedNode_perform h hthread
    · rw [Function.update_of_ne hj]
      exact (h.node j).mono
  thread t' j task' ht' := by
    rcases origin_runTask ht' with ⟨-, hold⟩ | ⟨rfl, hnext | hspawned⟩
    · exact (h.thread t' j task' hold).mono
    · exact earnedTask_continues h hthread hnext
    · obtain ⟨term, -, rfl⟩ := spawned_perform hspawned
      trivial
  flight p hp htype := by
    rw [flight_runTask] at hp
    rcases List.mem_append.mp hp with hp | hp
    · exact (h.flight p hp htype).mono
    · exact (earnedMsg_sent h hthread hp htype).mono

end Access

/-! ## Runs -/

theorem Earned.spawn (h : Earned seen s) {i : Int} {task : Task} (htask : EarnedTask seen i task) :
    Earned seen (s.spawn i task) where
  node := h.node
  thread t j task' ht := by
    by_cases hnext : t = s.next
    · rw [hnext, State.spawn_threads_self] at ht
      obtain ⟨rfl, rfl⟩ := Prod.mk.inj (Option.some.inj ht)
      exact htask
    · rw [State.spawn_threads_of_ne _ _ _ hnext] at ht
      exact h.thread t j task' ht
  flight := h.flight

theorem Earned.setThread (h : Earned seen s) (t : Nat) {i : Int} {task : Task}
    (htask : EarnedTask seen i task) : Earned seen (s.setThread t (some (i, task))) where
  node := h.node
  thread t' j task' ht' := by
    change Function.update s.threads t (some (i, task)) t' = some (j, task') at ht'
    by_cases ht : t' = t
    · rw [ht, Function.update_self] at ht'
      obtain ⟨rfl, rfl⟩ := Prod.mk.inj (Option.some.inj ht')
      exact htask
    · rw [Function.update_of_ne ht] at ht'
      exact h.thread t' j task' ht'
  flight := h.flight

theorem Earned.setNode (h : Earned seen s) (i : Int) {e : LeaderElection} (he : EarnedNode seen e) :
    Earned seen (s.setNode i e) where
  node := (Function.forall_update_iff s.node fun _ e => EarnedNode seen e).mpr
    ⟨he, fun j _ => h.node j⟩
  thread := h.thread
  flight := h.flight

theorem Earned.handleElection (h : Earned seen s) (j nodeId : Int) :
    Earned seen (Net.handleElection s j nodeId) := by
  have hnode := h.node j
  have hnote : Earned seen (noteAlive s j nodeId) :=
    h.setNode j ⟨hnode.leader, hnode.term⟩
  unfold Net.handleElection
  split
  · exact hnote.spawn trivial
  · exact hnote

/-- Messages leave the network, and nothing else changes. -/
theorem Earned.flight_sub (h : Earned seen s) (hnode : s'.node = s.node)
    (hthreads : s'.threads = s.threads) (hflight : ∀ p ∈ s'.flight, p ∈ s.flight) :
    Earned seen s' where
  node := hnode ▸ h.node
  thread := hthreads ▸ h.thread
  flight p hp := h.flight p (hflight p hp)

theorem Earned.dropThreads (h : Earned seen s) (i : Int) : Earned seen (Net.dropThreads s i) where
  node := h.node
  thread t j task ht := h.thread t j task (Option.mem_filter_iff.mp ht).1
  flight := h.flight

theorem mem_of_again {p q : Int × Message} {flight : List (Int × Message)} {again : Bool}
    (h : p ∈ if again then flight else flight.erase q) : p ∈ flight := by
  split at h
  · exact h
  · exact List.mem_of_mem_erase h

theorem earnedNode_fresh (allNodes : List NodeInfo) : EarnedNode seen (fresh allNodes) :=
  ⟨Or.inl rfl, show -2 ^ 31 ≤ (0 : Int) by decide, fun _ => le_refl _, Int.natCast_nonneg _⟩

theorem deeds_of_ne_run {a : Action} (ha : ∀ t, a ≠ .run t) : deeds s a = [] := by
  cases a with
  | run t => exact absurd rfl (ha t)
  | _ => rfl

theorem earned_of_ne_run {a : Action} (ha : ∀ t, a ≠ .run t) (h : Earned seen s)
    (hstep : step s a = some s') : Earned seen s' := by
  cases step_cases hstep with
  | run hthread => exact absurd rfl (ha _)
  | answer hthread hup => exact (h.handleElection _ _).setThread _ trivial
  | @leader j msg again hmem htype =>
    have hmsg : EarnedTask seen j (.testLeader msg) := h.flight _ hmem htype
    exact (h.spawn hmsg).flight_sub rfl rfl fun _ => mem_of_again
  | @election j msg again hmem htype =>
    refine (h.handleElection j msg.nodeId).flight_sub rfl rfl fun p hp => ?_
    rw [flight_handleElection]
    exact mem_of_again hp
  | other hmem hleader helection => exact h.flight_sub rfl rfl fun _ => mem_of_again
  | lose hmem => exact h.flight_sub rfl rfl fun _ => List.mem_of_mem_erase
  | trigger => exact h.spawn trivial
  | notice => exact h.spawn trivial
  | @crash i => exact (h.dropThreads i).flight_sub rfl rfl fun _ hp => hp
  | @restart i =>
    have hfresh := (h.dropThreads i).setNode i (earnedNode_fresh (s.node i).allNodes)
    have hspawn : Earned seen (((Net.dropThreads s i).setNode i (fresh (s.node i).allNodes)).spawn i
        .trigger) := hfresh.spawn trivial
    exact hspawn.flight_sub rfl rfl fun _ hp => hp

theorem earned_step {a : Action} (h : Earned seen s) (hstep : step s a = some s') :
    Earned (seen ++ deeds s a) s' := by
  by_cases hrun : ∃ t, a = .run t
  · obtain ⟨t, rfl⟩ := hrun
    obtain ⟨⟨i, task⟩, hthread, rfl⟩ := Option.map_eq_some_iff.mp hstep
    exact earned_runTask h hthread
  · have ha : ∀ t, a ≠ .run t := fun t heq => hrun ⟨t, heq⟩
    rw [deeds_of_ne_run ha, List.append_nil]
    exact earned_of_ne_run ha h hstep

/-- In every run of the election, with any delays, losses, repetitions, crashes and
restarts: the leader a node records has won a round, and its term is at most the
number of rounds begun, and not negative before `2 ^ 31` of them. -/
theorem leaders_and_terms_are_earned {allNodes : List NodeInfo} {up : Int → Bool}
    {actions : List Action} (hrun : Runs.exec step (launch allNodes up) actions = some s)
    (i : Int) :
    ((s.node i).currentLeaderId = -1 ∨
      .leads (s.node i).currentLeaderId ∈
        Runs.trace step deeds (launch allNodes up) actions) ∧
    (s.node i).electionTerm ≤ rounds (Runs.trace step deeds (launch allNodes up) actions) ∧
    (rounds (Runs.trace step deeds (launch allNodes up) actions) < 2 ^ 31 →
      0 ≤ (s.node i).electionTerm) := by
  have hlaunch : Earned [] (launch allNodes up) :=
    ⟨fun _ => earnedNode_fresh allNodes, fun _ _ _ ht => absurd ht (by simp [launch]),
      by simp [launch]⟩
  have hearned := Runs.exec_trace (fun _ _ _ _ (_ : True) h hs => earned_step h hs) hlaunch
    (Runs.along_of_forall (fun _ _ => trivial) _ _) hrun
  exact ⟨(hearned.node i).leader, (hearned.node i).term.le, (hearned.node i).term.nonneg⟩

/-- Node 2 hears of the round that node 1 has won. -/
def twoHears : List Action :=
  oneLeads ++ .deliver 2 (leaderMsg 1 1) false :: List.replicate 3 (.run 1)

theorem leaders_and_terms_are_earned_two :
    ∃ s, Runs.exec step two twoHears = some s ∧ (s.node 2).currentLeaderId = 1 ∧
      (s.node 2).electionTerm = 1 ∧ .leads 1 ∈ Runs.trace step deeds two twoHears ∧
      1 ≤ rounds (Runs.trace step deeds two twoHears) := by
  have hdata : (Runs.exec step two twoHears).map
      (fun s => ((s.node 2).currentLeaderId, (s.node 2).electionTerm)) = some (1, 1) := by
    decide +kernel
  obtain ⟨s, hrun, hdata⟩ := Option.map_eq_some_iff.mp hdata
  obtain ⟨hleader, hterm⟩ := Prod.mk.inj hdata
  obtain ⟨hled, hbegun, -⟩ := leaders_and_terms_are_earned hrun 2
  rw [hleader] at hled
  rw [hterm] at hbegun
  refine ⟨s, hrun, hleader, hterm, hled.resolve_left (by decide), ?_⟩
  exact Int.ofNat_le.mp hbegun

end Net
end Election
end DistributedDb
