import DistributedDb.Node.ElectionNet

/-
What an election keeps over a network without guarantees, and when.

A `LEADER` handler tests the id and then the term of the announcement, and one
success is enough.  It stores both afterwards, with other threads in between.  So
an old announcement is accepted for its id, and one of a lower node for its term.
The conditions below say at which steps this happens; without them the atomics
keep the order that a bully election is to have.  In every run the leader and the
term of a node go back only for an announcement that has passed one of the tests.
-/

namespace DistributedDb
namespace Election
namespace Net

variable {s s' : State} {a : Action}

/-! ## The order of the leaders -/

/-- A node has no leader, or one that is not below itself. -/
def LeaderNotBelow (i : Int) (e : LeaderElection) : Prop :=
  e.currentLeaderId = -1 ∨ i ≤ e.currentLeaderId

/-- An announcement that has passed its test is not of a lower node. -/
def StoresNotBelow (i : Int) (_ : LeaderElection) : Task → Prop
  | .storeLeader msg => i ≤ msg.nodeId
  | _ => True

/-- The announcement that a thread is about to test for its id. -/
def testsId : Task → Option Message
  | .testLeader msg => some msg
  | _ => none

/-- The announcement that a thread is about to test for its term. -/
def testsTerm : Task → Option Message
  | .testTerm msg => some msg
  | _ => none

/-- An announcement of a lower node meets a leader with no lower id at its first
test, and a term that is not older at its second. -/
def RejectsLower (s : State) : Action → Prop
  | .run t => ∀ th ∈ s.threads t,
      (∀ msg ∈ testsId th.2, msg.nodeId < th.1 →
        msg.nodeId ≤ (s.node th.1).currentLeaderId) ∧
      ∀ msg ∈ testsTerm th.2, msg.nodeId < th.1 → msg.term ≤ (s.node th.1).electionTerm
  | _ => True

instance (s : State) : (a : Action) → Decidable (RejectsLower s a)
  | .run t => inferInstanceAs (Decidable (∀ th ∈ s.threads t, _))
  | .answer _ | .deliver _ _ _ | .lose _ _ | .trigger _ | .notice _ _ | .crash _ | .restart _ =>
    .isTrue trivial

theorem local_notBelow : Local LeaderNotBelow StoresNotBelow where
  alive := fun _ _ _ h => h
  aliveThread := fun _ _ _ task h => by cases task <;> exact h
  fresh := fun _ _ => Or.inl rfl
  trigger := fun _ _ => trivial
  onNodeFailure := fun _ _ _ => trivial
  storeAck := fun _ _ _ _ => trivial
  testLeader := fun _ _ _ => trivial

theorem keeps_notBelow (h : Holds LeaderNotBelow StoresNotBelow s) {t : Nat} {i : Int}
    {task : Task} (hthread : s.threads t = some (i, task)) (hok : RejectsLower s (.run t)) :
    Keeps LeaderNotBelow StoresNotBelow s t i task where
  node := by
    have hnode := h.node i
    have htask := h.thread t i task hthread
    rw [LeaderNotBelow, currentLeaderId_perform]
    cases task with
    | becomeLeader => exact Or.inr (le_refl i)
    | storeLeader msg => exact Or.inr htask
    | _ => exact hnode
  others := by
    intro t' task' _ ht'
    have htask := h.thread t' i task' ht'
    cases task' <;> exact htask
  continues := by
    intro task' htask'
    obtain ⟨hid, hterm⟩ := hok _ hthread
    cases continues_of_perform htask' with
    | @higherId msg hhigher =>
      show i ≤ msg.nodeId
      by_contra hlow
      have : msg.nodeId ≤ (s.node i).currentLeaderId := hid msg rfl (by omega)
      omega
    | @newerTerm msg hnewer =>
      show i ≤ msg.nodeId
      by_contra hlow
      have : msg.term ≤ (s.node i).electionTerm := hterm msg rfl (by omega)
      omega
    | _ => trivial
  spawns := by
    intro task' hspawn
    obtain ⟨term, -, rfl⟩ := spawned_perform hspawn
    trivial

/-- In every run whose announcements of lower nodes fail both tests, no node ever
has a leader below itself. -/
theorem leader_not_below {allNodes : List NodeInfo} {up : Int → Bool} {actions : List Action}
    (hok : Runs.Along step RejectsLower (launch allNodes up) actions)
    (hrun : Runs.exec step (launch allNodes up) actions = some s) (i : Int) :
    (s.node i).currentLeaderId = -1 ∨ i ≤ (s.node i).currentLeaderId := by
  have hstep : ∀ s a s', RejectsLower s a → Holds LeaderNotBelow StoresNotBelow s →
      step s a = some s' → Holds LeaderNotBelow StoresNotBelow s' := by
    intro s a s' hok h hs
    refine h.step local_notBelow (fun t i task ha hthread => ?_) hs
    exact keeps_notBelow h hthread (ha ▸ hok)
  exact (Runs.exec_along hstep (Holds.launch local_notBelow allNodes up) hok hrun).node i

/-- Two nodes, both of which run. -/
def two : State := launch [launchNode 1, launchNode 2] fun _ => true

/-- Node 1 gives up on node 2, leads, and announces itself. -/
def oneLeads : List Action := .trigger 1 :: List.replicate 10 (.run 0)

/-- Node 2, which knows of no leader, accepts the one below itself. -/
theorem lower_leader_accepted :
    ∃ s, Runs.exec step two
        (oneLeads ++ .deliver 2 (leaderMsg 1 1) false :: List.replicate 2 (.run 1)) = some s ∧
      s.up 2 = true ∧ (s.node 2).currentLeaderId = 1 ∧
      ¬ ((s.node 2).currentLeaderId = -1 ∨ 2 ≤ (s.node 2).currentLeaderId) := by
  have hdata : (Runs.exec step two
      (oneLeads ++ .deliver 2 (leaderMsg 1 1) false :: List.replicate 2 (.run 1))).map
        (fun s => (s.up 2, (s.node 2).currentLeaderId)) = some (true, 1) := by
    decide +kernel
  obtain ⟨s, hrun, hdata⟩ := Option.map_eq_some_iff.mp hdata
  obtain ⟨hup, hleader⟩ := Prod.mk.inj hdata
  refine ⟨s, hrun, hup, hleader, ?_⟩
  rw [hleader]
  decide

/-- The same announcement reaches node 2 after it has won a round of its own. -/
def lowerRefused : List Action :=
  [oneLeads, [.trigger 2], List.replicate 9 (.run 1), [.deliver 2 (leaderMsg 1 1) false],
    List.replicate 2 (.run 2)].flatten

theorem leader_not_below_launch :
    ∃ s, Runs.exec step two lowerRefused = some s ∧ (s.node 2).currentLeaderId = 2 ∧
      ∀ i, (s.node i).currentLeaderId = -1 ∨ i ≤ (s.node i).currentLeaderId := by
  have hleader : (Runs.exec step two lowerRefused).map
      (fun s => (s.node 2).currentLeaderId) = some 2 := by
    decide +kernel
  obtain ⟨s, hrun, hleader⟩ := Option.map_eq_some_iff.mp hleader
  have hok : Runs.Along step RejectsLower two lowerRefused := by decide +kernel
  exact ⟨s, hrun, hleader, leader_not_below hok hrun⟩

/-! ## The order of the terms -/

/-- The announcement that a thread is about to store. -/
def accepted : Task → Option Message
  | .storeLeader msg => some msg
  | .storeTerm msg => some msg
  | _ => none

/-- The announcement that thread `t` of node `i` is about to store. -/
def pending (s : State) (i : Int) (t : Nat) : Option Message :=
  (s.threads t).bind fun th => if th.1 = i then accepted th.2 else none

theorem pending_of_thread {i : Int} {t : Nat} {task : Task}
    (h : s.threads t = some (i, task)) : pending s i t = accepted task := by
  rw [pending, h, Option.bind_some, if_pos rfl]

/-- On node `i`, an announcement that is about to be stored is not older than the
term of the node. -/
def StoresNotOlder (i : Int) (j : Int) (e : LeaderElection) (task : Task) : Prop :=
  j = i → ∀ msg ∈ accepted task, e.electionTerm ≤ msg.term

/-- The term that an access stores. -/
def newTerm (e : LeaderElection) : Task → Option Int
  | .nextTerm => some (LeaderElection.nextTerm e.electionTerm)
  | .storeTerm msg => some msg.term
  | _ => none

/-- Node `i` accepts an announcement for its id only when it is not older than the
term of the node, does not raise its term past an announcement that it has
accepted and not stored, and begins no round at the largest term.  The node
itself does not stop. -/
def KeepsTermOrder (i : Int) (s : State) : Action → Prop
  | .run t => ∀ th ∈ s.threads t, th.1 = i →
      (∀ msg ∈ testsId th.2, (s.node i).currentLeaderId < msg.nodeId →
        (s.node i).electionTerm ≤ msg.term) ∧
      (th.2 = .nextTerm → (s.node i).electionTerm < 2 ^ 31 - 1) ∧
      ∀ term ∈ newTerm (s.node i) th.2, ∀ t' < s.next, t' ≠ t →
        ∀ msg ∈ pending s i t', term ≤ msg.term
  | .crash j => j ≠ i
  | .restart j => j ≠ i
  | _ => True

instance (i : Int) (s : State) : (a : Action) → Decidable (KeepsTermOrder i s a)
  | .run t => inferInstanceAs (Decidable (∀ th ∈ s.threads t, _))
  | .crash j => inferInstanceAs (Decidable (j ≠ i))
  | .restart j => inferInstanceAs (Decidable (j ≠ i))
  | .answer _ | .deliver _ _ _ | .lose _ _ | .trigger _ | .notice _ _ => .isTrue trivial

theorem local_notOlder (i : Int) : Local (fun _ _ => True) (StoresNotOlder i) where
  alive := fun _ _ _ _ => trivial
  aliveThread := fun _ _ _ _ h => h
  fresh := fun _ _ => trivial
  trigger := fun _ _ _ _ hnone => absurd hnone (by simp [accepted])
  onNodeFailure := fun _ _ _ _ _ hnone => absurd hnone (by simp [accepted])
  storeAck := fun _ _ _ _ _ _ hnone => absurd hnone (by simp [accepted])
  testLeader := fun _ _ _ _ _ hnone => absurd hnone (by simp [accepted])

theorem keeps_notOlder {i : Int} (h : Holds (fun _ _ => True) (StoresNotOlder i) s)
    (hfresh : Fresh s) {t : Nat} {j : Int} {task : Task} (hthread : s.threads t = some (j, task))
    (hok : KeepsTermOrder i s (.run t)) :
    Keeps (fun _ _ => True) (StoresNotOlder i) s t j task where
  node := trivial
  others := by
    rintro t' task' hne ht' rfl msg hmsg
    have hold := h.thread t' j task' ht' rfl msg hmsg
    have hpending : msg ∈ pending s j t' := by rwa [pending_of_thread ht']
    obtain ⟨-, -, hnew⟩ := hok _ hthread rfl
    rw [electionTerm_perform]
    cases task with
    | nextTerm => exact hnew _ rfl t' (hfresh.lt ht') hne msg hpending
    | storeTerm first => exact hnew _ rfl t' (hfresh.lt ht') hne msg hpending
    | _ => exact hold
  continues := by
    rintro task' htask' rfl msg hmsg
    have hthis := h.thread t j task hthread rfl
    obtain ⟨hid, -⟩ := hok _ hthread rfl
    rw [electionTerm_perform]
    cases continues_of_perform htask' with
    | higherId hhigher =>
      obtain rfl := Option.some.inj hmsg
      exact hid _ rfl hhigher
    | newerTerm hterm =>
      obtain rfl := Option.some.inj hmsg
      exact hterm.le
    | storeLeader => exact hthis msg hmsg
    | _ => exact absurd hmsg (by simp [accepted])
  spawns := by
    rintro task' hspawn - msg hmsg
    obtain ⟨term, -, rfl⟩ := spawned_perform hspawn
    exact absurd hmsg (by simp [accepted])

/-- What the order of the terms rests on. -/
def TermOrder (i : Int) (s : State) : Prop :=
  Holds (fun _ _ => True) (StoresNotOlder i) s ∧ Fresh s

theorem TermOrder.step {i : Int} (h : TermOrder i s) (hok : KeepsTermOrder i s a)
    (hstep : step s a = some s') : TermOrder i s' := by
  refine ⟨h.1.step (local_notOlder i) (fun t j task ha hthread => ?_) hstep, h.2.step hstep⟩
  exact keeps_notOlder h.1 h.2 hthread (ha ▸ hok)

/-- A step does not lower the term of node `i`. -/
theorem electionTerm_step {i : Int} (h : TermOrder i s) (hok : KeepsTermOrder i s a)
    (hstep : step s a = some s') : (s.node i).electionTerm ≤ (s'.node i).electionTerm := by
  have halters := node_step hstep i
  generalize s'.node i = e at halters ⊢
  cases halters with
  | same => exact le_refl _
  | alive nodeAlive => exact le_refl _
  | @runs t task ha hthread =>
    have hthis := h.1.thread t i task hthread rfl
    subst ha
    obtain ⟨-, hwraps, -⟩ := hok _ hthread rfl
    rw [electionTerm_perform]
    cases task with
    | nextTerm =>
      by_contra hdrop
      have := LeaderElection.le_of_nextTerm_lt (not_le.mp hdrop)
      have := hwraps rfl
      omega
    | storeTerm msg => exact hthis msg rfl
    | _ => exact le_refl _
  | restarts ha =>
    subst ha
    exact absurd rfl hok

/-- In every run that meets the condition on node `i`, the term of the node never
goes down, and an announcement about to replace its leader is never older than
the term of the node. -/
theorem terms_grow {i : Int} {allNodes : List NodeInfo} {up : Int → Bool}
    {done rest : List Action} {u v : State}
    (hok : Runs.Along step (KeepsTermOrder i) (launch allNodes up) (done ++ rest))
    (hdone : Runs.exec step (launch allNodes up) done = some u)
    (hrest : Runs.exec step u rest = some v) :
    (u.node i).electionTerm ≤ (v.node i).electionTerm ∧
      ∀ t msg, v.threads t = some (i, .storeLeader msg) →
        (v.node i).electionTerm ≤ msg.term := by
  have hstart : TermOrder i (launch allNodes up) :=
    ⟨Holds.launch (local_notOlder i) allNodes up, Fresh.launch allNodes up⟩
  obtain ⟨hokDone, hokRest⟩ := (Runs.along_append hdone).mp hok
  have hu : TermOrder i u :=
    Runs.exec_along (fun _ _ _ hok h hs => h.step hok hs) hstart hokDone hdone
  have hv : TermOrder i v ∧ (u.node i).electionTerm ≤ (v.node i).electionTerm := by
    refine Runs.exec_along (P := fun w => TermOrder i w ∧
      (u.node i).electionTerm ≤ (w.node i).electionTerm) ?_ ⟨hu, le_refl _⟩ hokRest hrest
    rintro s a s' hok ⟨h, hle⟩ hs
    exact ⟨h.step hok hs, hle.trans (electionTerm_step h hok hs)⟩
  exact ⟨hv.2, fun t msg ht => hv.1.1.thread t i _ ht rfl msg rfl⟩

/-- Node 2 leads its first round before node 1 begins one, and node 1 hears of it. -/
example : Runs.Along step (KeepsTermOrder 1) two
    [[.trigger 2], List.replicate 9 (.run 0), [.deliver 1 (leaderMsg 2 1) false],
      List.replicate 3 (.run 1)].flatten := by
  decide +kernel

/-! ## Announcements that are accepted -/

/-- In a run from `s₀`, thread `t` of node `i` has read the atomics of its node and
found the id of the announcement higher, or its term newer. -/
def Passed (s₀ : State) (done : List Action) (t : Nat) (i : Int) (msg : Message) : Prop :=
  ∃ before u, before ++ [.run t] <+: done ∧ Runs.exec step s₀ before = some u ∧
    ((u.threads t = some (i, .testLeader msg) ∧ (u.node i).currentLeaderId < msg.nodeId) ∨
      (u.threads t = some (i, .testTerm msg) ∧ (u.node i).electionTerm < msg.term))

theorem Passed.later {s₀ : State} {done : List Action} {t : Nat} {i : Int} {msg : Message}
    (h : Passed s₀ done t i msg) (a : Action) : Passed s₀ (done ++ [a]) t i msg := by
  obtain ⟨before, u, hbefore, hrun, htest⟩ := h
  exact ⟨before, u, hbefore.trans (List.prefix_append done [a]), hrun, htest⟩

/-- A handler that is about to store has passed a test. -/
structure Backed (s₀ : State) (done : List Action) (s : State) : Prop where
  run : Runs.exec step s₀ done = some s
  fresh : Fresh s
  passed : ∀ t i task, s.threads t = some (i, task) → ∀ msg ∈ accepted task,
    Passed s₀ done t i msg

theorem Backed.step {s₀ : State} {done : List Action} (h : Backed s₀ done s)
    (hstep : Net.step s a = some s') : Backed s₀ (done ++ [a]) s' where
  run := Runs.exec_append.mpr ⟨s, h.run, Runs.exec_cons.mpr ⟨s', hstep, rfl⟩⟩
  fresh := h.fresh.step hstep
  passed := by
    intro t i task' ht msg hmsg
    by_cases hnew : s.next ≤ t
    · have hstart := starts_of_new h.fresh hstep hnew ht
      cases task' <;> simp [starts, accepted] at hstart hmsg
    cases threads_step hstep (not_le.mp hnew) ht with
    | stays hthread => exact (h.passed t i task' hthread msg hmsg).later a
    | @runs task ha hthread hnext =>
      subst ha
      cases hnext with
      | higherId hid =>
        obtain rfl := Option.some.inj hmsg
        exact ⟨done, s, List.prefix_rfl, h.run, Or.inl ⟨hthread, hid⟩⟩
      | newerTerm hterm =>
        obtain rfl := Option.some.inj hmsg
        exact ⟨done, s, List.prefix_rfl, h.run, Or.inr ⟨hthread, hterm⟩⟩
      | storeLeader => exact (h.passed t i _ hthread msg hmsg).later _
      | _ => exact absurd hmsg (by simp [accepted])
    | acked ha hthread htask =>
      subst htask
      exact absurd hmsg (by simp [accepted])

theorem backed_exec {allNodes : List NodeInfo} {up : Int → Bool} {actions : List Action}
    (hrun : Runs.exec step (launch allNodes up) actions = some s) :
    Backed (launch allNodes up) actions s := by
  have hstart : Backed (launch allNodes up) [] (launch allNodes up) :=
    ⟨rfl, Fresh.launch allNodes up, fun _ _ _ hnone => absurd hnone (by simp [launch])⟩
  exact Runs.exec_history (fun _ _ _ _ _ h hs => h.step hs) hstart (fun _ _ => trivial) hrun

/-- In every run, the term of a node that does not restart goes down only when a
handler stores the term of an announcement or a round begins at the largest term,
and another leader comes only of a round that is won or of an announcement; and the
handler has found the id of the announcement higher than its leader or the term
newer than its own. -/
theorem changes_by_acceptance {allNodes : List NodeInfo} {up : Int → Bool}
    {actions : List Action} {i : Int}
    (hrun : Runs.exec step (launch allNodes up) actions = some s)
    (hstep : step s a = some s') (hrestart : a ≠ .restart i) :
    ((s'.node i).electionTerm < (s.node i).electionTerm →
      (∃ t, a = .run t ∧ s.threads t = some (i, .nextTerm) ∧
        2 ^ 31 - 1 ≤ (s.node i).electionTerm) ∨
      ∃ t msg, a = .run t ∧ s.threads t = some (i, .storeTerm msg) ∧
        (s'.node i).electionTerm = msg.term ∧
        Passed (launch allNodes up) actions t i msg) ∧
    ((s'.node i).currentLeaderId ≠ (s.node i).currentLeaderId →
      (∃ t, a = .run t ∧ s.threads t = some (i, .becomeLeader) ∧
        (s'.node i).currentLeaderId = i) ∨
      ∃ t msg, a = .run t ∧ s.threads t = some (i, .storeLeader msg) ∧
        (s'.node i).currentLeaderId = msg.nodeId ∧
        Passed (launch allNodes up) actions t i msg) := by
  have hbacked := backed_exec hrun
  have halters := node_step hstep i
  generalize s'.node i = e at halters ⊢
  cases halters with
  | same => exact ⟨fun h => absurd h (lt_irrefl _), fun h => absurd rfl h⟩
  | alive nodeAlive => exact ⟨fun h => absurd h (lt_irrefl _), fun h => absurd rfl h⟩
  | restarts ha => exact absurd ha hrestart
  | @runs t task ha hthread =>
    have hpassed := hbacked.passed t i task hthread
    rw [electionTerm_perform, currentLeaderId_perform]
    constructor
    · intro hdrop
      cases task with
      | nextTerm => exact Or.inl ⟨t, ha, hthread, LeaderElection.le_of_nextTerm_lt hdrop⟩
      | storeTerm msg => exact Or.inr ⟨t, msg, ha, hthread, rfl, hpassed msg rfl⟩
      | _ => exact absurd hdrop (lt_irrefl _)
    · intro hchange
      cases task with
      | becomeLeader => exact Or.inl ⟨t, ha, hthread, rfl⟩
      | storeLeader msg => exact Or.inr ⟨t, msg, ha, hthread, rfl, hpassed msg rfl⟩
      | _ => exact absurd rfl hchange

/-- Node 1 leads a round and begins the next. -/
def oneBeginsAgain : List Action :=
  [[.trigger 1], List.replicate 9 (.run 0), [.trigger 1], List.replicate 2 (.run 1)].flatten

/-- Node 2 leads its first round, and node 1 hears of it. -/
def twoLeads : List Action :=
  [[.trigger 2], List.replicate 9 (.run 2), [.deliver 1 (leaderMsg 2 1) false],
    List.replicate 3 (.run 3)].flatten

/-- Node 1 accepts the announcement for its id and goes back to its term. -/
theorem older_announcement_accepted :
    ∃ u v, Runs.exec step two oneBeginsAgain = some u ∧ Runs.exec step u twoLeads = some v ∧
      (u.node 1).electionTerm = 2 ∧ (v.node 1).electionTerm = 1 ∧
      (v.node 1).currentLeaderId = 2 := by
  have hdata : ((Runs.exec step two oneBeginsAgain).bind fun u =>
      (Runs.exec step u twoLeads).map fun v =>
        ((u.node 1).electionTerm, (v.node 1).electionTerm, (v.node 1).currentLeaderId)) =
      some (2, 1, 2) := by
    decide +kernel
  obtain ⟨u, hu, hdata⟩ := Option.bind_eq_some_iff.mp hdata
  obtain ⟨v, hv, hdata⟩ := Option.map_eq_some_iff.mp hdata
  obtain ⟨hbefore, hdata⟩ := Prod.mk.inj hdata
  obtain ⟨hafter, hleader⟩ := Prod.mk.inj hdata
  exact ⟨u, v, hu, hv, hbefore, hafter, hleader⟩

/-- The step of node 1 that goes back to the term of node 2. -/
theorem changes_by_acceptance_two :
    ∃ s s' t msg, Runs.exec step two (oneBeginsAgain ++ twoLeads.dropLast) = some s ∧
      step s (.run 3) = some s' ∧ (s.node 1).electionTerm = 2 ∧ (s'.node 1).electionTerm = 1 ∧
      (s'.node 1).electionTerm = msg.term ∧
      Passed two (oneBeginsAgain ++ twoLeads.dropLast) t 1 msg := by
  have hdata : ((Runs.exec step two (oneBeginsAgain ++ twoLeads.dropLast)).bind fun s =>
      (step s (.run 3)).map fun s' => ((s.node 1).electionTerm, (s'.node 1).electionTerm)) =
      some (2, 1) := by
    decide +kernel
  obtain ⟨s, hrun, hdata⟩ := Option.bind_eq_some_iff.mp hdata
  obtain ⟨s', hstep, hdata⟩ := Option.map_eq_some_iff.mp hdata
  obtain ⟨hbefore, hafter⟩ := Prod.mk.inj hdata
  have hdrop : (s'.node 1).electionTerm < (s.node 1).electionTerm := by omega
  obtain ⟨t, -, -, hlargest⟩ | ⟨t, msg, -, -, hterm, hpassed⟩ :=
    (changes_by_acceptance hrun hstep (by decide)).1 hdrop
  · omega
  exact ⟨s, s', t, msg, hrun, hstep, hbefore, hafter, hterm, hpassed⟩

end Net
end Election
end DistributedDb
