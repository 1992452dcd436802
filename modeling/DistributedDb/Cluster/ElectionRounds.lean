import DistributedDb.Node.ElectionNet

/-
The rounds of one node.

A round keeps whether it was answered in `got_higher_ack_`, which all rounds of
the node share, and the guard that is to let in one round at a time is cleared by
a `LEADER` handler and by another round's end.  So a round that was answered can
find the flag reset by a later one.  A round that stands back leaves a timer that
is to try again, but it clears the guard that the timer looks for.
-/

namespace DistributedDb
namespace Election
namespace Net

variable {s s' : State} {a : Action}

/-! ## A round that was answered -/

/-- A round that has stored its answer and not tested the flag yet. -/
def acked : Task → Bool
  | .exchange _ acked _ => acked
  | .testAck _ acked => acked
  | _ => false

/-- A thread that is about to reset the flag. -/
def resets : Task → Bool
  | .resetAck _ => true
  | _ => false

/-- When a round resets the flag, no other round of the node has stored an answer
and is still to test the flag. -/
def KeepsAck (s : State) : Action → Prop
  | .run t => ∀ th ∈ s.threads t, resets th.2 = true →
      ∀ t' < s.next, t' ≠ t → ∀ th' ∈ s.threads t', th'.1 = th.1 → acked th'.2 = false
  | _ => True

instance (s : State) : (a : Action) → Decidable (KeepsAck s a)
  | .run t => inferInstanceAs (Decidable (∀ th ∈ s.threads t, _))
  | .answer _ | .deliver _ _ _ | .lose _ _ | .trigger _ | .notice _ _ | .crash _ | .restart _ =>
    .isTrue trivial

/-- The flag is set as long as a stored answer waits for its test. -/
def AckStored (_ : Int) (e : LeaderElection) (task : Task) : Prop :=
  acked task = true → e.gotHigherAck = true

theorem local_ackStored : Local (fun _ _ => True) AckStored where
  alive := fun _ _ _ _ => trivial
  aliveThread := fun _ _ _ _ h => h
  fresh := fun _ _ => trivial
  trigger := fun _ _ h => absurd h (by simp [acked])
  onNodeFailure := fun _ _ _ h => absurd h (by simp [acked])
  storeAck := fun _ _ _ _ h => absurd h (by simp [acked])
  testLeader := fun _ _ _ h => absurd h (by simp [acked])

theorem keeps_ackStored (h : Holds (fun _ _ => True) AckStored s) (hfresh : Fresh s) {t : Nat}
    {i : Int} {task : Task} (hthread : s.threads t = some (i, task)) (hok : KeepsAck s (.run t)) :
    Keeps (fun _ _ => True) AckStored s t i task where
  node := trivial
  others := by
    intro t' task' hne ht' hacked
    have hflag := h.thread t' i task' ht' hacked
    rw [gotHigherAck_perform]
    cases task with
    | resetAck term =>
      have hnot := hok _ hthread rfl t' (hfresh.lt ht') hne _ ht' rfl
      rw [hacked] at hnot
      exact absurd hnot (by decide)
    | storeAck term rest => rfl
    | _ => exact hflag
  continues := by
    intro task' htask' hacked
    have hthis := h.thread t i task hthread
    rw [gotHigherAck_perform]
    cases continues_of_perform htask' with
    | exchange => exact hthis hacked
    | exchanged => exact hthis hacked
    | storeAck => rfl
    | _ => exact absurd hacked (by simp [acked])
  spawns := by
    intro task' hspawn hacked
    obtain ⟨term, -, rfl⟩ := spawned_perform hspawn
    exact absurd hacked (by simp [acked])

/-- Where a round can be after it was answered. -/
def AfterAnswer : Task → Prop
  | .storeAck _ _ => True
  | .exchange _ acked _ => acked = true
  | .testAck _ acked => acked = true
  | .startTimer _ => True
  | .standBack => True
  | _ => False

/-- Where a round can be after it has made its node the leader. -/
def AfterLead : Task → Prop
  | .endRound => True
  | .broadcastLeader => True
  | _ => False

/-- Thread `t` has run, and if it runs still it is at a point of `P`. -/
def Past (s : State) (t : Nat) (P : Task → Prop) : Prop :=
  t < s.next ∧ ∀ i task, s.threads t = some (i, task) → P task

/-- A thread stays in `P` when its moves do. -/
theorem Past.step {t : Nat} {P : Task → Prop} (h : Past s t P) (hstep : step s a = some s')
    (hmove : ∀ i task task', s.threads t = some (i, task) → P task →
      Continues i (s.node i) task task' → P task')
    (hack : ∀ term acked n rest, P (.exchange term acked (n :: rest)) →
      P (.storeAck term rest)) : Past s' t P := by
  refine ⟨h.1.trans_le (next_le_step hstep), fun i task' ht' => ?_⟩
  cases threads_step hstep h.1 ht' with
  | stays hthread => exact h.2 i task' hthread
  | runs ha hthread hnext => exact hmove i _ task' hthread (h.2 i _ hthread) hnext
  | acked ha hthread htask =>
    rw [htask]
    exact hack _ _ _ _ (h.2 i _ hthread)

/-- What the events so far say about the threads. -/
structure Rounds (seen : List Event) (s : State) : Prop where
  stored : Holds (fun _ _ => True) AckStored s
  fresh : Fresh s
  answered : ∀ t, .answered t ∈ seen → .leads t ∉ seen ∧ Past s t AfterAnswer
  leads : ∀ t, .leads t ∈ seen → Past s t AfterLead

theorem rounds_launch (allNodes : List NodeInfo) (up : Int → Bool) :
    Rounds [] (launch allNodes up) where
  stored := Holds.launch local_ackStored allNodes up
  fresh := Fresh.launch allNodes up
  answered := fun _ h => absurd h List.not_mem_nil
  leads := fun _ h => absurd h List.not_mem_nil

namespace Rounds

variable {seen : List Event}

/-- An answered round waits: its stored answer is still there at the test. -/
theorem answered_step (h : Rounds seen s) (hstep : Net.step s a = some s') {t : Nat}
    (hpast : Past s t AfterAnswer) : Past s' t AfterAnswer := by
  refine hpast.step hstep (fun i task task' hthread hafter hnext => ?_) (fun _ _ _ _ _ => trivial)
  have hflag := h.stored.thread t i task hthread
  cases hnext with
  | storeAck => rfl
  | exchange => exact hafter
  | exchanged => exact hafter
  | waits => trivial
  | leads hack =>
    have hset := hflag hafter
    rw [hack] at hset
    exact absurd hset (by decide)
  | startTimer => trivial
  | _ => exact absurd hafter id

theorem leads_step (hstep : Net.step s a = some s') {t : Nat} (hpast : Past s t AfterLead) :
    Past s' t AfterLead := by
  refine hpast.step hstep (fun i task task' _ hafter hnext => ?_) (fun _ _ _ _ h => h.elim)
  cases hnext with
  | endRound => trivial
  | _ => exact absurd hafter id

theorem step (h : Rounds seen s) (hok : KeepsAck s a) (hstep : Net.step s a = some s') :
    Rounds (seen ++ emit s a) s' where
  stored := h.stored.step local_ackStored
    (fun t i task ha hthread => keeps_ackStored h.stored h.fresh hthread (ha ▸ hok)) hstep
  fresh := h.fresh.step hstep
  answered := by
    intro t hmem
    rcases List.mem_append.mp hmem with hmem | hmem
    · obtain ⟨hnot, hpast⟩ := h.answered t hmem
      refine ⟨fun hleads => ?_, h.answered_step hstep hpast⟩
      rcases List.mem_append.mp hleads with hleads | hleads
      · exact hnot hleads
      · obtain ⟨-, i, hthread⟩ := mem_emit_leads hleads
        exact hpast.2 i _ hthread
    · obtain ⟨rfl, i, term, acked, n, rest, hthread⟩ := mem_emit_answered hmem
      refine ⟨fun hleads => ?_, ?_, fun j task ht => ?_⟩
      · rcases List.mem_append.mp hleads with hleads | hleads
        · exact (h.leads t hleads).2 i _ hthread
        · exact absurd (mem_emit_leads hleads).1 (by simp)
      · exact (h.fresh.lt hthread).trans_le (next_le_step hstep)
      · obtain ⟨j', term', rest', hack⟩ := threads_answer hstep
        obtain ⟨-, rfl⟩ := Prod.mk.inj (Option.some.inj (ht.symm.trans hack))
        trivial
  leads := by
    intro t hmem
    rcases List.mem_append.mp hmem with hmem | hmem
    · exact leads_step hstep (h.leads t hmem)
    · obtain ⟨rfl, i, hthread⟩ := mem_emit_leads hmem
      refine ⟨(h.fresh.lt hthread).trans_le (next_le_step hstep), fun j task ht => ?_⟩
      rw [threads_run h.fresh hthread hstep] at ht
      obtain ⟨-, rfl⟩ := Prod.mk.inj (Option.some.inj ht)
      trivial

end Rounds

/-- In every run where no round resets the flag between the stored answer and the
test of another, a round that makes its node the leader was not answered. -/
theorem answered_round_does_not_lead {allNodes : List NodeInfo} {up : Int → Bool}
    {actions : List Action} (hok : Runs.Along step KeepsAck (launch allNodes up) actions)
    (hrun : Runs.exec step (launch allNodes up) actions = some s) (t : Nat)
    (hleads : .leads t ∈ Runs.trace step emit (launch allNodes up) actions) :
    .answered t ∉ Runs.trace step emit (launch allNodes up) actions := by
  have h := Runs.exec_trace (fun seen s a s' hok h hs => Rounds.step h hok hs)
    (rounds_launch allNodes up) hok hrun
  intro hanswered
  exact (h.answered t hanswered).1 hleads

/-- Node 1 is answered and stores the answer; node 2 leads; node 1 hears of it,
which lets in a second round on node 1. -/
def flagReset : List Action :=
  [[.trigger 1], List.replicate 4 (.run 0), [.answer 0], List.replicate 2 (.run 0),
    List.replicate 9 (.run 1), [.deliver 1 (leaderMsg 2 1) false], List.replicate 4 (.run 2),
    [.trigger 1], List.replicate 3 (.run 3), List.replicate 2 (.run 0)].flatten

theorem answered_round_leads :
    ∃ s, Runs.exec step (launch [launchNode 1, launchNode 2] fun _ => true) flagReset = some s ∧
      (s.node 1).currentLeaderId = 1 ∧
      .answered 0 ∈ Runs.trace step emit (launch [launchNode 1, launchNode 2] fun _ => true)
        flagReset ∧
      .leads 0 ∈ Runs.trace step emit (launch [launchNode 1, launchNode 2] fun _ => true)
        flagReset := by
  have hleader : (Runs.exec step (launch [launchNode 1, launchNode 2] fun _ => true)
      flagReset).map (fun s => (s.node 1).currentLeaderId) = some 1 := by
    decide +kernel
  obtain ⟨s, hrun, hleader⟩ := Option.map_eq_some_iff.mp hleader
  exact ⟨s, hrun, hleader, by decide +kernel, by decide +kernel⟩

/-- Node 1 is answered and stands back, and node 2 leads. -/
def answeredStandsBack : List Action :=
  [[.trigger 1], List.replicate 4 (.run 0), [.answer 0], List.replicate 5 (.run 0),
    List.replicate 7 (.run 1)].flatten

theorem answered_round_does_not_lead_launch :
    .answered 0 ∈ Runs.trace step emit (launch [launchNode 1, launchNode 2] fun _ => true)
        answeredStandsBack ∧
      .leads 1 ∈ Runs.trace step emit (launch [launchNode 1, launchNode 2] fun _ => true)
        answeredStandsBack ∧
      .answered 1 ∉ Runs.trace step emit (launch [launchNode 1, launchNode 2] fun _ => true)
        answeredStandsBack := by
  have hrun : (Runs.exec step (launch [launchNode 1, launchNode 2] fun _ => true)
      answeredStandsBack).isSome = true := by
    decide +kernel
  obtain ⟨s, hrun⟩ := Option.isSome_iff_exists.mp hrun
  have hok : Runs.Along step KeepsAck (launch [launchNode 1, launchNode 2] fun _ => true)
      answeredStandsBack := by
    decide +kernel
  have hleads : .leads 1 ∈ Runs.trace step emit
      (launch [launchNode 1, launchNode 2] fun _ => true) answeredStandsBack := by
    decide +kernel
  exact ⟨by decide +kernel, hleads, answered_round_does_not_lead hok hrun 1 hleads⟩

/-! ## A round that stands back -/

/-- A round that begins: its access to the guard finds the node running and the
guard down. -/
def begins (e : LeaderElection) : Task → Bool
  | .trigger => e.running && !e.electionInProgress
  | _ => false

/-- A thread that is about to replace the leader by an announced one. -/
def storesLeader : Task → Bool
  | .storeLeader _ => true
  | _ => false

/-- Node `i` stays up, begins no round and accepts no leader, and its timer `k` does
not fire. -/
def Waits (i : Int) (k : Nat) (s : State) : Action → Prop
  | .run t => t ≠ k ∧ ∀ th ∈ s.threads t, th.1 = i →
      begins (s.node i) th.2 = false ∧ storesLeader th.2 = false
  | .crash j => j ≠ i
  | .restart j => j ≠ i
  | _ => True

instance (i : Int) (k : Nat) (s : State) : (a : Action) → Decidable (Waits i k s a)
  | .run t => inferInstanceAs (Decidable (t ≠ k ∧ ∀ th ∈ s.threads t, _))
  | .crash j => inferInstanceAs (Decidable (j ≠ i))
  | .restart j => inferInstanceAs (Decidable (j ≠ i))
  | .answer _ | .deliver _ _ _ | .lose _ _ | .trigger _ | .notice _ _ => .isTrue trivial

/-- Left to itself, the timer `k` of a round with the term `term` begins a new round
on node `i`, with the next term. -/
def Retries (i : Int) (k : Nat) (term : Int) (s : State) : Prop :=
  ∃ n s', Runs.exec step s (List.replicate n (.run k)) = some s' ∧
    s'.threads k = some (i, .resetAck (term + 1))

/-- The timer is there, and the guard it looks for is down. -/
structure Abandoned (i : Int) (k : Nat) (term : Int) (s : State) : Prop where
  fresh : Fresh s
  timer : s.threads k = some (i, .timer term)
  idle : (s.node i).electionInProgress = false

namespace Abandoned

variable {i : Int} {k : Nat} {term : Int}

theorem step (h : Abandoned i k term s) (hwaits : Waits i k s a)
    (hstep : Net.step s a = some s') : Abandoned i k term s' where
  fresh := h.fresh.step hstep
  timer := by
    refine threads_kept h.fresh h.timer hstep ?_ ?_ ?_ ?_
    · rintro rfl
      exact hwaits.1 rfl
    · rintro rfl
      cases step_cases hstep with
      | answer hthread hup => exact absurd (h.timer.symm.trans hthread) (by simp)
    · rintro rfl
      exact hwaits rfl
    · rintro rfl
      exact hwaits rfl
  idle := by
    have hidle := h.idle
    have halters := node_step hstep i
    generalize s'.node i = e at halters ⊢
    cases halters with
    | same => exact hidle
    | alive nodeAlive => exact hidle
    | @runs t task ha hthread =>
      subst ha
      by_contra hbusy
      rcases electionInProgress_perform (Bool.eq_true_of_not_eq_false hbusy) with
        hold | ⟨rfl, hrunning⟩
      · rw [hidle] at hold
        exact absurd hold (by decide)
      · have hnot := (hwaits.2 _ hthread rfl).1
        simp only [begins, hrunning, hidle, Bool.not_false, Bool.and_self] at hnot
        exact absurd hnot (by decide)
    | restarts ha => rfl

/-- The timer fires and ends: nothing begins. -/
theorem fires (h : Abandoned i k term s) :
    ∃ s', Net.step s (.run k) = some s' ∧ s'.threads k = none ∧ s'.node = s.node ∧
      s'.flight = s.flight := by
  have hperform : (Task.timer term).perform i (s.node i) = { node := s.node i } := by
    simp only [Task.perform, h.idle, Bool.false_eq_true, if_false]
  have hstep : Net.step s (.run k) = some (runTask s k i (.timer term)) := by
    simp only [Net.step, h.timer, Option.map_some]
  refine ⟨_, hstep, ?_, ?_, ?_⟩
  · rw [threads_run h.fresh h.timer hstep, hperform]
    rfl
  · rw [node_runTask, hperform, Function.update_eq_self]
  · rw [flight_runTask, hperform]
    simp [request]

theorem not_retries (h : Abandoned i k term s) : ¬ Retries i k term s := by
  obtain ⟨s₁, hfire, hgone, -, -⟩ := h.fires
  rintro ⟨n, s', hrun, hthread⟩
  match n with
  | 0 =>
    obtain rfl := Option.some.inj hrun
    exact absurd (h.timer.symm.trans hthread) (by simp)
  | 1 =>
    obtain ⟨u, hu, hrun⟩ := Runs.exec_cons.mp hrun
    obtain rfl := Option.some.inj (hfire.symm.trans hu)
    obtain rfl := Option.some.inj hrun
    exact absurd (hgone.symm.trans hthread) (by simp)
  | n + 2 =>
    obtain ⟨u, hu, hrun⟩ := Runs.exec_cons.mp hrun
    obtain rfl := Option.some.inj (hfire.symm.trans hu)
    obtain ⟨v, hv, -⟩ := Runs.exec_cons.mp hrun
    simp only [Net.step, hgone, Option.map_none] at hv
    exact absurd hv (by simp)

end Abandoned

theorem fresh_exec {allNodes : List NodeInfo} {up : Int → Bool} {actions : List Action}
    (hrun : Runs.exec step (launch allNodes up) actions = some s) : Fresh s := by
  have hstep : ∀ s a s', True → Fresh s → step s a = some s' → Fresh s' :=
    fun _ _ _ _ h hs => h.step hs
  exact Runs.exec_invariant hstep (Fresh.launch allNodes up) (fun _ _ => trivial) hrun

/-- A round that stood back for an answer is never tried again: whenever its timer
fires after a time in which the node heard of no leader and began no other round,
the timer ends and the node and the messages are as before. -/
theorem abandoned_round_is_not_retried {allNodes : List NodeInfo} {up : Int → Bool}
    {before wait : List Action} {s₀ s₁ s₂ : State} {t k : Nat} {i term : Int}
    (hbefore : Runs.exec step (launch allNodes up) before = some s₀)
    (hround : s₀.threads t = some (i, .standBack))
    (htimer : s₀.threads k = some (i, .timer term)) (hend : step s₀ (.run t) = some s₁)
    (hwaits : Runs.Along step (Waits i k) s₁ wait) (hwait : Runs.exec step s₁ wait = some s₂) :
    ¬ Retries i k term s₂ ∧
      ∃ s₃, step s₂ (.run k) = some s₃ ∧ s₃.threads k = none ∧ s₃.node = s₂.node ∧
        s₃.flight = s₂.flight := by
  have hfresh := fresh_exec hbefore
  have hne : k ≠ t := by
    rintro rfl
    exact absurd (hround.symm.trans htimer) (by simp)
  have hstart : Abandoned i k term s₁ := by
    refine ⟨hfresh.step hend, ?_, ?_⟩
    · exact threads_kept hfresh htimer hend (fun h => hne (Action.run.inj h).symm) (by simp)
        (by simp) (by simp)
    · obtain ⟨th, hth, rfl⟩ := Option.map_eq_some_iff.mp hend
      obtain rfl := Option.some.inj (hround.symm.trans hth)
      rw [node_runTask, Function.update_self]
      rfl
  have hlast : Abandoned i k term s₂ :=
    Runs.exec_along (fun _ _ _ hok h hs => h.step hok hs) hstart hwaits hwait
  exact ⟨hlast.not_retries, hlast.fires⟩

/-- Node 1 is answered by node 2 and has started its timer. -/
def untilTimer : List Action :=
  [[.trigger 1], List.replicate 4 (.run 0), [.answer 0], List.replicate 4 (.run 0)].flatten

theorem abandoned_round_is_not_retried_launch :
    ∃ s₀ s₁ s₂, Runs.exec step (launch [launchNode 1, launchNode 2] fun _ => true) untilTimer =
        some s₀ ∧ step s₀ (.run 0) = some s₁ ∧ Runs.exec step s₁ [.crash 2] = some s₂ ∧
      (s₂.node 1).electionTerm = 1 ∧ ¬ Retries 1 2 1 s₂ := by
  have hdata : ((Runs.exec step (launch [launchNode 1, launchNode 2] fun _ => true)
      untilTimer).bind fun s₀ => (step s₀ (.run 0)).bind fun s₁ =>
        (Runs.exec step s₁ [.crash 2]).map fun s₂ => (s₂.node 1).electionTerm) = some 1 := by
    decide +kernel
  obtain ⟨s₀, hbefore, hdata⟩ := Option.bind_eq_some_iff.mp hdata
  obtain ⟨s₁, hend, hdata⟩ := Option.bind_eq_some_iff.mp hdata
  obtain ⟨s₂, hwait, hterm⟩ := Option.map_eq_some_iff.mp hdata
  have hthreads : ((Runs.exec step (launch [launchNode 1, launchNode 2] fun _ => true)
      untilTimer).map fun s₀ => (s₀.threads 0, s₀.threads 2)) =
        some (some (1, .standBack), some (1, .timer 1)) := by
    decide +kernel
  rw [hbefore] at hthreads
  obtain ⟨hround, htimer⟩ := Prod.mk.inj (Option.some.inj hthreads)
  have hwaits : Runs.Along step (Waits 1 2) s₁ [.crash 2] := by
    exact ⟨show (2 : Int) ≠ 1 by decide, trivial⟩
  exact ⟨s₀, s₁, s₂, hbefore, hend, hwait, hterm,
    (abandoned_round_is_not_retried hbefore hround htimer hend hwaits hwait).1⟩

/-- Node 2 dies after its answer, and the timer of node 1 ends without a new term
or a message. -/
theorem timer_ends :
    ∃ s, Runs.exec step (launch [launchNode 1, launchNode 2] fun _ => true)
        (untilTimer ++ [.run 0, .crash 2, .run 2]) = some s ∧
      (s.node 1).running = true ∧ (s.node 1).currentLeaderId = -1 ∧
      (s.node 1).electionTerm = 1 ∧ s.flight = [] ∧ ∀ t, s.threads t = none := by
  have hdata : (Runs.exec step (launch [launchNode 1, launchNode 2] fun _ => true)
      (untilTimer ++ [.run 0, .crash 2, .run 2])).map (fun s =>
        (((s.node 1).running, (s.node 1).currentLeaderId, (s.node 1).electionTerm),
          s.flight.length, s.next, (List.range 3).map fun t => (s.threads t).isNone)) =
      some ((true, -1, 1), 0, 3, [true, true, true]) := by
    decide +kernel
  obtain ⟨s, hrun, hdata⟩ := Option.map_eq_some_iff.mp hdata
  simp only [Prod.mk.injEq] at hdata
  obtain ⟨⟨hrunning, hleader, hterm⟩, hflight, hnext, hgone⟩ := hdata
  refine ⟨s, hrun, hrunning, hleader, hterm, List.length_eq_zero_iff.mp hflight, fun t => ?_⟩
  by_cases ht : 3 ≤ t
  · exact fresh_exec hrun t (hnext ▸ ht)
  · have hmem : (s.threads t).isNone ∈ (List.range 3).map fun t => (s.threads t).isNone :=
      List.mem_map_of_mem (List.mem_range.mpr (by omega))
    rw [hgone] at hmem
    simpa using hmem

end Net
end Election
end DistributedDb
