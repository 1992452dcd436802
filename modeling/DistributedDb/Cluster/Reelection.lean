import DistributedDb.Node.Election

/-
Re-election after the leader has crashed.

All survivors record the leader `L`, and `H` is the highest of them.  A round of
any other survivor is answered by `H`, so only `H` ever becomes leader, and it
does so after its own `on_node_failure` at the latest.  Its announcement reaches
every survivor.  What can go wrong is the test of the announcement: `H` is below
`L`, so a survivor that still records `L` accepts it only for a newer term.
-/

namespace DistributedDb
namespace Election

variable (L H : Int)

/-- What a crash of `L` leaves: the survivors record `L`, know each other, and
have `on_node_failure` ahead of them. -/
structure Crashed (s : State) : Prop where
  down : s.up L = false
  highest : s.up H = true
  below : ∀ i, s.up i = true → i ≤ H
  leader : ∀ i, s.up i = true → i < L ∧ (s.node i).currentLeaderId = L
  running : ∀ i, s.up i = true → (s.node i).running = true
  idle : ∀ i, s.up i = true → (s.node i).electionInProgress = false
  known : ∀ i j, s.up i = true → s.up j = true → ∃ n ∈ (s.node i).allNodes, n.id = j
  members : ∀ i, s.up i = true → ∀ n ∈ (s.node i).allNodes,
    (s.up n.id = true ∨ n.id = L) ∧ (s.node i).nodeAlive.lookup n.id = some true
  noticed : ∀ i, s.up i = true → ∃ t, s.threads t = some (i, .onNodeFailure L)
  threads : ∀ t th, s.threads t = some th → t < s.next ∧ s.up th.1 = true ∧
    (th.2 = .onNodeFailure L ∨ ∃ term, th.2 = .timer term)
  quiet : s.flight = []

/-- The condition on a step.  An announcement that reaches a survivor which still
records `L` carries a newer term, and a round that was answered finds its answer
still stored. -/
def heeded (s : State) : Action → Bool
  | .deliver _ _ => true
  | .run t =>
    match s.threads t with
    | some (i, .testTerm msg) =>
      decide ((s.node i).currentLeaderId ≠ L) || decide ((s.node i).electionTerm < msg.term)
    | some (i, .testAck _ true) => (s.node i).gotHigherAck
    | _ => true

/-- Every step of the run meets the condition. -/
def Heeded (s : State) (actions : List Action) : Prop :=
  Runs.Along State.step (fun s a => heeded L s a = true) s actions

instance (s : State) (actions : List Action) : Decidable (Heeded L s actions) :=
  inferInstanceAs (Decidable (Runs.Along State.step (fun s a => heeded L s a = true) s actions))

/-! ## The invariant -/

/-- A round that has taken the flag and not given it back. -/
def Task.IsRound : Task → Prop
  | .nextTerm | .resetAck _ | .collect _ | .exchange _ _ _ | .testAck _ _ | .becomeLeader
  | .endRound => True
  | _ => False

/-- A thread of `H` that leads to its leadership. -/
def Task.Elects : Task → Prop
  | .onNodeFailure _ | .trigger | .nextTerm | .resetAck _ | .collect _ | .exchange _ _ _
  | .testAck _ _ | .becomeLeader => True
  | _ => False

/-- A thread of `H` that has an announcement ahead of it. -/
def Task.Announces : Task → Prop
  | .endRound | .broadcastLeader => True
  | _ => False

/-- An announcement that has not been stored. -/
def Task.Hears : Task → Prop
  | .testLeader _ | .testTerm _ | .storeLeader _ => True
  | _ => False

/-- The nodes left to ask. -/
structure Asks (up : Int → Bool) (i : Int) (acked : Bool) (higher : List NodeInfo) : Prop where
  above : ∀ n ∈ higher, i < n.id ∧ (up n.id = true ∨ n.id = L)
  highest : i ≠ H → acked = true ∨ ∃ n ∈ higher, n.id = H

/-- What is known of a thread of node `i` with the atomics `e`. -/
def TaskOk (up : Int → Bool) (i : Int) (e : LeaderElection) : Task → Prop
  | .onNodeFailure nodeId => nodeId = L
  | .collect _ => i = H → e.gotHigherAck = false
  | .exchange _ acked higher => Asks L H up i acked higher ∧ (i = H → e.gotHigherAck = false)
  | .storeAck _ higher => i ≠ H ∧ Asks L H up i true higher
  | .testAck _ acked => (i ≠ H → acked = true) ∧ (i = H → e.gotHigherAck = false)
  | .becomeLeader => i = H
  | .endRound | .broadcastLeader => i = H ∧ e.currentLeaderId = H
  | .startTimer _ | .standBack => i ≠ H
  | .testLeader msg | .testTerm msg | .storeLeader msg | .storeTerm msg | .clearProgress msg
  | .noteAlive msg => i ≠ H ∧ msg.nodeId = H
  | _ => True

/-- Some thread of node `i` is at such a place. -/
def Has (s : State) (i : Int) (place : Task → Prop) : Prop :=
  ∃ t task, s.threads t = some (i, task) ∧ place task

/-- What no step changes. -/
structure Config (s : State) : Prop where
  down : s.up L = false
  highest : s.up H = true
  below : ∀ i, s.up i = true → i ≤ H
  leader : ∀ i, s.up i = true → i < L
  running : ∀ i, s.up i = true → (s.node i).running = true
  known : ∀ i j, s.up i = true → s.up j = true → ∃ n ∈ (s.node i).allNodes, n.id = j
  members : ∀ i, s.up i = true → ∀ n ∈ (s.node i).allNodes,
    (s.up n.id = true ∨ n.id = L) ∧ (s.node i).nodeAlive.lookup n.id = some true

structure Inv (s : State) : Prop where
  config : Config L H s
  leaders : ∀ i, s.up i = true → (s.node i).currentLeaderId = L ∨ (s.node i).currentLeaderId = H
  flight : ∀ p ∈ s.flight, s.up p.1 = true ∧ p.1 ≠ H ∧ p.2.nodeId = H
  threads : ∀ t i task, s.threads t = some (i, task) →
    t < s.next ∧ s.up i = true ∧ TaskOk L H s.up i (s.node i) task
  round : (s.node H).electionInProgress = true → Has s H Task.IsRound
  electing : (s.node H).currentLeaderId ≠ H → Has s H Task.Elects
  announced : ∀ i, s.up i = true → i ≠ H → (s.node H).currentLeaderId = H →
    (s.node i).currentLeaderId = H ∨ Has s H Task.Announces ∨ (∃ msg, (i, msg) ∈ s.flight) ∨
      Has s i Task.Hears

theorem inv_of_crashed {s : State} (h : Crashed L H s) : Inv L H s where
  config := ⟨h.down, h.highest, h.below, fun i hi => (h.leader i hi).1, h.running, h.known,
    h.members⟩
  leaders i hi := Or.inl (h.leader i hi).2
  flight := by simp [h.quiet]
  threads t i task ht := by
    obtain ⟨hlt, hup, htask⟩ := h.threads t (i, task) ht
    refine ⟨hlt, hup, ?_⟩
    rcases htask with htask | ⟨term, htask⟩
    · obtain rfl : task = .onNodeFailure L := htask
      exact rfl
    · obtain rfl : task = .timer term := htask
      trivial
  round hflag := by
    rw [h.idle H h.highest] at hflag
    exact absurd hflag (by simp)
  electing _ := by
    obtain ⟨t, ht⟩ := h.noticed H h.highest
    exact ⟨t, _, ht, trivial⟩
  announced i _ _ hleader := by
    have hlt := (h.leader H h.highest).1
    rw [(h.leader H h.highest).2] at hleader
    omega

/-- When nothing runs any more, the survivors agree. -/
theorem Inv.agreement {s : State} (h : Inv L H s) (hquiet : s.Quiescent) {i : Int}
    (hi : s.up i = true) : (s.node i).currentLeaderId = H := by
  have hnone : ∀ j place, (∀ term, ¬ place (.timer term)) → ¬ Has s j place := by
    intro j place hplace hhas
    obtain ⟨t, task, ht, htask⟩ := hhas
    obtain ⟨term, hterm⟩ := hquiet.2 t (j, task) ht
    obtain rfl : task = .timer term := hterm
    exact hplace term htask
  have hH : (s.node H).currentLeaderId = H := by
    by_contra hne
    exact hnone H Task.Elects (fun _ => id) (h.electing hne)
  by_cases hiH : i = H
  · rw [hiH, hH]
  · rcases h.announced i hi hiH hH with hi' | hhas | ⟨msg, hmsg⟩ | hhas
    · exact hi'
    · exact absurd hhas (hnone H Task.Announces fun _ => id)
    · rw [hquiet.1] at hmsg
      exact absurd hmsg List.not_mem_nil
    · exact absurd hhas (hnone i Task.Hears fun _ => id)

/-! ## The steps -/

/-- How an access changes the atomics of node `i`. -/
structure Keeps (i : Int) (e e' : LeaderElection) : Prop where
  allNodes : e'.allNodes = e.allNodes
  running : e'.running = e.running
  alive : ∀ id, e.nodeAlive.lookup id = some true → e'.nodeAlive.lookup id = some true
  leader : e'.currentLeaderId = e.currentLeaderId ∨ e'.currentLeaderId = H
  ack : i = H → e.gotHigherAck = false → e'.gotHigherAck = false

/-- How a thread of node `i` moves from `task`: the atomics change from `e` to
`e'`, the thread goes on as `o`, and `sent` is sent. -/
structure Moves (up : Int → Bool) (i : Int) (e : LeaderElection) (task : Task)
    (e' : LeaderElection) (o : Option Task) (sent : List (Int × Message)) : Prop where
  keeps : Keeps H i e e'
  next : ∀ task', o = some task' → TaskOk L H up i e' task'
  messages : ∀ p ∈ sent, up p.1 = true ∧ p.1 ≠ H ∧ p.2.nodeId = H
  round : i = H → e'.electionInProgress = true →
    (∃ task', o = some task' ∧ task'.IsRound) ∨ (e.electionInProgress = true ∧ ¬ task.IsRound)
  electing : i = H → e'.currentLeaderId ≠ H → task.Elects →
    (∃ task', o = some task' ∧ task'.Elects) ∨ (e.electionInProgress = true ∧ ¬ task.IsRound)
  announces : i = H → e'.currentLeaderId = H → task.Announces ∨ e.currentLeaderId ≠ H →
    (∃ task', o = some task' ∧ task'.Announces) ∨
      ∀ j, up j = true → j ≠ H → ∃ msg, (j, msg) ∈ sent
  hears : i ≠ H → task.Hears → e'.currentLeaderId = H ∨ ∃ task', o = some task' ∧ task'.Hears

section Steps

variable {L H} {s : State}

theorem TaskOk.mono {up : Int → Bool} {i : Int} {e e' : LeaderElection} {task : Task}
    (hkeeps : Keeps H i e e') (h : TaskOk L H up i e task) : TaskOk L H up i e' task := by
  cases task with
  | collect term => exact fun hi => hkeeps.ack hi (h hi)
  | exchange term acked higher => exact ⟨h.1, fun hi => hkeeps.ack hi (h.2 hi)⟩
  | testAck term acked => exact ⟨h.1, fun hi => hkeeps.ack hi (h.2 hi)⟩
  | endRound =>
    refine ⟨h.1, ?_⟩
    rcases hkeeps.leader with hl | hl
    · rw [hl, h.2]
    · exact hl
  | broadcastLeader =>
    refine ⟨h.1, ?_⟩
    rcases hkeeps.leader with hl | hl
    · rw [hl, h.2]
    · exact hl
  | _ => exact h

theorem Has.update {s' : State} {t : Nat} {i : Int} {task : Task} {o : Option Task}
    (ht : s.threads t = some (i, task))
    (hthreads : s'.threads = Function.update s.threads t (o.map fun task' => (i, task'))) {j : Int}
    {place : Task → Prop} (h : Has s j place)
    (hmove : j = i → place task → ∃ task', o = some task' ∧ place task') : Has s' j place := by
  obtain ⟨u, task₀, hu, hplace⟩ := h
  by_cases hut : u = t
  · subst hut
    obtain ⟨rfl, rfl⟩ := Prod.mk.inj (Option.some.inj (ht.symm.trans hu))
    obtain ⟨task', rfl, hplace'⟩ := hmove rfl hplace
    exact ⟨u, task', by rw [hthreads, Function.update_self]; rfl, hplace'⟩
  · exact ⟨u, task₀, by rw [hthreads, Function.update_of_ne hut, hu], hplace⟩

theorem Has.of_moved {s' : State} {t : Nat} {i : Int} {task' : Task} {place : Task → Prop}
    (hthreads : s'.threads = Function.update s.threads t (some (i, task')))
    (hplace : place task') : Has s' i place :=
  ⟨t, task', by rw [hthreads, Function.update_self], hplace⟩

theorem Config.keeps (h : Config L H s) {s' : State} (hup : s'.up = s.up)
    (hnode : ∀ j, Keeps H j (s.node j) (s'.node j)) : Config L H s' where
  down := by rw [hup]; exact h.down
  highest := by rw [hup]; exact h.highest
  below := by rw [hup]; exact h.below
  leader := by rw [hup]; exact h.leader
  running i hi := by
    rw [(hnode i).running]
    exact h.running i (hup ▸ hi)
  known i j hi hj := by
    rw [(hnode i).allNodes]
    exact h.known i j (hup ▸ hi) (hup ▸ hj)
  members i hi n hn := by
    rw [(hnode i).allNodes] at hn
    rw [hup]
    obtain ⟨hmem, halive⟩ := h.members i (hup ▸ hi) n hn
    exact ⟨hmem, (hnode i).alive _ halive⟩

theorem Keeps.refl (i : Int) (e : LeaderElection) : Keeps H i e e :=
  ⟨rfl, rfl, fun _ h => h, Or.inl rfl, fun _ h => h⟩

/-- While `H` is not leader, a round of `H` leads to its leadership. -/
theorem Inv.elects_of_round (h : Inv L H s) (hleader : (s.node H).currentLeaderId ≠ H)
    (hround : Has s H Task.IsRound) : Has s H fun task => task.IsRound ∧ task.Elects := by
  obtain ⟨t, task, ht, hplace⟩ := hround
  refine ⟨t, task, ht, hplace, ?_⟩
  have hok := (h.threads t H task ht).2.2
  cases task with
  | endRound => exact absurd hok.2 hleader
  | nextTerm => trivial
  | resetAck term => trivial
  | collect term => trivial
  | exchange term acked higher => trivial
  | testAck term acked => trivial
  | becomeLeader => trivial
  | _ => exact absurd hplace id

/-- The state after a thread has moved. -/
def moved (s : State) (t : Nat) (i : Int) (e : LeaderElection) (o : Option Task)
    (sent : List (Int × Message)) : State :=
  { (s.setNode i e).setThread t (o.map fun task' => (i, task')) with flight := s.flight ++ sent }

section Moved

variable {t : Nat} {i : Int} {e' : LeaderElection} {o : Option Task} {sent : List (Int × Message)}

theorem moved_node_self : (moved s t i e' o sent).node i = e' := Function.update_self ..

theorem moved_node_of_ne {j : Int} (h : j ≠ i) : (moved s t i e' o sent).node j = s.node j :=
  Function.update_of_ne h ..

theorem keeps_moved (h : Keeps H i (s.node i) e') (j : Int) :
    Keeps H j (s.node j) ((moved s t i e' o sent).node j) := by
  by_cases hj : j = i
  · subst hj
    rw [moved_node_self]
    exact h
  · rw [moved_node_of_ne hj]
    exact .refl j _

variable {task : Task} (h : Inv L H s) (ht : s.threads t = some (i, task))
  (hm : Moves L H s.up i (s.node i) task e' o sent)
include h ht hm

theorem threads_moved {u : Nat} {j : Int} {task₀ : Task}
    (hu : (moved s t i e' o sent).threads u = some (j, task₀)) :
    u < s.next ∧ s.up j = true ∧ TaskOk L H s.up j ((moved s t i e' o sent).node j) task₀ := by
  by_cases hut : u = t
  · subst hut
    have hth : o.map (fun task' => (i, task')) = some (j, task₀) :=
      (Function.update_self u _ s.threads).symm.trans hu
    obtain ⟨task', htask', heq⟩ := Option.map_eq_some_iff.mp hth
    obtain ⟨rfl, rfl⟩ := Prod.mk.inj heq
    rw [moved_node_self]
    exact ⟨(h.threads u i task ht).1, (h.threads u i task ht).2.1, hm.next task' htask'⟩
  · have hold : s.threads u = some (j, task₀) :=
      (Function.update_of_ne hut _ s.threads).symm.trans hu
    obtain ⟨hlt, hup, hok⟩ := h.threads u j task₀ hold
    exact ⟨hlt, hup, hok.mono (keeps_moved hm.keeps j)⟩

theorem round_moved (hflag : ((moved s t i e' o sent).node H).electionInProgress = true) :
    Has (moved s t i e' o sent) H Task.IsRound := by
  by_cases hi : H = i
  · subst hi
    rw [moved_node_self] at hflag
    rcases hm.round rfl hflag with ⟨task', rfl, hplace⟩ | ⟨hold, hnot⟩
    · exact .of_moved rfl hplace
    · exact (h.round hold).update ht rfl fun _ hplace => absurd hplace hnot
  · rw [moved_node_of_ne hi] at hflag
    exact (h.round hflag).update ht rfl fun hi' => absurd hi' hi

theorem electing_moved (hleader : ((moved s t i e' o sent).node H).currentLeaderId ≠ H) :
    Has (moved s t i e' o sent) H Task.Elects := by
  by_cases hi : H = i
  · subst hi
    rw [moved_node_self] at hleader
    have hold : (s.node H).currentLeaderId ≠ H := by
      rcases hm.keeps.leader with hl | hl
      · rwa [← hl]
      · exact absurd hl hleader
    by_cases helects : task.Elects
    · rcases hm.electing rfl hleader helects with ⟨task', rfl, hplace⟩ | ⟨hflag, hnot⟩
      · exact .of_moved rfl hplace
      · -- The thread ends, and the round that holds the flag goes on.
        have hhas : Has (moved s t H e' o sent) H fun task' => task'.IsRound ∧ task'.Elects :=
          (h.elects_of_round hold (h.round hflag)).update ht rfl
            fun _ hboth => absurd hboth.1 hnot
        obtain ⟨u, task', hu, -, hplace⟩ := hhas
        exact ⟨u, task', hu, hplace⟩
    · exact (h.electing hold).update ht rfl fun _ hplace => absurd hplace helects
  · rw [moved_node_of_ne hi] at hleader
    exact (h.electing hleader).update ht rfl fun hi' => absurd hi' hi

theorem announced_moved {j : Int} (hj : s.up j = true) (hjH : j ≠ H)
    (hleader : ((moved s t i e' o sent).node H).currentLeaderId = H) :
    ((moved s t i e' o sent).node j).currentLeaderId = H ∨
      Has (moved s t i e' o sent) H Task.Announces ∨
      (∃ msg, (j, msg) ∈ (moved s t i e' o sent).flight) ∨
      Has (moved s t i e' o sent) j Task.Hears := by
  have hflight : (∃ msg, (j, msg) ∈ s.flight) ∨ (∃ msg, (j, msg) ∈ sent) →
      ∃ msg, (j, msg) ∈ (moved s t i e' o sent).flight := by
    intro hmem
    rcases hmem with ⟨msg, hmem⟩ | ⟨msg, hmem⟩
    · exact ⟨msg, List.mem_append_left _ hmem⟩
    · exact ⟨msg, List.mem_append_right _ hmem⟩
  by_cases hi : H = i
  · -- A thread of `H` moves: it becomes leader, or announces.
    subst hi
    rw [moved_node_self] at hleader
    have hnew : task.Announces ∨ (s.node H).currentLeaderId ≠ H →
        Has (moved s t H e' o sent) H Task.Announces ∨
          ∃ msg, (j, msg) ∈ (moved s t H e' o sent).flight := by
      intro hwhen
      rcases hm.announces rfl hleader hwhen with ⟨task', rfl, hplace⟩ | hsent
      · exact Or.inl (.of_moved rfl hplace)
      · exact Or.inr (hflight (Or.inr (hsent j hj hjH)))
    by_cases hold : (s.node H).currentLeaderId = H
    · rw [moved_node_of_ne hjH]
      rcases h.announced j hj hjH hold with hl | hhas | hmem | hhas
      · exact Or.inl hl
      · by_cases hann : task.Announces
        · rcases hnew (Or.inl hann) with hhas' | hmem
          · exact Or.inr (Or.inl hhas')
          · exact Or.inr (Or.inr (Or.inl hmem))
        · exact Or.inr (Or.inl (hhas.update ht rfl fun _ hplace => absurd hplace hann))
      · exact Or.inr (Or.inr (Or.inl (hflight (Or.inl hmem))))
      · exact Or.inr (Or.inr (Or.inr (hhas.update ht rfl fun hji => absurd hji hjH)))
    · rcases hnew (Or.inr hold) with hhas | hmem
      · exact Or.inr (Or.inl hhas)
      · exact Or.inr (Or.inr (Or.inl hmem))
  · -- A thread of another survivor moves: it may store the announcement.
    rw [moved_node_of_ne hi] at hleader
    rcases h.announced j hj hjH hleader with hl | hhas | hmem | hhas
    · left
      rcases (keeps_moved hm.keeps j).leader with hk | hk
      · rw [hk, hl]
      · exact hk
    · exact Or.inr (Or.inl (hhas.update ht rfl fun hi' => absurd hi' hi))
    · exact Or.inr (Or.inr (Or.inl (hflight (Or.inl hmem))))
    · by_cases hji : j = i
      · subst hji
        by_cases hhears : task.Hears
        · rcases hm.hears hjH hhears with hl | ⟨task', rfl, hplace⟩
          · rw [moved_node_self]
            exact Or.inl hl
          · exact Or.inr (Or.inr (Or.inr (.of_moved rfl hplace)))
        · exact Or.inr (Or.inr (Or.inr (hhas.update ht rfl fun _ hplace => absurd hplace hhears)))
      · exact Or.inr (Or.inr (Or.inr (hhas.update ht rfl fun hji' => absurd hji' hji)))

/-- A thread moves. -/
theorem inv_moved : Inv L H (moved s t i e' o sent) where
  config := h.config.keeps rfl (keeps_moved hm.keeps)
  leaders j hj := by
    rcases (keeps_moved hm.keeps j).leader with hl | hl
    · rw [hl]
      exact h.leaders j hj
    · exact Or.inr hl
  flight p hp := by
    rcases List.mem_append.mp hp with hp | hp
    · exact h.flight p hp
    · exact hm.messages p hp
  threads u j task₀ hu := threads_moved h ht hm hu
  round := round_moved h ht hm
  electing := electing_moved h ht hm
  announced j hj hjH hleader := announced_moved h ht hm hj hjH hleader

end Moved

end Steps

end Election
end DistributedDb
