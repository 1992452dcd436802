import DistributedDb.Cluster.Reelection
import DistributedDb.Node.ElectionNet

/-
Runs of the re-election.

Every access keeps the invariant as long as no announcement is rejected by a
survivor that still records the crashed leader and no answer is lost.  The
launched cluster shows both outcomes: when node 1 notices the crash first, the
announcement of node 2 comes in a term that node 1 has reached by itself.
-/

namespace DistributedDb
namespace Election

section Steps

variable {L H : Int} {s : State}

/-! ## One access at a time -/

/-- Where an access leads, with what it sends to nodes that run. -/
def Accesses (L H : Int) (s : State) (i : Int) (task : Task) : Prop :=
  Moves L H s.up i (s.node i) task (task.perform i (s.node i)).node
    (task.perform i (s.node i)).task
    ((task.perform i (s.node i)).sent.filter fun p => s.up p.1)

section Moves

variable {up : Int → Bool} {i : Int} {e e' : LeaderElection} {task task' : Task}

/-- The thread goes on, with the leader and the announcements left alone. -/
theorem Moves.goes (hkeeps : Keeps H i e e') (hleader : e'.currentLeaderId = e.currentLeaderId)
    (hann : ¬ task.Announces) (hhears : ¬ task.Hears) (hnext : TaskOk L H up i e' task')
    (hround : i = H → e'.electionInProgress = true →
      task'.IsRound ∨ (e.electionInProgress = true ∧ ¬ task.IsRound))
    (helects : i = H → task.Elects → task'.Elects) :
    Moves L H up i e task e' (some task') [] where
  keeps := hkeeps
  next _ htask := Option.some.inj htask ▸ hnext
  messages := by simp
  round hi hflag := (hround hi hflag).imp (fun hr => ⟨task', rfl, hr⟩) id
  electing hi _ hel := Or.inl ⟨task', rfl, helects hi hel⟩
  announces _ hl hwhen := by
    rcases hwhen with hwhen | hwhen
    · exact absurd hwhen hann
    · exact absurd (hleader.symm.trans hl) hwhen
  hears _ hh := absurd hh hhears

/-- The thread ends, with the leader left alone. -/
theorem Moves.ends (hkeeps : Keeps H i e e') (hleader : e'.currentLeaderId = e.currentLeaderId)
    (hann : ¬ task.Announces) (hhears : i ≠ H → task.Hears → e.currentLeaderId = H)
    (hround : i = H → e'.electionInProgress = true → e.electionInProgress = true ∧ ¬ task.IsRound)
    (helects : i = H → e.currentLeaderId ≠ H → task.Elects →
      e.electionInProgress = true ∧ ¬ task.IsRound) :
    Moves L H up i e task e' none [] where
  keeps := hkeeps
  next _ htask := absurd htask (by simp)
  messages := by simp
  round hi hflag := Or.inr (hround hi hflag)
  electing hi hl hel := Or.inr (helects hi (hleader ▸ hl) hel)
  announces _ hl hwhen := by
    rcases hwhen with hwhen | hwhen
    · exact absurd hwhen hann
    · exact absurd (hleader.symm.trans hl) hwhen
  hears hi hh := Or.inl (hleader.trans (hhears hi hh))

/-- The thread of an announcement goes on. -/
theorem Moves.hearing (hkeeps : Keeps H i e e') (hi : i ≠ H) (hnext : TaskOk L H up i e' task')
    (hhears : e'.currentLeaderId = H ∨ task'.Hears) :
    Moves L H up i e task e' (some task') [] where
  keeps := hkeeps
  next _ htask := Option.some.inj htask ▸ hnext
  messages := by simp
  round hi' := absurd hi' hi
  electing hi' := absurd hi' hi
  announces hi' := absurd hi' hi
  hears _ _ := hhears.imp id fun hh => ⟨task', rfl, hh⟩

/-- The thread of the new leader goes on to its announcement. -/
theorem Moves.announcing (hkeeps : Keeps H i e e') (hi : i = H) (hleader : e'.currentLeaderId = H)
    (hnext : TaskOk L H up i e' task') (hround : e'.electionInProgress = true → task'.IsRound)
    (hann : task'.Announces) : Moves L H up i e task e' (some task') [] where
  keeps := hkeeps
  next _ htask := Option.some.inj htask ▸ hnext
  messages := by simp
  round _ hflag := Or.inl ⟨task', rfl, hround hflag⟩
  electing _ hl := absurd hleader hl
  announces _ _ _ := Or.inl ⟨task', rfl, hann⟩
  hears hi' := absurd hi hi'

end Moves

/-- The table of living nodes only grows. -/
theorem lookup_insert_true {table : AList fun _ : Int => Bool} {id nodeId : Int}
    (h : table.lookup id = some true) : (table.insert nodeId true).lookup id = some true := by
  by_cases hid : id = nodeId
  · subst hid
    exact AList.lookup_insert table
  · rw [AList.lookup_insert_ne hid]
    exact h

/-- Accesses that leave the leader and the answer alone. -/
theorem Keeps.of_same {i : Int} {e e' : LeaderElection} (hnodes : e'.allNodes = e.allNodes)
    (hrunning : e'.running = e.running) (halive : e'.nodeAlive = e.nodeAlive)
    (hleader : e'.currentLeaderId = e.currentLeaderId) (hack : e'.gotHigherAck = e.gotHigherAck) :
    Keeps H i e e' :=
  ⟨hnodes, hrunning, fun _ h => halive ▸ h, Or.inl hleader, fun _ h => hack.trans h⟩

section Accesses

variable (h : Inv L H s) {t : Nat} {i : Int}
include h

theorem asks_higherNodes (hi : s.up i = true) :
    Asks L H s.up i false ((s.node i).higherNodes i) where
  above n hn := by
    obtain ⟨hmem, hn⟩ := List.mem_filter.mp hn
    simp only [Bool.and_eq_true, decide_eq_true_eq] at hn
    exact ⟨hn.1, (h.config.members i hi n hmem).1⟩
  highest hne := by
    obtain ⟨n, hmem, hid⟩ := h.config.known i H hi h.config.highest
    have hle := h.config.below i hi
    have halive := (h.config.members i hi n hmem).2
    refine Or.inr ⟨n, List.mem_filter.mpr ⟨hmem, ?_⟩, hid⟩
    simp only [Bool.and_eq_true, decide_eq_true_eq]
    exact ⟨by omega, halive⟩

theorem accesses_onNodeFailure {nodeId : Int}
    (ht : s.threads t = some (i, .onNodeFailure nodeId)) :
    Accesses L H s i (.onNodeFailure nodeId) := by
  obtain ⟨-, hup, hok⟩ := h.threads t i _ ht
  obtain rfl : nodeId = L := hok
  by_cases hleader : (s.node i).currentLeaderId = nodeId
  · simp only [Accesses, Task.perform, hleader, if_true, List.filter_nil]
    exact .goes (.refl i _) rfl id id trivial (fun _ hflag => Or.inr ⟨hflag, id⟩)
      fun _ _ => trivial
  · simp only [Accesses, Task.perform, hleader, if_false, List.filter_nil]
    refine .ends (.refl i _) rfl id (fun _ hh => absurd hh id) (fun _ hflag => ⟨hflag, id⟩) ?_
    intro _ hne
    exact absurd ((h.leaders i hup).resolve_left hleader) hne

theorem accesses_trigger (ht : s.threads t = some (i, .trigger)) : Accesses L H s i .trigger := by
  have hrunning := h.config.running i (h.threads t i _ ht).2.1
  by_cases hflag : (s.node i).electionInProgress = true
  · simp only [Accesses, Task.perform, hflag, or_true, if_true, List.filter_nil]
    exact .ends (.refl i _) rfl id (fun _ hh => absurd hh id) (fun _ _ => ⟨hflag, id⟩)
      fun _ _ _ => ⟨hflag, id⟩
  · have hperf : Task.trigger.perform i (s.node i) =
        { node := { s.node i with electionInProgress := true }, task := some .nextTerm } := by
      refine if_neg ?_
      rw [hrunning]
      simp [hflag]
    rw [Accesses, hperf]
    exact .goes (.of_same rfl rfl rfl rfl rfl) rfl id id trivial (fun _ _ => Or.inl trivial)
      fun _ _ => trivial

theorem accesses_exchange {term : Int} {acked : Bool} {higher : List NodeInfo}
    (ht : s.threads t = some (i, .exchange term acked higher))
    (hdown : ∀ n rest, higher = n :: rest → s.up n.id = false) :
    Accesses L H s i (.exchange term acked higher) := by
  obtain ⟨hasks, hack⟩ := (h.threads t i _ ht).2.2
  cases higher with
  | nil =>
    refine .goes (.refl i _) rfl id id ⟨fun hi => ?_, hack⟩ (fun _ _ => Or.inl trivial)
      fun _ _ => trivial
    rcases hasks.highest hi with hacked | ⟨n, hn, -⟩
    · exact hacked
    · exact absurd hn List.not_mem_nil
  | cons n rest =>
    refine .goes (.refl i _) rfl id id ⟨⟨fun m hm => ?_, fun hi => ?_⟩, hack⟩
      (fun _ _ => Or.inl trivial) fun _ _ => trivial
    · exact hasks.above m (List.mem_cons_of_mem n hm)
    · rcases hasks.highest hi with hacked | ⟨m, hm, hid⟩
      · exact Or.inl hacked
      · rcases List.mem_cons.mp hm with rfl | hm
        · -- The highest survivor runs, so it is not the one that was skipped.
          have hgone := hdown m rest rfl
          rw [hid, h.config.highest] at hgone
          exact absurd hgone (by simp)
        · exact Or.inr ⟨m, hm, hid⟩

theorem accesses_testAck {term : Int} {acked : Bool}
    (ht : s.threads t = some (i, .testAck term acked)) (hheeded : heeded L s (.run t) = true) :
    Accesses L H s i (.testAck term acked) := by
  obtain ⟨hacked, hack⟩ := (h.threads t i _ ht).2.2
  by_cases hi : i = H
  · simp only [Accesses, Task.perform, hack hi, Bool.false_eq_true, if_false, List.filter_nil]
    exact .goes (.refl i _) rfl id id hi (fun _ _ => Or.inl trivial) fun _ _ => trivial
  · have hgot : (s.node i).gotHigherAck = true := by
      rw [hacked hi] at ht
      rwa [heeded, ht] at hheeded
    simp only [Accesses, Task.perform, hgot, if_true, List.filter_nil]
    exact .goes (.refl i _) rfl id id hi (fun hi' => absurd hi' hi) fun hi' => absurd hi' hi

theorem accesses_broadcastLeader (ht : s.threads t = some (i, .broadcastLeader)) :
    Accesses L H s i .broadcastLeader := by
  obtain ⟨-, hup, rfl, hleader⟩ := h.threads t i _ ht
  have hsent : ∀ p, p ∈ ((Task.broadcastLeader.perform i (s.node i)).sent.filter
      fun p => s.up p.1) ↔ (∃ n ∈ (s.node i).allNodes, n.id ≠ i ∧
        p = (n.id, leaderMsg i (s.node i).electionTerm)) ∧ s.up p.1 = true := by
    intro p
    simp only [Task.perform, List.mem_filter, List.mem_map, decide_eq_true_eq]
    constructor
    · rintro ⟨⟨n, ⟨hn, hne⟩, rfl⟩, hp⟩
      exact ⟨⟨n, hn, hne, rfl⟩, hp⟩
    · rintro ⟨⟨n, hn, hne, rfl⟩, hp⟩
      exact ⟨⟨n, ⟨hn, hne⟩, rfl⟩, hp⟩
  refine ⟨.refl i _, fun _ htask => absurd htask (by simp [Task.perform]), fun p hp => ?_,
    fun _ hflag => Or.inr ⟨hflag, id⟩, fun _ hl => absurd hleader hl, fun _ _ _ => Or.inr ?_,
    fun hi => absurd rfl hi⟩
  · obtain ⟨⟨n, -, hne, rfl⟩, hp⟩ := (hsent p).mp hp
    exact ⟨hp, hne, rfl⟩
  · intro j hj hne
    obtain ⟨n, hn, rfl⟩ := h.config.known i j hup hj
    exact ⟨_, (hsent _).mpr ⟨⟨n, hn, hne, rfl⟩, hj⟩⟩

theorem accesses_testTerm {msg : Message} (ht : s.threads t = some (i, .testTerm msg))
    (hheeded : heeded L s (.run t) = true) : Accesses L H s i (.testTerm msg) := by
  obtain ⟨-, hup, hi, hmsg⟩ := h.threads t i _ ht
  by_cases hterm : (s.node i).electionTerm < msg.term
  · simp only [Accesses, Task.perform, hterm, if_true, List.filter_nil]
    exact .hearing (.refl i _) hi ⟨hi, hmsg⟩ (Or.inr trivial)
  · simp only [Accesses, Task.perform, hterm, if_false, List.filter_nil]
    refine .ends (.refl i _) rfl id (fun _ _ => ?_) (fun hi' => absurd hi' hi)
      fun hi' => absurd hi' hi
    -- The announcement is rejected, so the survivor does not record `L` any more.
    rw [heeded, ht] at hheeded
    rcases h.leaders i hup with hleader | hleader
    · simp [hleader, hterm] at hheeded
    · exact hleader

/-- Every access of a step that is heeded, apart from an exchange that is
answered. -/
theorem accesses_of_heeded {task : Task} (ht : s.threads t = some (i, task))
    (hheeded : heeded L s (.run t) = true)
    (hdown : ∀ term acked n rest, task = .exchange term acked (n :: rest) → s.up n.id = false) :
    Accesses L H s i task := by
  obtain ⟨-, hup, hok⟩ := h.threads t i task ht
  cases task with
  | onNodeFailure nodeId => exact accesses_onNodeFailure h ht
  | trigger => exact accesses_trigger h ht
  | nextTerm =>
    exact .goes (.of_same rfl rfl rfl rfl rfl) rfl id id trivial (fun _ _ => Or.inl trivial)
      fun _ _ => trivial
  | resetAck term =>
    exact .goes ⟨rfl, rfl, fun _ ha => ha, Or.inl rfl, fun _ _ => rfl⟩ rfl id id (fun _ => rfl)
      (fun _ _ => Or.inl trivial) fun _ _ => trivial
  | collect term =>
    exact .goes (.refl i _) rfl id id ⟨asks_higherNodes h hup, hok⟩ (fun _ _ => Or.inl trivial)
      fun _ _ => trivial
  | exchange term acked higher =>
    exact accesses_exchange h ht fun n rest hhigher => hdown term acked n rest (by rw [hhigher])
  | storeAck term higher =>
    exact .goes ⟨rfl, rfl, fun _ ha => ha, Or.inl rfl, fun hi => absurd hi hok.1⟩ rfl id id
      ⟨hok.2, fun hi => absurd hi hok.1⟩ (fun hi => absurd hi hok.1) fun hi => absurd hi hok.1
  | testAck term acked => exact accesses_testAck h ht hheeded
  | becomeLeader =>
    obtain rfl : i = H := hok
    exact .announcing ⟨rfl, rfl, fun _ ha => ha, Or.inr rfl, fun _ ha => ha⟩ rfl rfl ⟨rfl, rfl⟩
      (fun _ => trivial) trivial
  | endRound =>
    exact .announcing (.of_same rfl rfl rfl rfl rfl) hok.1 hok.2 hok
      (fun hflag => absurd hflag Bool.false_ne_true) trivial
  | broadcastLeader => exact accesses_broadcastLeader h ht
  | startTimer term =>
    exact .goes (.refl i _) rfl id id hok (fun hi => absurd hi hok) fun hi => absurd hi hok
  | standBack =>
    exact .ends (.of_same rfl rfl rfl rfl rfl) rfl id (fun _ hh => absurd hh id)
      (fun hi => absurd hi hok) fun hi => absurd hi hok
  | timer term =>
    by_cases hflag : (s.node i).electionInProgress = true
    · simp only [Accesses, Task.perform, hflag, if_true, List.filter_nil]
      exact .goes (.refl i _) rfl id id trivial (fun _ _ => Or.inr ⟨hflag, id⟩)
        fun _ he => absurd he id
    · simp only [Accesses, Task.perform, hflag, List.filter_nil]
      exact .ends (.refl i _) rfl id (fun _ hh => absurd hh id)
        (fun _ hflag' => absurd hflag' hflag) fun _ _ he => absurd he id
  | timerTerm term =>
    by_cases hterm : (s.node i).electionTerm = term
    · simp only [Accesses, Task.perform, hterm, if_true, List.filter_nil]
      exact .goes (.refl i _) rfl id id trivial (fun _ hflag => Or.inr ⟨hflag, id⟩)
        fun _ he => absurd he id
    · simp only [Accesses, Task.perform, hterm, if_false, List.filter_nil]
      exact .ends (.refl i _) rfl id (fun _ hh => absurd hh id) (fun _ hflag => ⟨hflag, id⟩)
        fun _ _ he => absurd he id
  | timerRetry =>
    exact .goes (.of_same rfl rfl rfl rfl rfl) rfl id id trivial
      (fun _ hflag => absurd hflag Bool.false_ne_true) fun _ he => absurd he id
  | testLeader msg =>
    by_cases hid : (s.node i).currentLeaderId < msg.nodeId
    · simp only [Accesses, Task.perform, hid, if_true, List.filter_nil]
      exact .hearing (.refl i _) hok.1 hok (Or.inr trivial)
    · simp only [Accesses, Task.perform, hid, if_false, List.filter_nil]
      exact .hearing (.refl i _) hok.1 hok (Or.inr trivial)
  | testTerm msg => exact accesses_testTerm h ht hheeded
  | storeLeader msg =>
    exact .hearing ⟨rfl, rfl, fun _ ha => ha, Or.inr hok.2, fun _ ha => ha⟩ hok.1 hok
      (Or.inl hok.2)
  | storeTerm msg =>
    exact .goes (.of_same rfl rfl rfl rfl rfl) rfl id id hok (fun hi => absurd hi hok.1)
      fun hi => absurd hi hok.1
  | clearProgress msg =>
    exact .goes (.of_same rfl rfl rfl rfl rfl) rfl id id hok (fun hi => absurd hi hok.1)
      fun hi => absurd hi hok.1
  | noteAlive msg =>
    exact .ends ⟨rfl, rfl, fun id ha => lookup_insert_true ha, Or.inl rfl, fun _ ha => ha⟩ rfl id
      (fun _ hh => absurd hh id) (fun hi => absurd hi hok.1) fun hi => absurd hi hok.1

end Accesses

/-! ## Whole steps -/

theorem Has.spawn (h : Inv L H s) {i j : Int} {task : Task} {place : Task → Prop}
    (hhas : Has s j place) : Has (s.spawn i task) j place := by
  obtain ⟨t, task₀, ht, hplace⟩ := hhas
  have hne : t ≠ s.next := by
    have := (h.threads t j task₀ ht).1
    omega
  exact ⟨t, task₀, (s.spawn_threads_of_ne i task hne).trans ht, hplace⟩

theorem has_spawned {i : Int} {task : Task} {place : Task → Prop} (hplace : place task) :
    Has (s.spawn i task) i place :=
  ⟨s.next, task, s.spawn_threads_self i task, hplace⟩

theorem threads_spawn (h : Inv L H s) {i : Int} {task : Task} (hup : s.up i = true)
    (hok : TaskOk L H s.up i (s.node i) task) {t : Nat} {j : Int} {task₀ : Task}
    (ht : (s.spawn i task).threads t = some (j, task₀)) :
    t < s.next + 1 ∧ s.up j = true ∧ TaskOk L H s.up j (s.node j) task₀ := by
  by_cases hnew : t = s.next
  · subst hnew
    rw [s.spawn_threads_self] at ht
    obtain ⟨rfl, rfl⟩ := Prod.mk.inj (Option.some.inj ht)
    exact ⟨Nat.lt_succ_self _, hup, hok⟩
  · rw [s.spawn_threads_of_ne i task hnew] at ht
    obtain ⟨hlt, hup', hok'⟩ := h.threads t j task₀ ht
    exact ⟨Nat.lt_succ_of_lt hlt, hup', hok'⟩

/-- A new thread starts. -/
theorem Inv.spawn (h : Inv L H s) {i : Int} {task : Task} (hup : s.up i = true)
    (hok : TaskOk L H s.up i (s.node i) task) : Inv L H (s.spawn i task) where
  config := ⟨h.config.down, h.config.highest, h.config.below, h.config.leader, h.config.running,
    h.config.known, h.config.members⟩
  leaders := h.leaders
  flight := h.flight
  threads _ _ _ ht := threads_spawn h hup hok ht
  round hflag := (h.round hflag).spawn h
  electing hleader := (h.electing hleader).spawn h
  announced j hj hjH hleader :=
    (h.announced j hj hjH hleader).imp id (Or.imp (Has.spawn h) (Or.imp id (Has.spawn h)))

/-- A node learns that another one is alive. -/
theorem Inv.noteAlive (h : Inv L H s) (j nodeId : Int) :
    Inv L H (s.setNode j
      { s.node j with nodeAlive := (s.node j).nodeAlive.insert nodeId true }) := by
  have hnode : ∀ k, (s.setNode j
      { s.node j with nodeAlive := (s.node j).nodeAlive.insert nodeId true }).node k =
      if k = j then { s.node k with nodeAlive := (s.node k).nodeAlive.insert nodeId true }
      else s.node k := by
    intro k
    by_cases hk : k = j
    · subst hk
      rw [if_pos rfl]
      exact Function.update_self ..
    · rw [if_neg hk]
      exact Function.update_of_ne hk ..
  have hkeeps : ∀ k, Keeps H k (s.node k) ((s.setNode j
      { s.node j with nodeAlive := (s.node j).nodeAlive.insert nodeId true }).node k) := by
    intro k
    rw [hnode]
    split
    · exact ⟨rfl, rfl, fun _ ha => lookup_insert_true ha, Or.inl rfl, fun _ ha => ha⟩
    · exact .refl k _
  have hleader : ∀ k, ((s.setNode j { s.node j with
      nodeAlive := (s.node j).nodeAlive.insert nodeId true }).node k).currentLeaderId =
      (s.node k).currentLeaderId := by
    intro k
    rw [hnode]
    split <;> rfl
  have hflag : ((s.setNode j
      { s.node j with nodeAlive := (s.node j).nodeAlive.insert nodeId true }).node
        H).electionInProgress = (s.node H).electionInProgress := by
    rw [hnode]
    split <;> rfl
  refine ⟨h.config.keeps rfl hkeeps, fun i hi => ?_, h.flight, fun t i task ht => ?_, fun hf => ?_,
    fun hl => ?_, fun i hi hiH hl => ?_⟩
  · rw [hleader]
    exact h.leaders i hi
  · obtain ⟨hlt, hup, hok⟩ := h.threads t i task ht
    exact ⟨hlt, hup, hok.mono (hkeeps i)⟩
  · rw [hflag] at hf
    exact h.round hf
  · rw [hleader] at hl
    exact h.electing hl
  · rw [hleader] at hl ⊢
    exact h.announced i hi hiH hl

/-- An announcement arrives. -/
theorem inv_deliver (h : Inv L H s) {j : Int} {msg : Message} {s' : State}
    (hstep : s.step (.deliver j msg) = some s') : Inv L H s' := by
  rw [State.step] at hstep
  by_cases hmem : (j, msg) ∈ s.flight
  · rw [if_pos hmem] at hstep
    obtain rfl := Option.some.inj hstep
    obtain ⟨hup, hjH, hmsg⟩ := h.flight (j, msg) hmem
    have hok : TaskOk L H s.up j (s.node j) (.testLeader msg) := ⟨hjH, hmsg⟩
    have hspawn := h.spawn hup hok
    refine ⟨⟨hspawn.config.down, hspawn.config.highest, hspawn.config.below, hspawn.config.leader,
      hspawn.config.running, hspawn.config.known, hspawn.config.members⟩, hspawn.leaders,
      fun p hp => h.flight p (List.mem_of_mem_erase hp), hspawn.threads, hspawn.round,
      hspawn.electing, fun i hi hiH hl => ?_⟩
    rcases h.announced i hi hiH hl with hleader | hhas | ⟨msg', hmem'⟩ | hhas
    · exact Or.inl hleader
    · exact Or.inr (Or.inl (hhas.spawn h))
    · by_cases hsame : (i, msg') = (j, msg)
      · obtain ⟨rfl, rfl⟩ := Prod.mk.inj hsame
        exact Or.inr (Or.inr (Or.inr (has_spawned trivial)))
      · exact Or.inr (Or.inr (Or.inl ⟨msg', (List.mem_erase_of_ne hsame).mpr hmem'⟩))
    · exact Or.inr (Or.inr (Or.inr (hhas.spawn h)))
  · exact absurd hstep (by simp [hmem])

theorem runLocal_eq (s : State) (t : Nat) (i : Int) (task : Task) :
    s.runLocal t i task =
      match (task.perform i (s.node i)).spawned with
      | none => moved s t i (task.perform i (s.node i)).node (task.perform i (s.node i)).task
          ((task.perform i (s.node i)).sent.filter fun p => s.up p.1)
      | some task' => (moved s t i (task.perform i (s.node i)).node
          (task.perform i (s.node i)).task
          ((task.perform i (s.node i)).sent.filter fun p => s.up p.1)).spawn i task' := rfl

/-- A thread that only changes its place. -/
theorem moved_eq_setThread (s : State) (t : Nat) (i : Int) (task : Task) :
    moved s t i (s.node i) (some task) [] = s.setThread t (some (i, task)) := by
  simp [moved, State.setNode, State.setThread]

theorem inv_runLocal (h : Inv L H s) {t : Nat} {i : Int} {task : Task}
    (ht : s.threads t = some (i, task)) (hmoves : Accesses L H s i task)
    (hspawned : ∀ task', (task.perform i (s.node i)).spawned = some task' →
      ∃ term, task' = .timer term) : Inv L H (s.runLocal t i task) := by
  have hmoved := inv_moved h ht hmoves
  rw [runLocal_eq]
  cases hsp : (task.perform i (s.node i)).spawned with
  | none => exact hmoved
  | some task' =>
    obtain ⟨term, rfl⟩ := hspawned task' hsp
    have hok : TaskOk L H s.up i (task.perform i (s.node i)).node (.timer term) := trivial
    exact hmoved.spawn (h.threads t i task ht).2.1 hok

/-- An exchange with a node that runs: it starts a round there, and is
answered. -/
theorem inv_exchange (h : Inv L H s) {t : Nat} {i term : Int} {acked : Bool} {n : NodeInfo}
    {rest : List NodeInfo} (ht : s.threads t = some (i, .exchange term acked (n :: rest)))
    (hn : s.up n.id = true) :
    Inv L H (s.runThread t i (.exchange term acked (n :: rest))) := by
  obtain ⟨hlt, hup, hasks, -⟩ := h.threads t i _ ht
  have habove := (hasks.above n List.mem_cons_self).1
  have hi : i ≠ H := by
    have := h.config.below n.id hn
    omega
  have hanswer : s.answerElection i n.id term =
      ((s.setNode n.id { s.node n.id with
          nodeAlive := (s.node n.id).nodeAlive.insert i true }).spawn n.id .trigger,
        LeaderElection.ack n.id) := by
    simp [State.answerElection, LeaderElection.handleMessage, electionMsg, habove]
  have hstate : s.runThread t i (.exchange term acked (n :: rest)) =
      ((s.setNode n.id { s.node n.id with
          nodeAlive := (s.node n.id).nodeAlive.insert i true }).spawn n.id .trigger).setThread t
        (some (i, .storeAck term rest)) := by
    simp only [State.runThread, hn, if_true, hanswer]
    rfl
  have hok : TaskOk L H s.up n.id ((s.setNode n.id { s.node n.id with
      nodeAlive := (s.node n.id).nodeAlive.insert i true }).node n.id) .trigger := trivial
  have hinv := (h.noteAlive n.id i).spawn hn hok
  have ht' : ((s.setNode n.id { s.node n.id with
      nodeAlive := (s.node n.id).nodeAlive.insert i true }).spawn n.id .trigger).threads t =
      some (i, .exchange term acked (n :: rest)) :=
    (State.spawn_threads_of_ne _ _ _ (Nat.ne_of_lt hlt)).trans ht
  rw [hstate, ← moved_eq_setThread]
  refine inv_moved hinv ht' (.goes (.refl i _) rfl id id ⟨hi, ⟨fun m hm => ?_, fun _ => Or.inl rfl⟩⟩
    (fun hi' => absurd hi' hi) fun hi' => absurd hi' hi)
  exact hasks.above m (List.mem_cons_of_mem n hm)

theorem inv_step (h : Inv L H s) {a : Action} {s' : State} (hheeded : heeded L s a = true)
    (hstep : s.step a = some s') : Inv L H s' := by
  cases a with
  | deliver j msg => exact inv_deliver h hstep
  | run t =>
    obtain ⟨⟨i, task⟩, ht, rfl⟩ := Option.map_eq_some_iff.mp hstep
    by_cases hanswered : ∃ term acked n rest,
        task = .exchange term acked (n :: rest) ∧ s.up n.id = true
    · obtain ⟨term, acked, n, rest, rfl, hn⟩ := hanswered
      exact inv_exchange h ht hn
    · have hdown : ∀ term acked n rest, task = .exchange term acked (n :: rest) →
          s.up n.id = false := by
        intro term acked n rest htask
        by_contra hn
        exact hanswered ⟨term, acked, n, rest, htask, by simpa using hn⟩
      have hlocal : s.runThread t i task = s.runLocal t i task := by
        cases task with
        | exchange term acked higher =>
          cases higher with
          | nil => rfl
          | cons n rest => simp [State.runThread, hdown term acked n rest rfl]
        | _ => rfl
      show Inv L H (s.runThread t i task)
      rw [hlocal]
      refine inv_runLocal h ht (accesses_of_heeded h ht hheeded hdown) fun task' hspawned => ?_
      obtain ⟨term, -, rfl⟩ := Net.spawned_perform hspawned
      exact ⟨term, rfl⟩

end Steps

theorem up_step {s s' : State} {a : Action} (hstep : s.step a = some s') : s'.up = s.up := by
  cases a with
  | deliver j msg =>
    rw [State.step] at hstep
    split at hstep
    · exact Option.some.inj hstep ▸ rfl
    · exact absurd hstep (by simp)
  | run t =>
    obtain ⟨⟨i, task⟩, -, rfl⟩ := Option.map_eq_some_iff.mp hstep
    have hlocal : (s.runLocal t i task).up = s.up := by
      rw [runLocal_eq]
      split <;> rfl
    show (s.runThread t i task).up = s.up
    unfold State.runThread
    split
    · split
      · unfold State.answerElection
        dsimp only
        split <;> rfl
      · exact hlocal
    · exact hlocal

/-- After the leader `L` has crashed, every run in which no announcement is
rejected by a survivor that still records `L` and no answer is lost ends, when
nothing is on its way and no round is running, with all survivors recording the
highest of them. -/
theorem reelection_agrees {L H : Int} {s s' : State} {actions : List Action}
    (hcrashed : Crashed L H s) (hheeded : Heeded L s actions)
    (hrun : Runs.exec State.step s actions = some s') (hquiet : s'.Quiescent) :
    ∀ i, s.up i = true → (s'.node i).currentLeaderId = H := by
  intro i hi
  have hkeep : ∀ x a x', heeded L x a = true → (Inv L H x ∧ x.up = s.up) → x.step a = some x' →
      Inv L H x' ∧ x'.up = s.up :=
    fun _ _ _ hok h hstep => ⟨inv_step h.1 hok hstep, (up_step hstep).trans h.2⟩
  have hinv := Runs.exec_along hkeep ⟨inv_of_crashed L H hcrashed, rfl⟩ hheeded hrun
  exact hinv.1.agreement L H hquiet (hinv.2 ▸ hi)

/-! ## Runs of the launched cluster -/

theorem fresh_exec {s s' : State} {actions : List Action} (hflight : s.flight = [])
    (h : Net.Fresh s) (hrun : Runs.exec State.step s actions = some s') :
    Net.Fresh s' ∧ s'.up = s.up := by
  have hannounced : Net.Announced s := fun p hp => absurd (hflight ▸ hp) List.not_mem_nil
  obtain ⟨steps, hsteps⟩ := Net.exec_of_reliable hannounced hrun
  have hfresh : ∀ x a x', True → Net.Fresh x → Net.step x a = some x' → Net.Fresh x' :=
    fun _ _ _ _ hx hstep => hx.step hstep
  have hup : ∀ (x : State) (a : Action) (x' : State), True → x.up = s.up →
      x.step a = some x' → x'.up = s.up := fun _ _ _ _ hx hstep => (up_step hstep).trans hx
  exact ⟨Runs.exec_invariant hfresh h (fun _ _ => trivial) hsteps,
    Runs.exec_invariant hup rfl (fun _ _ => trivial) hrun⟩

/-- A test of all threads of a state. -/
def State.allThreads (s : State) (test : Int × Task → Bool) : Bool :=
  (List.range s.next).all fun t => (s.threads t).all test

theorem of_allThreads {s : State} {test : Int × Task → Bool} (h : s.allThreads test = true)
    (hfresh : Net.Fresh s) {t : Nat} {th : Int × Task} (ht : s.threads t = some th) :
    test th = true := by
  have hall := List.all_eq_true.mp h t (List.mem_range.mpr (hfresh.lt ht))
  rwa [ht] at hall

/-- A waiting timer of one of the two lower nodes. -/
def lowTimer : Int × Task → Bool
  | (i, .timer _) => decide (i = 1 ∨ i = 2)
  | _ => false

theorem of_lowTimer {th : Int × Task} (h : lowTimer th = true) :
    (th.1 = 1 ∨ th.1 = 2) ∧ ∃ term, th.2 = .timer term := by
  obtain ⟨i, task⟩ := th
  cases task with
  | timer term => exact ⟨of_decide_eq_true h, term, rfl⟩
  | _ => exact absurd h Bool.false_ne_true

theorem quiescent_of_lowTimer {s : State} (hflight : s.flight.isEmpty = true)
    (hthreads : s.allThreads lowTimer = true) (hfresh : Net.Fresh s) : s.Quiescent :=
  ⟨List.isEmpty_iff.mp hflight, fun _ _ ht => (of_lowTimer (of_allThreads hthreads hfresh ht)).2⟩

/-- A node as it starts. -/
def launchElection (i : Int) : LeaderElection :=
  { LeaderElection.start (launchNode i :: ([1, 2, 3].filter (· ≠ i)).map launchNode) with
    running := true }

/-- The three launched nodes before the election of the start. -/
def booted : State :=
  let s : State :=
    { up := fun i => decide (i = 1 ∨ i = 2 ∨ i = 3)
      node := launchElection
      threads := fun _ => none
      next := 0
      flight := [] }
  ((s.spawn 1 .trigger).spawn 2 .trigger).spawn 3 .trigger

def run (t accesses : Nat) : List Action := List.replicate accesses (.run t)

/-- Nodes 1 and 2 run a round each, node 3 wins, and its announcements arrive. -/
def startActions : List Action :=
  run 0 12 ++ run 1 9 ++ run 3 1 ++ run 1 1 ++ run 2 1 ++ run 4 1 ++ run 6 1 ++ run 2 8 ++
    [.deliver 1 (leaderMsg 3 1)] ++ run 8 5 ++ [.deliver 2 (leaderMsg 3 1)] ++ run 9 5

/-- All nodes record node 3, in term 1. -/
def started : State := (Runs.exec State.step booted startActions).getD booted

theorem exec_started : Runs.exec State.step booted startActions = some started := by
  have hsome : (Runs.exec State.step booted startActions).isSome = true := by decide +kernel
  rw [started]
  cases hexec : Runs.exec State.step booted startActions with
  | none => simp [hexec] at hsome
  | some s => rfl

theorem fresh_started : Net.Fresh started ∧ started.up = booted.up := by
  have hfresh : Net.Fresh { booted with threads := fun _ => none, next := 0 } := fun _ _ => rfl
  exact fresh_exec rfl (((hfresh.spawn 1 .trigger).spawn 2 .trigger).spawn 3 .trigger) exec_started

theorem quiescent_started : started.Quiescent :=
  quiescent_of_lowTimer (by decide +kernel) (by decide +kernel)
    fresh_started.1

/-- Node `l` crashes, and the monitors of `i` and `j` will notice. -/
def State.crash (s : State) (l i j : Int) : State :=
  (State.spawn { s with up := Function.update s.up l false } i (.onNodeFailure l)).spawn j
    (.onNodeFailure l)

theorem noticed_crash (s : State) (l i j : Int) :
    (s.crash l i j).threads s.next = some (i, .onNodeFailure l) ∧
      (s.crash l i j).threads (s.next + 1) = some (j, .onNodeFailure l) := by
  refine ⟨?_, State.spawn_threads_self ..⟩
  rw [State.crash, State.spawn_threads_of_ne _ _ _ (Nat.ne_of_lt (Nat.lt_succ_self _))]
  exact State.spawn_threads_self ..

theorem threads_crash {s : State} {l i j : Int} {t : Nat} {th : Int × Task}
    (ht : (s.crash l i j).threads t = some th) :
    th = (i, .onNodeFailure l) ∨ th = (j, .onNodeFailure l) ∨ s.threads t = some th := by
  by_cases hj : t = s.next + 1
  · rw [hj, (noticed_crash s l i j).2] at ht
    exact Or.inr (Or.inl (Option.some.inj ht).symm)
  · by_cases hi : t = s.next
    · rw [hi, (noticed_crash s l i j).1] at ht
      exact Or.inl (Option.some.inj ht).symm
    · rw [State.crash, State.spawn_threads_of_ne _ _ _ hj] at ht
      exact Or.inr (Or.inr ((State.spawn_threads_of_ne _ _ _ hi).symm.trans ht))

def afterCrash : State := started.crash 3 1 2

theorem fresh_afterCrash : Net.Fresh afterCrash := by
  have hfresh : Net.Fresh { started with up := Function.update started.up 3 false } :=
    fresh_started.1.congr rfl rfl
  exact (hfresh.spawn 1 _).spawn 2 _

theorem flight_afterCrash : afterCrash.flight = [] := List.isEmpty_iff.mp (by decide +kernel)

theorem up_afterCrash {i : Int} (h : afterCrash.up i = true) : i = 1 ∨ i = 2 := by
  change Function.update started.up 3 false i = true at h
  rw [fresh_started.2] at h
  by_cases hi : i = 3
  · subst hi
    rw [Function.update_self] at h
    exact absurd h (by simp)
  · rw [Function.update_of_ne hi] at h
    have hboot : i = 1 ∨ i = 2 ∨ i = 3 := of_decide_eq_true h
    omega

theorem crashed_afterCrash : Crashed 3 2 afterCrash where
  down := by decide +kernel
  highest := by decide +kernel
  below i hi := by
    have := up_afterCrash hi
    omega
  leader i hi := by
    rcases up_afterCrash hi with rfl | rfl <;> decide +kernel
  running i hi := by
    rcases up_afterCrash hi with rfl | rfl <;> decide +kernel
  idle i hi := by
    rcases up_afterCrash hi with rfl | rfl <;> decide +kernel
  known i j hi hj := by
    rcases up_afterCrash hi with rfl | rfl <;> rcases up_afterCrash hj with rfl | rfl <;>
      decide +kernel
  members i hi := by
    rcases up_afterCrash hi with rfl | rfl <;> decide +kernel
  noticed i hi := by
    rcases up_afterCrash hi with rfl | rfl
    · exact ⟨started.next, (noticed_crash started 3 1 2).1⟩
    · exact ⟨started.next + 1, (noticed_crash started 3 1 2).2⟩
  threads t th ht := by
    refine ⟨fresh_afterCrash.lt ht, ?_⟩
    rcases threads_crash ht with rfl | rfl | hold
    · exact ⟨by decide +kernel, Or.inl rfl⟩
    · exact ⟨by decide +kernel, Or.inl rfl⟩
    · have htimers : started.allThreads lowTimer = true := by decide +kernel
      have hfresh := fresh_started.1
      obtain ⟨hnode, hterm⟩ := of_lowTimer (of_allThreads htimers hfresh hold)
      refine ⟨?_, Or.inr hterm⟩
      rcases hnode with hnode | hnode <;> rw [hnode] <;> decide +kernel
  quiet := flight_afterCrash

/-- Node 1 notices first and is answered by node 2, which wins in term 2; node 1
is in term 2 as well and rejects the announcement. -/
def splitActions : List Action :=
  run 10 12 ++ run 12 10 ++ [.deliver 1 (leaderMsg 2 2)] ++ run 14 2 ++ run 11 1

/-- After an election of the start and the crash of node 3, nothing runs any more
and node 1 still records node 3. -/
theorem reelection_splits :
    Runs.exec State.step booted startActions = some started ∧ started.Quiescent ∧
    Crashed 3 2 (started.crash 3 1 2) ∧
    ∃ s, Runs.exec State.step (started.crash 3 1 2) splitActions = some s ∧ s.Quiescent ∧
      s.up 1 = true ∧ (s.node 1).currentLeaderId = 3 ∧ (s.node 2).currentLeaderId = 2 := by
  have hcheck : (Runs.exec State.step afterCrash splitActions).map (fun s =>
      s.flight.isEmpty && s.allThreads lowTimer && s.up 1 &&
        decide ((s.node 1).currentLeaderId = 3) && decide ((s.node 2).currentLeaderId = 2)) =
      some true := by decide +kernel
  obtain ⟨s, hrun, hs⟩ := Option.map_eq_some_iff.mp hcheck
  simp only [Bool.and_eq_true, decide_eq_true_eq] at hs
  obtain ⟨⟨⟨⟨hflight, hthreads⟩, hup⟩, hone⟩, htwo⟩ := hs
  exact ⟨exec_started, quiescent_started, crashed_afterCrash, s, hrun,
    quiescent_of_lowTimer hflight hthreads
      (fresh_exec flight_afterCrash fresh_afterCrash hrun).1, hup, hone, htwo⟩

/-- Node 2 notices first and wins in term 2; node 1 is in term 1 and accepts. -/
def agreeActions : List Action :=
  run 11 11 ++ [.deliver 1 (leaderMsg 2 2)] ++ run 12 6 ++ run 10 1

theorem reelection_agrees_launch :
    ∃ s, Runs.exec State.step (started.crash 3 1 2) agreeActions = some s ∧ s.Quiescent ∧
      ∀ i, (started.crash 3 1 2).up i = true → (s.node i).currentLeaderId = 2 := by
  have hcheck : (Runs.exec State.step afterCrash agreeActions).map (fun s =>
      s.flight.isEmpty && s.allThreads lowTimer) = some true := by decide +kernel
  obtain ⟨s, hrun, hs⟩ := Option.map_eq_some_iff.mp hcheck
  rw [Bool.and_eq_true] at hs
  have hquiet : s.Quiescent :=
    quiescent_of_lowTimer hs.1 hs.2 (fresh_exec flight_afterCrash fresh_afterCrash hrun).1
  have hheeded : Heeded 3 afterCrash agreeActions := by decide +kernel
  exact ⟨s, hrun, hquiet, reelection_agrees crashed_afterCrash hheeded hrun hquiet⟩

end Election
end DistributedDb
