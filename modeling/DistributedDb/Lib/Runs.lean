import Mathlib.Data.List.Basic

/-
Runs of a system given by a partial step function.

A scheduler picks one action at a time; `step` says what it does, or that it is
not enabled.  A run is the list of the actions taken, and an invariant is proved
once by what a single step keeps.
-/

namespace DistributedDb
namespace Runs

variable {σ ι : Type} (step : σ → ι → Option σ)

/-- Take the actions in order; the run fails when one of them is not enabled. -/
def exec : σ → List ι → Option σ
  | s, [] => some s
  | s, a :: rest =>
    match step s a with
    | none => none
    | some s' => exec s' rest

variable {step}

theorem exec_cons {s t : σ} {a : ι} {rest : List ι} :
    exec step s (a :: rest) = some t ↔ ∃ s', step s a = some s' ∧ exec step s' rest = some t := by
  rw [exec]
  cases hs : step s a with
  | none => simp
  | some s' => simp

theorem exec_append {s t : σ} {a b : List ι} :
    exec step s (a ++ b) = some t ↔ ∃ u, exec step s a = some u ∧ exec step u b = some t := by
  induction a generalizing s with
  | nil => simp [exec]
  | cons x rest ih =>
    rw [List.cons_append, exec_cons]
    constructor
    · intro h
      obtain ⟨s', hs', h⟩ := h
      obtain ⟨u, hu, hb⟩ := ih.mp h
      exact ⟨u, exec_cons.mpr ⟨s', hs', hu⟩, hb⟩
    · intro h
      obtain ⟨u, hu, hb⟩ := h
      obtain ⟨s', hs', hu⟩ := exec_cons.mp hu
      exact ⟨s', hs', ih.mpr ⟨u, hu, hb⟩⟩

/-- An invariant that every allowed step keeps holds at the end of every run of
allowed actions. -/
theorem exec_invariant {P : σ → Prop} {allowed : ι → Prop}
    (hstep : ∀ s a s', allowed a → P s → step s a = some s' → P s')
    {s t : σ} {actions : List ι} (hs : P s) (hall : ∀ a ∈ actions, allowed a)
    (hrun : exec step s actions = some t) : P t := by
  induction actions generalizing s with
  | nil => exact Option.some.inj hrun ▸ hs
  | cons a rest ih =>
    obtain ⟨s', hs', hrest⟩ := exec_cons.mp hrun
    exact ih (hstep s a s' (hall a List.mem_cons_self) hs hs')
      (fun b hb => hall b (List.mem_cons_of_mem a hb)) hrest

/-- When every step is a run of another system, from the states that satisfy `P`, so
is every run. -/
theorem exec_simulates {κ : Type} {other : σ → κ → Option σ} {P : σ → Prop}
    (hstep : ∀ s a s', P s → step s a = some s' →
      P s' ∧ ∃ steps, exec other s steps = some s')
    {s t : σ} {actions : List ι} (hs : P s) (hrun : exec step s actions = some t) :
    ∃ steps, exec other s steps = some t := by
  induction actions generalizing s with
  | nil => exact ⟨[], hrun⟩
  | cons a rest ih =>
    obtain ⟨s', hs', hrest⟩ := exec_cons.mp hrun
    obtain ⟨hnext, steps, hsteps⟩ := hstep s a s' hs hs'
    obtain ⟨later, hlater⟩ := ih hnext hrest
    exact ⟨steps ++ later, exec_append.mpr ⟨s', hsteps, hlater⟩⟩

/-- The same for a property that also looks at the actions taken so far. -/
theorem exec_history {P : List ι → σ → Prop} {allowed : ι → Prop}
    (hstep : ∀ done s a s', allowed a → P done s → step s a = some s' → P (done ++ [a]) s')
    {s t : σ} {actions : List ι} (hs : P [] s) (hall : ∀ a ∈ actions, allowed a)
    (hrun : exec step s actions = some t) : P actions t := by
  have hgen : ∀ (rest done : List ι) (s : σ), P done s → (∀ a ∈ rest, allowed a) →
      exec step s rest = some t → P (done ++ rest) t := by
    intro rest
    induction rest with
    | nil =>
      intro done s hs _ hrun
      rw [List.append_nil, ← Option.some.inj hrun]
      exact hs
    | cons a rest ih =>
      intro done s hs hall hrun
      obtain ⟨s', hs', hrest⟩ := exec_cons.mp hrun
      have hnext := hstep done s a s' (hall a List.mem_cons_self) hs hs'
      have := ih (done ++ [a]) s' hnext (fun b hb => hall b (List.mem_cons_of_mem a hb)) hrest
      rwa [List.append_assoc] at this
  exact hgen actions [] s hs hall hrun

/-- Every action of the run is taken in a state where `ok` holds of it. -/
def Along (step : σ → ι → Option σ) (ok : σ → ι → Prop) : σ → List ι → Prop
  | _, [] => True
  | s, a :: rest =>
    ok s a ∧
      match step s a with
      | none => True
      | some s' => Along step ok s' rest

instance decidableAlong (step : σ → ι → Option σ) (ok : σ → ι → Prop) [∀ s a, Decidable (ok s a)] :
    ∀ s actions, Decidable (Along step ok s actions)
  | _, [] => .isTrue trivial
  | s, a :: rest =>
    have : Decidable (match step s a with
        | none => True
        | some s' => Along step ok s' rest) :=
      match step s a with
      | none => .isTrue trivial
      | some s' => decidableAlong step ok s' rest
    inferInstanceAs (Decidable (_ ∧ _))

theorem along_cons {ok : σ → ι → Prop} {s s' : σ} {a : ι} {rest : List ι} (h : step s a = some s') :
    Along step ok s (a :: rest) ↔ ok s a ∧ Along step ok s' rest := by
  rw [Along, h]

theorem along_of_forall {ok : σ → ι → Prop} (h : ∀ s a, ok s a) (s : σ) (actions : List ι) :
    Along step ok s actions := by
  induction actions generalizing s with
  | nil => trivial
  | cons a rest ih =>
    refine ⟨h s a, ?_⟩
    cases step s a with
    | none => trivial
    | some s' => exact ih s'

theorem along_append {ok : σ → ι → Prop} {s u : σ} {a b : List ι} (h : exec step s a = some u) :
    Along step ok s (a ++ b) ↔ Along step ok s a ∧ Along step ok u b := by
  induction a generalizing s with
  | nil =>
    obtain rfl := Option.some.inj h
    simp [Along]
  | cons x rest ih =>
    obtain ⟨s', hs', hrest⟩ := exec_cons.mp h
    rw [List.cons_append, along_cons hs', along_cons hs', ih hrest, and_assoc]

theorem along_mono {ok ok' : σ → ι → Prop} (hok : ∀ s a, ok s a → ok' s a) {s : σ}
    {actions : List ι} (h : Along step ok s actions) : Along step ok' s actions := by
  induction actions generalizing s with
  | nil => trivial
  | cons a rest ih =>
    refine ⟨hok s a h.1, ?_⟩
    have hrest := h.2
    cases hs : step s a with
    | none => trivial
    | some s' =>
      rw [hs] at hrest
      exact ih hrest

/-- An invariant of the steps that meet a condition holds along every run whose
steps meet it. -/
theorem exec_along {P : σ → Prop} {ok : σ → ι → Prop}
    (hstep : ∀ s a s', ok s a → P s → step s a = some s' → P s')
    {s t : σ} {actions : List ι} (hs : P s) (hok : Along step ok s actions)
    (hrun : exec step s actions = some t) : P t := by
  induction actions generalizing s with
  | nil => exact Option.some.inj hrun ▸ hs
  | cons a rest ih =>
    obtain ⟨s', hs', hrest⟩ := exec_cons.mp hrun
    have hnext := hok.2
    rw [hs'] at hnext
    exact ih (hstep s a s' hok.1 hs hs') hnext hrest

/-- Where a step keeps `P` exactly when it meets `ok`, a run stays in `P` exactly
when all its steps meet `ok`. -/
theorem exec_prefix_iff {I P : σ → Prop} {ok : σ → ι → Prop}
    (hinv : ∀ s a s', I s → step s a = some s' → I s')
    (hok : ∀ s a s', I s → P s → step s a = some s' → (P s' ↔ ok s a))
    {s t : σ} {actions : List ι} (hI : I s) (hP : P s) (hrun : exec step s actions = some t) :
    (∀ done u, done <+: actions → exec step s done = some u → P u) ↔ Along step ok s actions := by
  induction actions generalizing s with
  | nil =>
    refine ⟨fun _ => trivial, fun _ done u hdone hu => ?_⟩
    rw [List.prefix_nil.mp hdone] at hu
    exact Option.some.inj hu ▸ hP
  | cons a rest ih =>
    obtain ⟨s', hs', hrest⟩ := exec_cons.mp hrun
    have hone := hok s a s' hI hP hs'
    rw [along_cons hs']
    constructor
    · intro h
      have hP' : P s' := h [a] s' (List.prefix_append [a] rest) (exec_cons.mpr ⟨s', hs', rfl⟩)
      refine ⟨hone.mp hP', (ih (hinv s a s' hI hs') hP' hrest).mp fun done u hdone hu => ?_⟩
      exact h (a :: done) u ((List.prefix_cons_inj a).mpr hdone) (exec_cons.mpr ⟨s', hs', hu⟩)
    · rintro ⟨hstep, hlater⟩ done u hdone hu
      have hP' := hone.mpr hstep
      cases done with
      | nil => exact Option.some.inj hu ▸ hP
      | cons b done =>
        obtain ⟨rfl, hpre⟩ := List.cons_prefix_cons.mp hdone
        obtain ⟨u', hu', hu⟩ := exec_cons.mp hu
        obtain rfl := Option.some.inj (hs'.symm.trans hu')
        exact (ih (hinv s b s' hI hs') hP' hrest).mpr hlater done u hpre hu

/-! ## What an observer sees of a run -/

variable {ε : Type}

/-- The events of a run, where `emit` says which ones an action causes. -/
def trace (step : σ → ι → Option σ) (emit : σ → ι → List ε) : σ → List ι → List ε
  | _, [] => []
  | s, a :: rest =>
    emit s a ++
      match step s a with
      | none => []
      | some s' => trace step emit s' rest

theorem trace_cons {emit : σ → ι → List ε} {s s' : σ} {a : ι} {rest : List ι}
    (h : step s a = some s') :
    trace step emit s (a :: rest) = emit s a ++ trace step emit s' rest := by
  rw [trace, h]

/-- An invariant between the state and the events so far. -/
theorem exec_trace {P : List ε → σ → Prop} {ok : σ → ι → Prop} {emit : σ → ι → List ε}
    (hstep : ∀ seen s a s', ok s a → P seen s → step s a = some s' → P (seen ++ emit s a) s')
    {s t : σ} {actions : List ι} (hs : P [] s) (hok : Along step ok s actions)
    (hrun : exec step s actions = some t) : P (trace step emit s actions) t := by
  have hgen : ∀ (actions : List ι) (seen : List ε) (s : σ), P seen s → Along step ok s actions →
      exec step s actions = some t → P (seen ++ trace step emit s actions) t := by
    intro actions
    induction actions with
    | nil =>
      intro seen s hs _ hrun
      rw [trace, List.append_nil, ← Option.some.inj hrun]
      exact hs
    | cons a rest ih =>
      intro seen s hs hok hrun
      obtain ⟨s', hs', hrest⟩ := exec_cons.mp hrun
      obtain ⟨ha, hlater⟩ := (along_cons hs').mp hok
      rw [trace_cons hs', ← List.append_assoc]
      exact ih _ s' (hstep seen s a s' ha hs hs') hlater hrest
  exact hgen actions [] s hs hok hrun

/-- A step pays for the events it causes with what it takes off the potential, so
the potential at the start bounds the events of every run. -/
theorem exec_charge {I : σ → Prop} {ok : σ → ι → Prop} {emit : σ → ι → List ε} {p : ε → Bool}
    {potential : σ → Nat} (hinv : ∀ s a s', ok s a → I s → step s a = some s' → I s')
    (hpay : ∀ s a s', ok s a → I s → step s a = some s' →
      (emit s a).countP p + potential s' ≤ potential s)
    {s t : σ} {actions : List ι} (hI : I s) (hok : Along step ok s actions)
    (hrun : exec step s actions = some t) :
    (trace step emit s actions).countP p + potential t ≤ potential s := by
  refine (exec_trace (P := fun seen u => I u ∧ seen.countP p + potential u ≤ potential s) ?_
    ⟨hI, by simp⟩ hok hrun).2
  intro seen u a u' ha hu hstep
  have hcost := hpay u a u' ha hu.1 hstep
  have hsofar := hu.2
  refine ⟨hinv u a u' ha hu.1 hstep, ?_⟩
  rw [List.countP_append]
  omega

/-- An observer who sees the actions themselves. -/
theorem trace_actions {s t : σ} {actions : List ι} (hrun : exec step s actions = some t) :
    trace step (fun _ a => [a]) s actions = actions := by
  induction actions generalizing s with
  | nil => rfl
  | cons a rest ih =>
    obtain ⟨s', hs', hrest⟩ := exec_cons.mp hrun
    rw [trace_cons hs', ih hrest]
    rfl

end Runs
end DistributedDb
