import Mathlib.Data.List.Induction
import Mathlib.Logic.Function.Basic

/-
Maps under sequences of writes.

A write sets one key to a value or makes it absent.  After any sequence of
writes a key holds what the last write to it left there, and its old contents
when nothing wrote to it.  Two sequences that end in the same write for every
key therefore leave the same map, whatever came before.
-/

namespace DistributedDb

/-- Set `key` to `value`, or remove it when `value` is `none`. -/
structure Write (κ ν : Type) where
  key : κ
  value : Option ν
  deriving DecidableEq, Repr

namespace Write

variable {κ ν : Type} [DecidableEq κ]

def applyTo (m : κ → Option ν) (w : Write κ ν) : κ → Option ν := Function.update m w.key w.value

def applyAll (m : κ → Option ν) (ws : List (Write κ ν)) : κ → Option ν := ws.foldl applyTo m

/-- What the last write to `k` leaves, if there is one. -/
def last (k : κ) (ws : List (Write κ ν)) : Option (Option ν) :=
  ((ws.filter fun w => decide (w.key = k)).getLast?).map Write.value

@[simp] theorem applyAll_nil (m : κ → Option ν) : applyAll m [] = m := rfl

theorem applyAll_append (m : κ → Option ν) (a b : List (Write κ ν)) :
    applyAll m (a ++ b) = applyAll (applyAll m a) b :=
  List.foldl_append

theorem applyAll_concat (m : κ → Option ν) (ws : List (Write κ ν)) (w : Write κ ν) :
    applyAll m (ws ++ [w]) = applyTo (applyAll m ws) w :=
  applyAll_append m ws [w]

@[simp] theorem last_nil (k : κ) : last k ([] : List (Write κ ν)) = none := rfl

theorem last_concat (k : κ) (ws : List (Write κ ν)) (w : Write κ ν) :
    last k (ws ++ [w]) = if w.key = k then some w.value else last k ws := by
  by_cases h : w.key = k
  · rw [if_pos h, last, List.filter_append, List.filter_cons_of_pos (by simpa using h),
      List.filter_nil, List.getLast?_concat]
    rfl
  · rw [if_neg h, last, List.filter_append, List.filter_cons_of_neg (by simpa using h),
      List.filter_nil, List.append_nil]
    rfl

theorem applyAll_eq_last (m : κ → Option ν) (ws : List (Write κ ν)) (k : κ) :
    applyAll m ws k = (last k ws).getD (m k) := by
  induction ws using List.reverseRecOn with
  | nil => rfl
  | append_singleton ws w ih =>
    rw [applyAll_concat, last_concat, applyTo]
    by_cases h : w.key = k
    · subst h
      simp
    · rw [Function.update_of_ne (Ne.symm h), if_neg h, ih]

theorem last_eq_none_iff (k : κ) (ws : List (Write κ ν)) :
    last k ws = none ↔ ∀ w ∈ ws, w.key ≠ k := by
  simp [last]

/-- With nothing after it that writes its key, a write is the last one. -/
theorem last_append_cons {k : κ} (a : List (Write κ ν)) {w : Write κ ν} {b : List (Write κ ν)}
    (hw : w.key = k) (hb : ∀ w' ∈ b, w'.key ≠ k) : last k (a ++ w :: b) = some w.value := by
  have hnone : (b.filter fun w' => decide (w'.key = k)) = [] := by
    rw [List.filter_eq_nil_iff]
    intro w' hw'
    simpa using hb w' hw'
  rw [last, List.filter_append, List.filter_cons_of_pos (by simpa using hw), hnone,
    List.getLast?_concat]
  rfl

/-- A sequence of writes reads the contents it started from only at the keys it
does not write. -/
theorem applyAll_congr {m m' : κ → Option ν} {ws : List (Write κ ν)}
    (h : ∀ k, (∀ w ∈ ws, w.key ≠ k) → m k = m' k) : applyAll m ws = applyAll m' ws := by
  funext k
  rw [applyAll_eq_last, applyAll_eq_last]
  cases hlast : last k ws with
  | none => exact h k ((last_eq_none_iff k ws).mp hlast)
  | some v => rfl

theorem applyAll_idem (m : κ → Option ν) (ws : List (Write κ ν)) :
    applyAll (applyAll m ws) ws = applyAll m ws := by
  refine applyAll_congr fun k hk => ?_
  rw [applyAll_eq_last, (last_eq_none_iff k ws).mpr hk, Option.getD_none]

/-- A write that a later one overwrites can be left out. -/
theorem applyAll_cons_of_superseded (m : κ → Option ν) {w : Write κ ν} {ws : List (Write κ ν)}
    (h : ∃ w' ∈ ws, w'.key = w.key) : applyAll m (w :: ws) = applyAll m ws := by
  show applyAll (applyTo m w) ws = applyAll m ws
  refine applyAll_congr fun k hk => ?_
  obtain ⟨w', hw', hkey⟩ := h
  exact Function.update_of_ne (fun hkw => hk w' hw' (hkey.trans hkw.symm)) _ _

end Write
end DistributedDb
