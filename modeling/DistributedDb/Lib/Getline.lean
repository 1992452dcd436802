import Mathlib.Data.List.TakeDrop
import Mathlib.Data.List.TakeWhile

/-
Reading a stream up to a delimiter.

`getline d` follows `std::getline`: it fails only on a stream with nothing left,
otherwise it extracts up to and including the first delimiter, or everything
when there is none.  A trailing delimiter therefore ends the last field and does
not start an empty one.  `getlines d` is the loop that reads until failure.
-/

namespace DistributedDb
namespace Getline

variable {α : Type} [DecidableEq α]

def getline (d : α) (s : List α) : Option (List α × List α) :=
  if s = [] then none
  else some (s.takeWhile (fun c => decide (c ≠ d)), (s.dropWhile (fun c => decide (c ≠ d))).tail)

def getlines (d : α) : List α → List (List α)
  | [] => []
  | c :: rest =>
    if c = d then [] :: getlines d rest
    else
      match getlines d rest with
      | [] => [[c]]
      | l :: ls => (c :: l) :: ls

@[simp] theorem getline_nil (d : α) : getline d [] = none := rfl

theorem getline_append (d : α) {l : List α} (hl : d ∉ l) (rest : List α) :
    getline d (l ++ d :: rest) = some (l, rest) := by
  have hne : ∀ c ∈ l, decide (c ≠ d) = true := by
    intro c hc
    exact decide_eq_true fun h => hl (h ▸ hc)
  rw [getline, if_neg (by simp), List.takeWhile_append_of_pos hne,
    List.dropWhile_append_of_pos hne]
  simp

theorem getline_of_not_mem (d : α) {l : List α} (hl : d ∉ l) (hne : l ≠ []) :
    getline d l = some (l, []) := by
  have hall : ∀ c ∈ l, decide (c ≠ d) = true := by
    intro c hc
    exact decide_eq_true fun h => hl (h ▸ hc)
  rw [getline, if_neg hne, List.takeWhile_eq_self_iff.mpr hall,
    List.dropWhile_eq_nil_iff.mpr hall]
  rfl

/-- A stream splits at its first delimiter, or has none. -/
theorem eq_append_or_not_mem (d : α) (s : List α) :
    (∃ l rest, d ∉ l ∧ s = l ++ d :: rest) ∨ d ∉ s := by
  by_cases h : d ∈ s
  · obtain ⟨l, rest, hs, hl⟩ := List.eq_append_cons_of_mem h
    exact Or.inl ⟨l, rest, hl, hs⟩
  · exact Or.inr h

theorem getline_field_not_mem (d : α) {s f rest : List α} (h : getline d s = some (f, rest)) :
    d ∉ f := by
  unfold getline at h
  split at h
  · exact absurd h (by simp)
  · obtain ⟨rfl, -⟩ := Prod.mk.inj (Option.some.inj h)
    intro hd
    simpa using List.mem_takeWhile_imp hd

theorem mem_of_mem_getline_field (d : α) {s f rest : List α} (h : getline d s = some (f, rest))
    {c : α} (hc : c ∈ f) : c ∈ s := by
  unfold getline at h
  split at h
  · exact absurd h (by simp)
  · obtain ⟨rfl, -⟩ := Prod.mk.inj (Option.some.inj h)
    exact (List.takeWhile_sublist _).subset hc

theorem mem_of_mem_getline_rest (d : α) {s f rest : List α} (h : getline d s = some (f, rest))
    {c : α} (hc : c ∈ rest) : c ∈ s := by
  unfold getline at h
  split at h
  · exact absurd h (by simp)
  · obtain ⟨-, rfl⟩ := Prod.mk.inj (Option.some.inj h)
    exact (List.dropWhile_sublist _).subset (List.mem_of_mem_tail hc)

omit [DecidableEq α] in
/-- A prefix of a stream stops before the end of its first field, or goes past
the delimiter. -/
theorem prefix_append_cons {d : α} {l rest s : List α} (h : s <+: l ++ d :: rest) :
    s <+: l ∨ ∃ q, q <+: rest ∧ s = l ++ d :: q := by
  rcases List.prefix_or_prefix_of_prefix h (List.prefix_append l _) with hs | ⟨t, rfl⟩
  · exact Or.inl hs
  · rcases List.prefix_cons_iff.mp ((List.prefix_append_right_inj l).mp h) with rfl | ⟨q, rfl, hq⟩
    · exact Or.inl (by simp)
    · exact Or.inr ⟨q, hq, rfl⟩

/-! ## Reading all lines -/

@[simp] theorem getlines_nil (d : α) : getlines d [] = [] := rfl

theorem getlines_append (d : α) {l : List α} (hl : d ∉ l) (rest : List α) :
    getlines d (l ++ d :: rest) = l :: getlines d rest := by
  induction l with
  | nil => simp [getlines]
  | cons c l ih =>
    have hc : c ≠ d := fun h => hl (h ▸ List.mem_cons_self)
    have hl' : d ∉ l := fun h => hl (List.mem_cons_of_mem c h)
    rw [List.cons_append, getlines, if_neg hc, ih hl']

theorem getlines_of_not_mem (d : α) {l : List α} (hl : d ∉ l) (hne : l ≠ []) :
    getlines d l = [l] := by
  induction l with
  | nil => exact absurd rfl hne
  | cons c l ih =>
    have hc : c ≠ d := fun h => hl (h ▸ List.mem_cons_self)
    rw [getlines, if_neg hc]
    by_cases hnil : l = []
    · rw [hnil, getlines_nil]
    · rw [ih (fun h => hl (List.mem_cons_of_mem c h)) hnil]

/-- The loop: read one line, then go on with what is left. -/
theorem getlines_eq_match (d : α) (s : List α) :
    getlines d s = match getline d s with
      | none => []
      | some (line, rest) => line :: getlines d rest := by
  rcases eq_append_or_not_mem d s with ⟨l, rest, hl, rfl⟩ | hs
  · rw [getlines_append d hl, getline_append d hl]
  · by_cases hne : s = []
    · rw [hne, getline_nil, getlines_nil]
    · rw [getlines_of_not_mem d hs hne, getline_of_not_mem d hs hne]
      rfl

/-- Behind a delimiter reading starts afresh. -/
theorem getlines_append_of_ended (d : α) (init tail : List α) :
    getlines d (init ++ [d] ++ tail) = getlines d (init ++ [d]) ++ getlines d tail := by
  induction init with
  | nil => simp [getlines]
  | cons c rest ih =>
    simp only [List.cons_append, getlines, ih]
    split
    · rfl
    · have hne : getlines d (rest ++ [d]) ≠ [] := by
        rw [getlines_eq_match]
        simp [getline]
      obtain ⟨l, ls, hl⟩ := List.exists_cons_of_ne_nil hne
      rw [hl]
      rfl

theorem not_mem_of_mem_getlines (d : α) {s line : List α} (h : line ∈ getlines d s) :
    d ∉ line := by
  induction s generalizing line with
  | nil => exact absurd h List.not_mem_nil
  | cons c rest ih =>
    rw [getlines] at h
    split at h
    · rcases List.mem_cons.mp h with rfl | h
      · exact List.not_mem_nil
      · exact ih h
    · rename_i hc
      have hcons : ∀ l, d ∉ l → d ∉ c :: l := by
        intro l hl hd
        rcases List.mem_cons.mp hd with hd | hd
        · exact hc hd.symm
        · exact hl hd
      cases hls : getlines d rest with
      | nil =>
        rw [hls] at h
        rw [List.mem_singleton.mp h]
        exact hcons [] List.not_mem_nil
      | cons l ls =>
        rw [hls] at h
        rcases List.mem_cons.mp h with rfl | h
        · exact hcons l (ih (hls ▸ List.mem_cons_self))
        · exact ih (hls ▸ List.mem_cons_of_mem l h)

/-- Lines written out again, each ended by a delimiter. -/
def unlines (d : α) (ls : List (List α)) : List α := ls.flatMap fun l => l ++ [d]

theorem getlines_unlines (d : α) {ls : List (List α)} (h : ∀ l ∈ ls, d ∉ l) :
    getlines d (unlines d ls) = ls := by
  induction ls with
  | nil => rfl
  | cons l rest ih =>
    have hcons : unlines d (l :: rest) = l ++ d :: unlines d rest := by
      simp [unlines, List.append_assoc]
    rw [hcons, getlines_append d (h l List.mem_cons_self),
      ih fun l' hl' => h l' (List.mem_cons_of_mem l hl')]

end Getline
end DistributedDb
