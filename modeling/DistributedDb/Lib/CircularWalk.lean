import Mathlib.Data.Finset.Card
import Mathlib.Data.List.Nodup

/-
A do-while loop that goes once around a circular list, and the distinct
elements it meets on the way.

The loop visits the element under an iterator, may leave early, moves the
iterator one place on with a wrap at the end of the list, and stops when it is
back at its starting place.  It is written with a budget of visits and returns
nothing when the budget runs out; `walk_eq_foldUntil` says that the length of
the list is always enough and that the visited elements are the list read from
the starting place, each of them once.
-/

namespace DistributedDb
namespace CircularWalk

variable {α β σ : Type}

/-- Fold a loop body over a list, leaving at the first element where the body
asks for it. -/
def foldUntil (body : σ → α → σ × Bool) : List α → σ → σ
  | [], s => s
  | a :: rest, s =>
    match body s a with
    | (s', true) => s'
    | (s', false) => foldUntil body rest s'

/-- The place after `it` in a circular list of length `n`. -/
def advance (n it : Nat) : Nat := if it + 1 = n then 0 else it + 1

/-- `do { body; advance } while (it != start)` with a budget of visits. -/
def walk (body : σ → α → σ × Bool) (l : List α) (start : Nat) : Nat → Nat → σ → Option σ
  | 0, _, _ => none
  | budget + 1, it, s =>
    match l[it]? with
    | none => none
    | some a =>
      match body s a with
      | (s', true) => some s'
      | (s', false) =>
        if advance l.length it = start then some s'
        else walk body l start budget (advance l.length it) s'

/-- What is left to visit when the iterator stands at `it`. -/
def remaining (l : List α) (start it : Nat) : List α :=
  if start ≤ it then l.drop it ++ l.take start else (l.take start).drop it

/-- One visit takes the head off what is left, and nothing is left exactly when
the iterator is back at the start. -/
theorem remaining_eq_cons (l : List α) {start it : Nat} (hs : start < l.length)
    (hi : it < l.length) :
    remaining l start it = l[it] ::
      (if advance l.length it = start then [] else remaining l start (advance l.length it)) := by
  by_cases h : start ≤ it
  · rw [remaining, if_pos h, List.drop_eq_getElem_cons hi, List.cons_append]
    congr 1
    by_cases hlast : it + 1 = l.length
    · rw [advance, if_pos hlast, hlast, List.drop_length, List.nil_append]
      by_cases h0 : 0 = start
      · rw [if_pos h0, ← h0, List.take_zero]
      · rw [if_neg h0, remaining, if_neg (by omega), List.drop_zero]
    · rw [advance, if_neg hlast, if_neg (by omega), remaining, if_pos (by omega)]
  · have ht : it < (l.take start).length := by rw [List.length_take]; omega
    have hadv : advance l.length it = it + 1 := if_neg (by omega)
    rw [hadv, remaining, if_neg h, List.drop_eq_getElem_cons ht, List.getElem_take]
    congr 1
    by_cases hlast : it + 1 = start
    · rw [if_pos hlast, hlast]
      simp
    · rw [if_neg hlast, remaining, if_neg (by omega)]

theorem walk_eq_remaining (body : σ → α → σ × Bool) (l : List α) {start : Nat}
    (hs : start < l.length) :
    ∀ (budget it : Nat) (s : σ), it < l.length → (remaining l start it).length ≤ budget →
      walk body l start budget it s = some (foldUntil body (remaining l start it) s) := by
  intro budget
  induction budget with
  | zero =>
    intro it s hi hb
    rw [remaining_eq_cons l hs hi] at hb
    simp at hb
  | succ budget ih =>
    intro it s hi hb
    rw [remaining_eq_cons l hs hi] at hb ⊢
    simp only [walk, List.getElem?_eq_getElem hi, foldUntil]
    cases hbody : body s l[it] with
    | mk s' stop =>
      cases stop with
      | true => rfl
      | false =>
        by_cases hback : advance l.length it = start
        · simp only [hback, if_true, foldUntil]
        · have hadv : advance l.length it < l.length := by
            unfold advance
            split <;> omega
          simp only [hback, if_false]
          refine ih _ s' hadv ?_
          simpa [hback] using hb

/-- The loop ends within one visit per element, and its result is that of the
body folded over the list read from the starting place. -/
theorem walk_eq_foldUntil (body : σ → α → σ × Bool) (l : List α) {start : Nat}
    (hs : start < l.length) (s : σ) :
    walk body l start l.length start s =
      some (foldUntil body (l.drop start ++ l.take start) s) := by
  have hrem : remaining l start start = l.drop start ++ l.take start := if_pos (Nat.le_refl start)
  rw [walk_eq_remaining body l hs l.length start s hs, hrem]
  rw [hrem, List.length_append, List.length_drop, List.length_take]
  omega

/-! ## First occurrences

`firstBy f l` keeps the first element of `l` for each value of `f`.  A filter
that only looks at `f` commutes with it. -/

variable [DecidableEq β]

def firstBy (f : α → β) : List α → List α
  | [] => []
  | a :: rest => a :: (firstBy f rest).filter fun b => decide (f b ≠ f a)

theorem mem_of_mem_firstBy {f : α → β} {l : List α} {a : α} (h : a ∈ firstBy f l) : a ∈ l := by
  induction l with
  | nil => exact h
  | cons b rest ih =>
    rcases List.mem_cons.mp h with rfl | h
    · exact List.mem_cons_self
    · exact List.mem_cons_of_mem _ (ih (List.mem_filter.mp h).1)

theorem exists_mem_firstBy {f : α → β} {l : List α} {a : α} (h : a ∈ l) :
    ∃ b ∈ firstBy f l, f b = f a := by
  induction l with
  | nil => exact absurd h List.not_mem_nil
  | cons c rest ih =>
    rcases List.mem_cons.mp h with rfl | h
    · exact ⟨a, List.mem_cons_self, rfl⟩
    · by_cases hc : f a = f c
      · exact ⟨c, List.mem_cons_self, hc.symm⟩
      · obtain ⟨b, hb, hba⟩ := ih h
        refine ⟨b, List.mem_cons_of_mem _ (List.mem_filter.mpr ⟨hb, ?_⟩), hba⟩
        simpa [hba] using hc

theorem nodup_map_firstBy (f : α → β) (l : List α) : ((firstBy f l).map f).Nodup := by
  induction l with
  | nil => exact List.nodup_nil
  | cons a rest ih =>
    rw [firstBy, List.map_cons, List.nodup_cons]
    constructor
    · intro h
      obtain ⟨b, hb, hba⟩ := List.mem_map.mp h
      simpa [hba] using (List.mem_filter.mp hb).2
    · exact ih.sublist (List.Sublist.map f List.filter_sublist)

theorem head?_firstBy (f : α → β) (l : List α) : (firstBy f l).head? = l.head? := by
  cases l <;> rfl

theorem firstBy_filter (f : α → β) (p : β → Bool) (l : List α) :
    firstBy f (l.filter fun a => p (f a)) = (firstBy f l).filter fun a => p (f a) := by
  induction l with
  | nil => rfl
  | cons a rest ih =>
    by_cases hp : p (f a) = true
    · simp only [List.filter_cons, hp, if_true, firstBy, ih, List.filter_filter]
      congr 1
      refine List.filter_congr fun b _ => ?_
      rw [Bool.and_comm]
    · simp only [List.filter_cons, hp, if_false, Bool.false_eq_true, firstBy, ih,
        List.filter_filter]
      refine List.filter_congr fun b _ => ?_
      by_cases hb : p (f b) = true
      · have hne : f b ≠ f a := fun e => hp (e ▸ hb)
        simp [hb, hne]
      · simp [hb]

/-- A leading block of copies of one element counts once. -/
theorem firstBy_block {f : α → β} {n : α} {block : List α} (hne : block ≠ [])
    (hall : ∀ a ∈ block, a = n) (l : List α) :
    firstBy f (block ++ l) = n :: firstBy f (l.filter fun a => decide (f a ≠ f n)) := by
  cases block with
  | nil => exact absurd rfl hne
  | cons a rest =>
    obtain rfl := hall a List.mem_cons_self
    have hrest : (rest.filter fun b => decide (f b ≠ f a)) = [] := by
      refine List.filter_eq_nil_iff.mpr fun b hb => ?_
      simp [hall b (List.mem_cons_of_mem a hb)]
    rw [List.cons_append, firstBy, ← firstBy_filter f fun x => decide (x ≠ f a),
      List.filter_append, hrest, List.nil_append]

/-- A first element whose value has not been seen is kept, and its value counts
as seen for the rest. -/
theorem firstBy_cons_of_not_seen (f : α → β) {a : α} {seen : List β} (h : f a ∉ seen)
    (l : List α) :
    ((firstBy f (a :: l)).filter fun b => decide (f b ∉ seen)) =
      a :: (firstBy f l).filter fun b => decide (f b ∉ f a :: seen) := by
  rw [firstBy, List.filter_cons_of_pos (by simpa using h), List.filter_filter]
  congr 1
  refine List.filter_congr fun b _ => ?_
  simp only [List.mem_cons, not_or, Bool.decide_and]
  rw [Bool.and_comm]

theorem firstBy_cons_of_seen (f : α → β) {a : α} {seen : List β} (h : f a ∈ seen) (l : List α) :
    ((firstBy f (a :: l)).filter fun b => decide (f b ∉ seen)) =
      (firstBy f l).filter fun b => decide (f b ∉ seen) := by
  rw [firstBy, List.filter_cons_of_neg (by simpa using h), List.filter_filter]
  refine List.filter_congr fun b _ => ?_
  by_cases hb : f b ∈ seen
  · simp [hb]
  · have hne : f b ≠ f a := fun e => hb (e ▸ h)
    simp [hb, hne]

theorem firstBy_map {f : α → β} {g : α → α} (hg : ∀ a, f (g a) = f a) (l : List α) :
    firstBy f (l.map g) = (firstBy f l).map g := by
  induction l with
  | nil => rfl
  | cons a rest ih =>
    rw [List.map_cons, firstBy, firstBy, List.map_cons, ih, List.filter_map]
    congr 2
    refine List.filter_congr fun b _ => ?_
    simp only [Function.comp_apply, hg]

/-- Dropping the elements whose value is in `d` and then taking `n` reads only
the first `n + |d|` elements, since at most one of them is dropped for each
member of `d`. -/
theorem take_filter_not_mem (f : α → β) (d : Finset β) (n : Nat) {l : List α}
    (hl : (l.map f).Nodup) :
    (l.filter fun a => decide (f a ∉ d)).take n =
      ((l.take (n + d.card)).filter fun a => decide (f a ∉ d)).take n := by
  induction l generalizing d n with
  | nil => simp
  | cons a rest ih =>
    rw [List.map_cons, List.nodup_cons] at hl
    obtain ⟨ha, hrest⟩ := hl
    by_cases had : f a ∈ d
    · -- The head is dropped; no later element shares its value, so the rest can
      -- be filtered by `d` without it.
      have hcard : n + d.card = n + (d.erase (f a)).card + 1 := by
        have := Finset.card_erase_add_one had
        omega
      have hsame : ∀ m : List α, (∀ b ∈ m, b ∈ rest) →
          (m.filter fun b => decide (f b ∉ d)) =
            m.filter fun b => decide (f b ∉ d.erase (f a)) := by
        intro m hm
        refine List.filter_congr fun b hb => ?_
        have hne : f b ≠ f a := fun e => ha (e ▸ List.mem_map_of_mem (hm b hb))
        simp [Finset.mem_erase, hne]
      rw [hcard, List.take_succ_cons, List.filter_cons_of_neg (by simpa using had),
        List.filter_cons_of_neg (by simpa using had), hsame rest (fun _ h => h),
        hsame _ (fun b hb => List.mem_of_mem_take hb)]
      exact ih (d.erase (f a)) n hrest
    · cases n with
      | zero => simp
      | succ n =>
        rw [show n + 1 + d.card = n + d.card + 1 by omega, List.take_succ_cons,
          List.filter_cons_of_pos (by simpa using had),
          List.filter_cons_of_pos (by simpa using had), List.take_succ_cons, List.take_succ_cons,
          ih d n hrest]

/-- More elements of distinct values than `d` has members: one of them is
outside `d`. -/
theorem exists_not_mem_of_card_lt (f : α → β) {d : Finset β} {l : List α} (hl : (l.map f).Nodup)
    (hcard : d.card < l.length) : ∃ a ∈ l, f a ∉ d := by
  by_contra hnone
  have hsub : (l.map f).toFinset ⊆ d := by
    intro b hb
    obtain ⟨a, ha, rfl⟩ := List.mem_map.mp (List.mem_toFinset.mp hb)
    exact by_contra fun h => hnone ⟨a, ha, h⟩
  have hle := Finset.card_le_card hsub
  rw [List.toFinset_card_of_nodup hl, List.length_map] at hle
  omega

/-- A filter that keeps some of the first `n` elements begins with one of them. -/
theorem exists_head?_filter_of_mem_take {p : α → Bool} {l : List α} {n : Nat} {a : α}
    (ha : a ∈ l.take n) (hp : p a = true) : ∃ b ∈ l.take n, (l.filter p).head? = some b := by
  have hne : (l.take n).filter p ≠ [] := List.ne_nil_of_mem (List.mem_filter.mpr ⟨ha, hp⟩)
  obtain ⟨b, rest, hb⟩ := List.exists_cons_of_ne_nil hne
  refine ⟨b, (List.mem_filter.mp (hb ▸ List.mem_cons_self)).1, ?_⟩
  conv_lhs => rw [← List.take_append_drop n l, List.filter_append, hb]
  rfl

/-- In a list sorted by `f`, the first element that satisfies `p` is the one of
them where `f` is least. -/
theorem find?_eq_some_iff_of_sorted {γ : Type} [LinearOrder γ] {f : α → γ} (p : α → Bool)
    {l : List α} (hl : l.Pairwise fun a b => f a < f b) (a : α) :
    l.find? p = some a ↔ a ∈ l ∧ p a = true ∧ ∀ b ∈ l, p b = true → f a ≤ f b := by
  induction l with
  | nil => simp
  | cons c rest ih =>
    obtain ⟨hc, hrest⟩ := List.pairwise_cons.mp hl
    by_cases hp : p c = true
    · rw [List.find?_cons_of_pos hp, Option.some.injEq]
      constructor
      · rintro rfl
        refine ⟨List.mem_cons_self, hp, fun b hb _ => ?_⟩
        rcases List.mem_cons.mp hb with rfl | hb
        · exact le_refl _
        · exact le_of_lt (hc b hb)
      · rintro ⟨ha, -, hmin⟩
        rcases List.mem_cons.mp ha with rfl | ha
        · rfl
        · exact absurd (hc a ha) (not_lt_of_ge (hmin c List.mem_cons_self hp))
    · rw [List.find?_cons_of_neg hp, ih hrest]
      constructor
      · rintro ⟨ha, hpa, hmin⟩
        refine ⟨List.mem_cons_of_mem c ha, hpa, fun b hb hpb => ?_⟩
        rcases List.mem_cons.mp hb with rfl | hb
        · exact absurd hpb hp
        · exact hmin b hb hpb
      · rintro ⟨ha, hpa, hmin⟩
        rcases List.mem_cons.mp ha with rfl | ha
        · exact absurd hpa hp
        · exact ⟨ha, hpa, fun b hb => hmin b (List.mem_cons_of_mem c hb)⟩

end CircularWalk
end DistributedDb
