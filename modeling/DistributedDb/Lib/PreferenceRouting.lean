import DistributedDb.Lib.CallGraph
import Mathlib.Data.List.Nodup

/-
Routing by a preference order.

All parties know one order of the candidates for a request, and each of them
believes some of the candidates to be up.  A party hands the request to the
first candidate it believes in and, when that one does not answer, to the rest
of the first `rf` of them.  A hand-over goes down the order, except from a party
that comes second in its own list behind a candidate that does not answer: it
goes on to the third.
-/

namespace DistributedDb
namespace PreferenceRouting

variable {ι : Type} (order : List ι) (view : ι → ι → Bool) (live : ι → Prop)

/-- The candidates that `i` believes in. -/
def candidates (i : ι) : List ι := order.filter (view i)

/-- A request at `i` may be handed to `j`. -/
def Forwards (rf : Nat) (i j : ι) : Prop :=
  ∃ p, (candidates order view i).head? = some p ∧ p ≠ i ∧ j ≠ i ∧ live j ∧
    (j = p ∨ (¬ live p ∧ j ∈ (candidates order view i).take rf))

variable {order view live}

theorem mem_order_of_forwards {rf : Nat} {i j : ι} (h : Forwards order view live rf i j) :
    j ∈ order := by
  obtain ⟨p, hp, -, -, -, hj⟩ := h
  rcases hj with rfl | ⟨-, hj⟩
  · exact (List.mem_filter.mp (List.mem_of_mem_head? hp)).1
  · exact (List.mem_filter.mp (List.mem_of_mem_take hj)).1

variable [DecidableEq ι]

theorem pairwise_idxOf (hnodup : order.Nodup) :
    order.Pairwise fun a b => order.idxOf a < order.idxOf b := by
  rw [List.pairwise_iff_getElem]
  intro a b ha hb hab
  rw [hnodup.idxOf_getElem a ha, hnodup.idxOf_getElem b hb]
  exact hab

theorem pairwise_candidates (view : ι → ι → Bool) (hnodup : order.Nodup) (i : ι) :
    (candidates order view i).Pairwise fun a b => order.idxOf a < order.idxOf b :=
  (pairwise_idxOf hnodup).sublist List.filter_sublist

/-- A hand-over up the order comes from a party that is second in its own list,
behind a candidate that does not answer, and goes to the third. -/
theorem take_candidates_of_up {i j : ι} (hnodup : order.Nodup) (hself : view i i = true)
    (h : Forwards order view live 3 i j) (hup : order.idxOf i ≤ order.idxOf j) :
    ∃ p, (candidates order view i).take 3 = [p, i, j] ∧ ¬ live p := by
  have hj := mem_order_of_forwards h
  have hi : i ∈ order := by
    by_contra hi
    have hlen := List.idxOf_lt_length_iff.mpr hj
    rw [List.idxOf_eq_length hi] at hup
    omega
  have hic : i ∈ candidates order view i := List.mem_filter.mpr ⟨hi, hself⟩
  have hpair := pairwise_candidates view hnodup i
  obtain ⟨p, hp, hpi, hji, -, hj⟩ := h
  cases hc : candidates order view i with
  | nil => simp [hc] at hp
  | cons a rest =>
    rw [hc] at hp hic hpair hj
    obtain rfl : a = p := Option.some.inj hp
    obtain ⟨hhead, hpair⟩ := List.pairwise_cons.mp hpair
    have hirest : i ∈ rest := (List.mem_cons.mp hic).resolve_left (Ne.symm hpi)
    have hja : j ≠ a := by
      intro hja
      have := hhead i hirest
      rw [hja] at hup
      omega
    obtain ⟨hdead, hj⟩ := hj.resolve_left hja
    have hjrest : j ∈ rest.take 2 := (List.mem_cons.mp hj).resolve_left hja
    cases rest with
    | nil => exact absurd hirest List.not_mem_nil
    | cons b rest =>
      obtain ⟨hhead, hpair⟩ := List.pairwise_cons.mp hpair
      by_cases hbi : b = i
      · subst hbi
        have hjrest : j ∈ rest.take 1 := (List.mem_cons.mp hjrest).resolve_left hji
        cases rest with
        | nil => exact absurd hjrest List.not_mem_nil
        | cons c rest =>
          obtain rfl : j = c := by simpa using hjrest
          exact ⟨a, rfl, hdead⟩
      · -- The party comes third or later, so everything it tries is below it.
        exfalso
        have hirest : i ∈ rest := (List.mem_cons.mp hirest).resolve_left (Ne.symm hbi)
        have hbelow := hhead i hirest
        rcases List.mem_cons.mp hjrest with rfl | hjrest
        · omega
        · cases rest with
          | nil => exact absurd hjrest List.not_mem_nil
          | cons c rest =>
            obtain rfl : j = c := by simpa using hjrest
            have hirest : i ∈ rest := (List.mem_cons.mp hirest).resolve_left (Ne.symm hji)
            have := (List.pairwise_cons.mp hpair).1 i hirest
            omega

end PreferenceRouting
end DistributedDb
