import Mathlib.Algebra.BigOperators.Ring.Finset
import Mathlib.Algebra.Order.BigOperators.Group.Finset
import Mathlib.Data.Finset.Max

/-
Work that only moves upwards in a finite set.

A member that is visited may cause one visit to each member above it, and each of
these visits may do the same.  The weight of a member doubles with every member
above it, which is what makes a visit pay for all the visits that follow from it.
-/

namespace DistributedDb
namespace RankWeight

open Finset

variable {α : Type} [LinearOrder α]

def above (S : Finset α) (x : α) : Finset α := S.filter fun y => x < y

/-- A visit of `x` and all the visits it may cause. -/
def rankWeight (S : Finset α) (x : α) : Nat := 2 ^ (above S x).card

theorem rankWeight_pos (S : Finset α) (x : α) : 0 < rankWeight S x := Nat.two_pow_pos _

/-- Members below `x` do not matter to the weight of `x`. -/
theorem rankWeight_insert_of_lt {S : Finset α} {x a : α} (h : a < x) :
    rankWeight (insert a S) x = rankWeight S x := by
  unfold rankWeight above
  rw [filter_insert, if_neg (not_lt.mpr h.le)]

theorem rankWeight_above {S : Finset α} {x y : α} (h : x < y) :
    rankWeight (above S x) y = rankWeight S y := by
  unfold rankWeight above
  rw [filter_filter]
  congr 2
  ext z
  simp only [mem_filter, and_congr_right_iff, and_iff_right_iff_imp]
  intro _ hz
  exact h.trans hz

theorem sum_rankWeight (S : Finset α) : ∑ y ∈ S, rankWeight S y + 1 = 2 ^ S.card := by
  -- a new least member sees all the others, which do not see it
  induction S using Finset.induction_on_min with
  | empty => rfl
  | insert a S hmin ih =>
    have hnot : a ∉ S := fun h => lt_irrefl a (hmin a h)
    have hself : rankWeight (insert a S) a = 2 ^ S.card := by
      unfold rankWeight above
      rw [filter_insert, if_neg (lt_irrefl a), filter_true_of_mem hmin]
    have hothers : ∑ y ∈ S, rankWeight (insert a S) y = ∑ y ∈ S, rankWeight S y :=
      sum_congr rfl fun y hy => rankWeight_insert_of_lt (hmin y hy)
    rw [sum_insert hnot, hself, hothers, card_insert_of_notMem hnot, pow_succ]
    omega

/-- A visit pays for itself and for one visit to each of some members above it. -/
theorem sum_map_rankWeight_lt {S : Finset α} {x : α} {l : List α} (hl : l.Nodup)
    (habove : ∀ y ∈ l, y ∈ above S x) : (l.map (rankWeight S)).sum < rankWeight S x := by
  calc (l.map (rankWeight S)).sum
      = ∑ y ∈ l.toFinset, rankWeight S y := (List.sum_toFinset _ hl).symm
    _ ≤ ∑ y ∈ above S x, rankWeight S y :=
        sum_le_sum_of_subset fun y hy => habove y (List.mem_toFinset.mp hy)
    _ = ∑ y ∈ above S x, rankWeight (above S x) y :=
        sum_congr rfl fun y hy => (rankWeight_above (mem_filter.mp hy).2).symm
    _ < rankWeight S x := Nat.lt_of_succ_le (le_of_eq (sum_rankWeight (above S x)))

/-- Without repetitions the members above `x` can be counted in a list. -/
theorem card_above_toFinset {l : List α} (hl : l.Nodup) (x : α) :
    (above l.toFinset x).card = (l.filter fun y => decide (x < y)).length := by
  have hlist : above l.toFinset x = (l.filter fun y => decide (x < y)).toFinset := by
    ext y
    simp [above]
  rw [hlist, List.toFinset_card_of_nodup (hl.filter _)]

end RankWeight
end DistributedDb
