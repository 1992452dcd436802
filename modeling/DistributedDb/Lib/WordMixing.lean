import Mathlib.Logic.Function.Basic

/-
Steps of a mixing function that lose nothing.

Hash functions of the multiply-and-rotate kind are built from a few operations
on a machine word: multiplication by an odd constant, rotation, and the xor of
a word with its own right shift.  Each is injective for words of any width, and
so is reading a word byte by byte.
-/

namespace DistributedDb
namespace WordMixing

variable {w : Nat}

/-- An odd constant has an inverse, which undoes the multiplication. -/
theorem mul_injective {c d : BitVec w} (hcd : c * d = 1#w) :
    Function.Injective fun x : BitVec w => x * c := by
  intro x y (hxy : x * c = y * c)
  calc x = x * (c * d) := by rw [hcd, BitVec.mul_one]
    _ = x * c * d := (BitVec.mul_assoc x c d).symm
    _ = y * c * d := by rw [hxy]
    _ = y * (c * d) := BitVec.mul_assoc y c d
    _ = y := by rw [hcd, BitVec.mul_one]

/-- Bit `i` is found at `i + n` after the rotation, or at `i + n - w` when it has
been carried around. -/
theorem rotate_injective {n : Nat} (hn : n ≤ w) :
    Function.Injective fun x : BitVec w => x <<< n ||| x >>> (w - n) := by
  intro x y (hxy : x <<< n ||| x >>> (w - n) = y <<< n ||| y >>> (w - n))
  refine BitVec.eq_of_getLsbD_eq fun i hi => ?_
  rcases Nat.lt_or_ge (i + n) w with hlt | hge
  · have hbit := congrArg (fun z : BitVec w => z.getLsbD (i + n)) hxy
    have hout : w ≤ w - n + (i + n) := by omega
    have hlow : ¬ i + n < n := by omega
    simpa only [BitVec.getLsbD_or, BitVec.getLsbD_shiftLeft, BitVec.getLsbD_ushiftRight, hlt, hlow,
      BitVec.getLsbD_of_ge _ _ hout, decide_true, decide_false, Bool.not_false, Bool.true_and,
      Bool.or_false, Nat.add_sub_cancel] using hbit
  · have hbit := congrArg (fun z : BitVec w => z.getLsbD (i + n - w)) hxy
    have hlow : i + n - w < n := by omega
    have hback : w - n + (i + n - w) = i := by omega
    simpa [hlow, hback] using hbit

/-- The top `n` bits are kept as they are, and each lower bit is recovered from
the one `n` places above it. -/
theorem xorShift_injective {n : Nat} (hn : 0 < n) :
    Function.Injective fun x : BitVec w => x ^^^ x >>> n := by
  intro x y (hxy : x ^^^ x >>> n = y ^^^ y >>> n)
  -- By induction on how far bit `i` is from the top of the word.
  have hbits : ∀ k i, w ≤ i + k → x.getLsbD i = y.getLsbD i := by
    intro k
    induction k with
    | zero =>
      intro i hi
      rw [BitVec.getLsbD_of_ge x i hi, BitVec.getLsbD_of_ge y i hi]
    | succ k ih =>
      intro i hi
      have habove := ih (n + i) (by omega)
      have hbit := congrArg (fun z : BitVec w => z.getLsbD i) hxy
      simp only [BitVec.getLsbD_xor, BitVec.getLsbD_ushiftRight, habove] at hbit
      exact Bool.xor_left_inj.mp hbit
  exact BitVec.eq_of_getLsbD_eq fun i _ => hbits w i (by omega)

end WordMixing
end DistributedDb
