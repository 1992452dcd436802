import DistributedDb.HashRing.Membership
import DistributedDb.HashRing.Separation
import Mathlib.Tactic.SplitIfs

/-
Positions of the nodes 1 to 675.

Each of these nodes has a position at which no lower node stands, and nodes 284
and 675 share one.  The final mixing of the hash can be undone, so positions are
told apart by the 16 low bits of the hash before it, the cell of a label.  The
labels of one node begin with the same eight bytes, and what follows them is one
of 150 endings for all nodes whose ids have as many digits.  The kernel evaluates
the cells on natural numbers, with the operations it has built in, and keeps the
cells of the nodes so far as the bits of one number.
-/

namespace DistributedDb
namespace Murmur3

/-- The hash before the final mixing. -/
def preHash (data : Bytes) : UInt32 := digest seed data ^^^ UInt32.ofNat data.length

theorem preHash_eq_of_murmur3_eq {s t : Bytes} (h : murmur3 s = murmur3 t) :
    preHash s = preHash t := avalanche_injective h

/-! ## Endings -/

theorem finishTail_eq_xor (h : UInt32) (tail : Bytes) :
    finishTail h tail = h ^^^ finishTail 0 tail := by
  match tail with
  | [] => exact (UInt32.xor_zero).symm
  | [a] => exact congrArg (h ^^^ ·) UInt32.zero_xor.symm
  | [a, b] => exact congrArg (h ^^^ ·) UInt32.zero_xor.symm
  | [a, b, c] => exact congrArg (h ^^^ ·) UInt32.zero_xor.symm
  | _ :: _ :: _ :: _ :: _ => exact (UInt32.xor_zero).symm

/-- What the bytes after the eighth do to the hash, with the length of the key. -/
inductive Ending where
  | short (e : Nat)
  | long (k e : Nat)

def Ending.of (length : Nat) (rest : Bytes) : Ending :=
  match rest with
  | a :: b :: c :: d :: tail =>
    .long (scramble (block a b c d)).toNat (finishTail 0 tail ^^^ UInt32.ofNat length).toNat
  | tail => .short (finishTail 0 tail ^^^ UInt32.ofNat length).toNat

/-- The low bits of the hash `s` after an ending. -/
def Ending.cell (s : Nat) : Ending → Nat
  | .short e => Nat.mod (Nat.xor s e) 65536
  | .long k e =>
    Nat.mod (Nat.xor (Nat.add (Nat.mul (Nat.add (Nat.mul (Nat.xor s k) 8192)
      (Nat.div (Nat.xor s k) 524288)) 5) 0xe6546b64) e) 65536

theorem toNat_rotate (x : UInt32) :
    ((x <<< 13) ||| (x >>> 19)).toNat = (x.toNat * 8192 + x.toNat / 524288) % 2 ^ 32 := by
  have hx := x.toNat_lt
  have hlow : x.toNat <<< 13 % 2 ^ 32 = (x.toNat % 524288) <<< 13 := by
    rw [Nat.shiftLeft_eq, Nat.shiftLeft_eq]
    omega
  have hhigh : x.toNat >>> 19 < 2 ^ 13 := by
    rw [Nat.shiftRight_eq_div_pow]
    omega
  show ((x <<< 13) ||| (x >>> 19)).toNat = _
  rw [UInt32.toNat_or, UInt32.toNat_shiftLeft, UInt32.toNat_shiftRight]
  show x.toNat <<< 13 % 2 ^ 32 ||| x.toNat >>> 19 = _
  rw [hlow, ← Nat.shiftLeft_add_eq_or_of_lt hhigh, Nat.shiftLeft_eq, Nat.shiftRight_eq_div_pow]
  omega

theorem toNat_mix (h k : UInt32) :
    (mix h k).toNat =
      (((h.toNat ^^^ k.toNat) * 8192 + (h.toNat ^^^ k.toNat) / 524288) * 5 + 0xe6546b64) %
        2 ^ 32 := by
  have hmix : mix h k =
      (((h ^^^ k) <<< 13) ||| ((h ^^^ k) >>> 19)) * 5 + 0xe6546b64 := rfl
  rw [hmix, UInt32.toNat_add, UInt32.toNat_mul, toNat_rotate, UInt32.toNat_xor]
  show ((_ % 2 ^ 32) * 5 % 2 ^ 32 + 0xe6546b64) % 2 ^ 32 = _
  omega

theorem cell_of (h : UInt32) {rest : Bytes} (hshort : rest.length < 8) (length : Nat) :
    (Ending.of length rest).cell h.toNat =
      (digest h rest ^^^ UInt32.ofNat length).toNat % 65536 := by
  rcases Nat.lt_or_ge rest.length 4 with hlt | hge
  · have hof : Ending.of length rest =
        .short (finishTail 0 rest ^^^ UInt32.ofNat length).toNat := by
      match rest with
      | [] | [_] | [_, _] | [_, _, _] => rfl
      | _ :: _ :: _ :: _ :: _ =>
        simp only [List.length_cons] at hlt
        omega
    rw [hof, digest_of_short h hlt, finishTail_eq_xor h, UInt32.xor_assoc, UInt32.toNat_xor]
    rfl
  · obtain ⟨a, b, c, d, tail, rfl⟩ := exists_block_of_length hge
    have htail : tail.length < 4 := by
      simp only [List.length_cons] at hshort
      omega
    rw [digest_block, digest_of_short _ htail, finishTail_eq_xor, UInt32.xor_assoc,
      UInt32.toNat_xor, toNat_mix]
    show ((_ : Nat) ^^^ _) % 2 ^ 16 = (_ % 2 ^ 32 ^^^ _) % 2 ^ 16
    rw [Nat.xor_mod_two_pow, Nat.xor_mod_two_pow, Nat.mod_mod_of_dvd _ (by decide)]
    rfl

/-! ## Labels -/

theorem digest_eight (h : UInt32) {data : Bytes} (hlong : 8 ≤ data.length) :
    digest h data = digest (digest h (data.take 8)) (data.drop 8) := by
  obtain ⟨a, b, c, d, rest, rfl⟩ := exists_block_of_length (show 4 ≤ data.length by omega)
  obtain ⟨a', b', c', d', rest, rfl⟩ := exists_block_of_length (show 4 ≤ rest.length by
    simp only [List.length_cons] at hlong
    omega)
  simp only [digest_block, List.take_succ_cons, List.take_zero, List.drop_succ_cons,
    List.drop_zero]
  rfl

end Murmur3

namespace HashRing

open Murmur3

def digit (n : Nat) : UInt8 := UInt8.ofNat (48 + n)

/-- The decimal digits of a number below 1000. -/
def digits (n : Nat) : Bytes :=
  if n < 10 then [digit n]
  else if n < 100 then [digit (n / 10), digit (n % 10)]
  else [digit (n / 100), digit (n / 10 % 10), digit (n % 10)]

theorem ascii_toString_eq_digits {n : Nat} (hn : n < 1000) : ascii (toString n) = digits n := by
  have hdigit : ∀ d, d < 10 → UInt8.ofNat (Nat.digitChar d).toNat = digit d := by decide
  have hten : ∀ m : Nat, Nat.toDigits 10 m =
      if m < 10 then [Nat.digitChar m] else Nat.toDigits 10 (m / 10) ++ [Nat.digitChar (m % 10)] :=
    fun m => Nat.toDigits_eq_if (by decide)
  have hlast := hdigit (n % 10) (Nat.mod_lt n (by decide))
  have hmiddle := hdigit (n / 10 % 10) (Nat.mod_lt _ (by decide))
  rw [ascii, Nat.toString_eq_repr, Nat.toList_repr, digits, hten]
  rcases Nat.lt_or_ge n 10 with hone | hone
  · rw [if_pos hone, if_pos hone, List.map_singleton, hdigit n hone]
  · rw [if_neg (Nat.not_lt.mpr hone), if_neg (Nat.not_lt.mpr hone), hten (n / 10)]
    rcases Nat.lt_or_ge n 100 with htwo | htwo
    · have hfirst : n / 10 < 10 := by omega
      rw [if_pos hfirst, if_pos htwo, List.map_append, List.map_singleton, List.map_singleton,
        hdigit _ hfirst, hlast]
      rfl
    · have hfirst : n / 10 / 10 < 10 := by omega
      have hhundreds : n / 10 / 10 = n / 100 := Nat.div_div_eq_div_mul n 10 10
      rw [if_neg (by omega), if_neg (by omega), hten (n / 10 / 10), if_pos hfirst, List.map_append,
        List.map_append, List.map_singleton, List.map_singleton, List.map_singleton,
        hdigit _ hfirst, hmiddle, hlast, hhundreds]
      rfl

/-- `vnodeStem` of an id below 1000. -/
def stem (n : Nat) : Bytes := 110 :: 111 :: 100 :: 101 :: (digits n ++ [45, 118, 110])

/-- What the stem has after its first eight bytes. -/
def stemTail (n : Nat) : Bytes :=
  if n < 10 then [] else if n < 100 then [110] else [118, 110]

theorem stem_eq (n : Nat) :
    (stem n).take 8 ++ stemTail n = stem n ∧ ((stem n).take 8).length = 8 := by
  rw [stem, stemTail, digits]
  by_cases hone : n < 10
  · rw [if_pos hone, if_pos hone]
    exact ⟨rfl, rfl⟩
  · rw [if_neg hone, if_neg hone]
    by_cases htwo : n < 100
    · rw [if_pos htwo, if_pos htwo]
      exact ⟨rfl, rfl⟩
    · rw [if_neg htwo, if_neg htwo]
      exact ⟨rfl, rfl⟩

theorem vnodeLabel_eq {n k : Nat} (hn : n < 1000) (hk : k < virtualNodes) :
    vnodeLabel n k = (stem n).take 8 ++ (stemTail n ++ digits k) := by
  have hlabel : vnodeLabel n k =
      ascii "node" ++ ascii (toString n) ++ ascii "-vn" ++ ascii (toString k) := rfl
  have hindex : k < 1000 := lt_trans hk (by decide)
  rw [hlabel, ascii_toString_eq_digits hn, ascii_toString_eq_digits hindex, ← List.append_assoc,
    (stem_eq n).1]
  rfl

/-- The hash after the first eight bytes of a label. -/
def state (n : Nat) : Nat := (digest seed ((stem n).take 8)).toNat

def ending (tail : Bytes) (k : Nat) : Ending :=
  .of (8 + (tail.length + (digits k).length)) (tail ++ digits k)

def cell (n k : Nat) : Nat := (ending (stemTail n) k).cell (state n)

theorem length_digits (n : Nat) : (digits n).length ≤ 3 := by
  unfold digits
  split_ifs <;> simp

theorem length_stemTail (n : Nat) : (stemTail n).length ≤ 2 := by
  unfold stemTail
  split_ifs <;> simp

theorem cell_eq {n k : Nat} (hn : n < 1000) (hk : k < virtualNodes) :
    cell n k = (preHash (vnodeLabel n k)).toNat % 65536 := by
  obtain ⟨-, height⟩ := stem_eq n
  have hshort : (stemTail n ++ digits k).length < 8 := by
    have hdigits := length_digits k
    have htail := length_stemTail n
    rw [List.length_append]
    omega
  have htake : (vnodeLabel n k).take 8 = (stem n).take 8 := by
    rw [vnodeLabel_eq hn hk, List.take_append_of_le_length (by omega), List.take_take]
    rfl
  have hdrop : (vnodeLabel n k).drop 8 = stemTail n ++ digits k := by
    rw [vnodeLabel_eq hn hk, List.drop_append_of_le_length (by omega),
      List.drop_eq_nil_of_le (by omega), List.nil_append]
  have hlength : (vnodeLabel n k).length = 8 + ((stemTail n).length + (digits k).length) := by
    rw [vnodeLabel_eq hn hk, List.length_append, List.length_append, height]
  rw [preHash, digest_eight seed (by omega), htake, hdrop, hlength]
  exact cell_of _ hshort _

theorem cell_eq_of_vnodeHash_eq {n m i k : Nat} (hn : n < 1000) (hm : m < 1000)
    (hi : i < virtualNodes) (hk : k < virtualNodes) (h : vnodeHash n i = vnodeHash m k) :
    cell n i = cell m k := by
  rw [cell_eq hn hi, cell_eq hm hk, preHash_eq_of_murmur3_eq h]

/-! ## The search -/

def endings (tail : Bytes) : List Ending := (List.range virtualNodes).map (ending tail)

/-- The endings of the labels of node `n`, one closed list for each length of its
id, so that the kernel works each of them out once. -/
def endingsOf (n : Nat) : List Ending :=
  if n < 10 then endings []
  else if n < 100 then endings [110]
  else endings [118, 110]

theorem endingsOf_eq (n : Nat) : endingsOf n = endings (stemTail n) := by
  unfold endingsOf stemTail
  split_ifs <;> rfl

/-- The cells of some endings as the bits of a number. -/
def cells (s : Nat) (es : List Ending) : Nat :=
  es.rec 0 fun e _ bits => Nat.lor bits (Nat.shiftLeft 1 (e.cell s))

theorem testBit_cells (s : Nat) (es : List Ending) (c : Nat) :
    (cells s es).testBit c = true ↔ ∃ e ∈ es, e.cell s = c := by
  induction es with
  | nil => simp [cells]
  | cons e es ih =>
    have hcons : cells s (e :: es) = cells s es ||| 1 <<< e.cell s := rfl
    rw [hcons, Nat.testBit_or, Bool.or_eq_true, ih, Nat.one_shiftLeft, Nat.testBit_two_pow]
    simp [or_comm]

/-- From node `n` on, each of `count` nodes has a cell that is not `taken` by the
nodes before it. -/
def spread : Nat → Nat → Nat → Bool
  | 0, _, _ => true
  | count + 1, n, taken =>
    !(Nat.beq (Nat.land (cells (state n) (endingsOf n)) taken) (cells (state n) (endingsOf n))) &&
      spread count (n + 1) (Nat.lor taken (cells (state n) (endingsOf n)))

theorem testBit_cells_node (n c : Nat) :
    (cells (state n) (endingsOf n)).testBit c = true ↔ ∃ k, k < virtualNodes ∧ cell n k = c := by
  rw [testBit_cells, endingsOf_eq, endings]
  simp [cell]

/-- Induction on the nodes that are left; `taken` has the cells of all before. -/
theorem free_of_spread {count n taken : Nat} (h : spread count n taken = true)
    (htaken : ∀ m, 1 ≤ m → m < n → ∀ i, i < virtualNodes → taken.testBit (cell m i) = true)
    {x : Nat} (hx : n ≤ x) (hcount : x < n + count) :
    ∃ k, k < virtualNodes ∧ ∀ m, 1 ≤ m → m < x → ∀ i, i < virtualNodes → cell m i ≠ cell x k := by
  induction count generalizing n taken with
  | zero => omega
  | succ count ih =>
    obtain ⟨hfree, hrest⟩ := Bool.and_eq_true_iff.mp h
    rcases Nat.eq_or_lt_of_le hx with rfl | hlt
    · have hne : cells (state n) (endingsOf n) &&& taken ≠ cells (state n) (endingsOf n) := by
        intro heq
        rw [show Nat.land (cells (state n) (endingsOf n)) taken = _ from heq, Nat.beq_refl] at hfree
        exact absurd hfree (by decide)
      -- Some bit of the node is not a bit of `taken`.
      obtain ⟨c, hc, hcfree⟩ : ∃ c, (cells (state n) (endingsOf n)).testBit c = true ∧
          taken.testBit c = false := by
        by_contra hnone
        refine hne (Nat.eq_of_testBit_eq fun c => ?_)
        rw [Nat.testBit_and]
        cases hc : (cells (state n) (endingsOf n)).testBit c with
        | false => rfl
        | true =>
          cases ht : taken.testBit c with
          | false => exact absurd ⟨c, hc, ht⟩ hnone
          | true => rfl
      obtain ⟨k, hk, rfl⟩ := (testBit_cells_node n c).mp hc
      refine ⟨k, hk, fun m hm hmn i hi heq => ?_⟩
      rw [← heq, htaken m hm hmn i hi] at hcfree
      exact absurd hcfree (by decide)
    · refine ih hrest (fun m hm hmn i hi => ?_) hlt (by omega)
      have hor : Nat.lor taken (cells (state n) (endingsOf n)) =
          taken ||| cells (state n) (endingsOf n) := rfl
      rw [hor, Nat.testBit_or, Bool.or_eq_true]
      rcases Nat.lt_succ_iff_lt_or_eq.mp hmn with hlt | rfl
      · exact Or.inl (htaken m hm hlt i hi)
      · exact Or.inr ((testBit_cells_node m _).mpr ⟨i, hi, rfl⟩)

theorem spread_all : spread 675 1 0 = true := by decide +kernel

/-- Up to node 675 every node has a position of its own among the nodes up to it. -/
theorem exists_free_position {n : Int} (hn : 1 ≤ n) (htop : n ≤ 675) :
    ∃ pos, StandsAt n pos ∧ ∀ m, 1 ≤ m → m < n → ¬ StandsAt m pos := by
  obtain ⟨x, rfl⟩ := Int.eq_ofNat_of_zero_le (by omega : 0 ≤ n)
  obtain ⟨k, hk, hfree⟩ := free_of_spread spread_all (fun m hm hlt => by omega)
    (show 1 ≤ x by omega) (show x < 1 + 675 by omega)
  refine ⟨vnodeHash x k, ⟨k, hk, rfl⟩, fun m hm hlt hstands => ?_⟩
  obtain ⟨y, rfl⟩ := Int.eq_ofNat_of_zero_le (by omega : 0 ≤ m)
  obtain ⟨i, hi, hpos⟩ := hstands
  exact hfree y (by omega) (by omega) i hi
    (cell_eq_of_vnodeHash_eq (by omega) (by omega) hi hk hpos.symm)

theorem sharePosition_284_675 : SharePosition 284 675 := by
  refine ⟨vnodeHash 284 90, ⟨90, by decide, rfl⟩, ⟨139, by decide, ?_⟩⟩
  decide +kernel

end HashRing
end DistributedDb
