import DistributedDb.HashRing.Murmur3
import DistributedDb.Lib.WordMixing
import Mathlib.Algebra.Group.Nat.Defs

/-
The hash never loses a difference that fits in one word.

The block loop reads the key a word at a time, and the `switch` reads what is
left as one more word.  Everything done to a word before it meets the hash, and
everything done to the hash after that, can be undone.  Two keys of one length
that differ in one word only therefore have different hashes: the loop is in the
same state before that word, in different states after it, and the words that
follow are the same on both sides.
-/

namespace DistributedDb
namespace Murmur3

open WordMixing

/-! ## The steps on a word -/

theorem mul_inj {c d : UInt32} (hcd : c * d = 1) {x y : UInt32} (h : x * c = y * c) : x = y :=
  UInt32.toBitVec_inj.mp
    (mul_injective (congrArg UInt32.toBitVec hcd) (congrArg UInt32.toBitVec h))

theorem xorShift_inj {n : UInt32} (hn : 0 < n.toNat % 32) {x y : UInt32}
    (h : x ^^^ (x >>> n) = y ^^^ (y >>> n)) : x = y :=
  UInt32.toBitVec_inj.mp
    (xorShift_injective (n := n.toNat % 32) hn (congrArg UInt32.toBitVec h))

theorem scramble_injective : Function.Injective scramble := by
  intro x y h
  have hrot := mul_inj (d := 0x56ed309b) (by decide) h
  have hmul : x * c1 = y * c1 :=
    UInt32.toBitVec_inj.mp
      (rotate_injective (show 15 ≤ 32 by decide) (congrArg UInt32.toBitVec hrot))
  exact mul_inj (d := 0xdee13bb1) (by decide) hmul

/-- A step of the block loop can be undone up to the `xor` it begins with. -/
theorem xor_eq_of_mix_eq {h h' k k' : UInt32} (e : mix h k = mix h' k') :
    h ^^^ k = h' ^^^ k' := by
  have hmul := (UInt32.add_left_inj (0xe6546b64 : UInt32)).mp e
  have hrot := mul_inj (d := 0xcccccccd) (by decide) hmul
  exact UInt32.toBitVec_inj.mp
    (rotate_injective (show 13 ≤ 32 by decide) (congrArg UInt32.toBitVec hrot))

theorem avalanche_injective : Function.Injective avalanche := by
  intro x y h
  have h₁ := xorShift_inj (show 0 < (16 : UInt32).toNat % 32 by decide) h
  have h₂ := mul_inj (d := 0x7ed1b41d) (by decide) h₁
  have h₃ := xorShift_inj (show 0 < (13 : UInt32).toNat % 32 by decide) h₂
  have h₄ := mul_inj (d := 0xa5cb9243) (by decide) h₃
  exact xorShift_inj (by decide) h₄

/-! ## The bytes of a word -/

theorem eq_of_bits {a b : UInt8} (h : ∀ i, i < 8 → a.toBitVec.getLsbD i = b.toBitVec.getLsbD i) :
    a = b :=
  UInt8.eq_of_toBitVec_eq (BitVec.eq_of_getLsbD_eq h)

theorem block_inj {a b c d a' b' c' d' : UInt8} (h : block a b c d = block a' b' c' d') :
    a = a' ∧ b = b' ∧ c = c' ∧ d = d' := by
  have hbit : ∀ i, (block a b c d).toBitVec.getLsbD i = (block a' b' c' d').toBitVec.getLsbD i := by
    intro i
    rw [h]
  refine ⟨eq_of_bits fun i hi => ?_, eq_of_bits fun i hi => ?_, eq_of_bits fun i hi => ?_,
    eq_of_bits fun i hi => ?_⟩
  · simpa [block, hi, show i < 32 by omega, show i < 16 by omega, show i < 24 by omega] using hbit i
  · simpa [block, show i + 8 < 32 by omega, show i < 32 by omega, show i + 8 < 16 by omega,
      show i + 8 < 24 by omega, show ¬ i + 8 < 8 by omega] using hbit (i + 8)
  · simpa [block, show i + 16 < 32 by omega, show i < 32 by omega, show i + 16 < 24 by omega,
      show ¬ i + 16 < 16 by omega, show 8 ≤ i + 8 by omega] using hbit (i + 16)
  · simpa [block, show i + 24 < 32 by omega, show i < 32 by omega, show ¬ i + 24 < 24 by omega,
      show 8 ≤ i + 8 by omega, show 8 ≤ i + 16 by omega] using hbit (i + 24)

/-- The word the longest case of the `switch` builds; the shorter cases build it
with zeros for the bytes they do not have. -/
def tailWord (a b c : UInt8) : UInt32 := (c.toUInt32 <<< 16) ^^^ (b.toUInt32 <<< 8) ^^^ a.toUInt32

theorem tailWord_inj {a b c a' b' c' : UInt8} (h : tailWord a b c = tailWord a' b' c') :
    a = a' ∧ b = b' ∧ c = c' := by
  have hbit : ∀ i,
      (tailWord a b c).toBitVec.getLsbD i = (tailWord a' b' c').toBitVec.getLsbD i := by
    intro i
    rw [h]
  refine ⟨eq_of_bits fun i hi => ?_, eq_of_bits fun i hi => ?_, eq_of_bits fun i hi => ?_⟩
  · simpa [tailWord, hi, show i < 32 by omega, show i < 16 by omega] using hbit i
  · simpa [tailWord, show i + 8 < 32 by omega, show i < 32 by omega, show i + 8 < 16 by omega,
      show ¬ i + 8 < 8 by omega] using hbit (i + 8)
  · simpa [tailWord, show i + 16 < 32 by omega, show i < 32 by omega,
      show ¬ i + 16 < 16 by omega] using hbit (i + 16)

theorem finishTail_tail_inj {h : UInt32} {s t : Bytes} (hshort : s.length < 4)
    (hlen : s.length = t.length) (e : finishTail h s = finishTail h t) : s = t := by
  match s, t with
  | [], [] => rfl
  | [a], [a'] =>
    have hword := scramble_injective ((UInt32.xor_right_inj h).mp e)
    rw [UInt8.toUInt32_inj.mp hword]
  | [a, b], [a', b'] =>
    have hword : tailWord a b 0 = tailWord a' b' 0 := by
      simpa [tailWord] using scramble_injective ((UInt32.xor_right_inj h).mp e)
    obtain ⟨rfl, rfl, -⟩ := tailWord_inj hword
    rfl
  | [a, b, c], [a', b', c'] =>
    obtain ⟨rfl, rfl, rfl⟩ := tailWord_inj (scramble_injective ((UInt32.xor_right_inj h).mp e))
    rfl
  | _ :: _ :: _ :: _ :: _, _ =>
    simp only [List.length_cons] at hshort
    omega

theorem finishTail_hash_inj {h h' : UInt32} (tail : Bytes)
    (e : finishTail h tail = finishTail h' tail) : h = h' := by
  match tail with
  | [] => exact e
  | [a] => exact (UInt32.xor_left_inj _).mp e
  | [a, b] => exact (UInt32.xor_left_inj _).mp e
  | [a, b, c] => exact (UInt32.xor_left_inj _).mp e
  | _ :: _ :: _ :: _ :: _ => exact e

/-! ## The whole key -/

/-- The hash before the length is folded in, started at `h`. -/
def digest (h : UInt32) (data : Bytes) : UInt32 :=
  finishTail (blocks h data).1 (blocks h data).2

theorem blocks_block (h : UInt32) (a b c d : UInt8) (rest : Bytes) :
    blocks h (a :: b :: c :: d :: rest) = blocks (mix h (scramble (block a b c d))) rest := by
  -- The equation lemmas of the loop get lost in the word arithmetic.
  delta blocks
  rfl

theorem digest_block (h : UInt32) (a b c d : UInt8) (rest : Bytes) :
    digest h (a :: b :: c :: d :: rest) = digest (mix h (scramble (block a b c d))) rest := by
  rw [digest, blocks_block, digest]

theorem digest_of_short (h : UInt32) {data : Bytes} (hshort : data.length < 4) :
    digest h data = finishTail h data := by
  match data with
  | [] => rfl
  | [_] => rfl
  | [_, _] => rfl
  | [_, _, _] => rfl
  | _ :: _ :: _ :: _ :: _ =>
    simp only [List.length_cons] at hshort
    omega

theorem exists_block_of_length {s : Bytes} (h : 4 ≤ s.length) :
    ∃ a b c d rest, s = a :: b :: c :: d :: rest := by
  match s with
  | a :: b :: c :: d :: rest => exact ⟨a, b, c, d, rest, rfl⟩
  | [] | [_] | [_, _] | [_, _, _] =>
    simp only [List.length_cons, List.length_nil] at h
    omega

/-- A difference in the hash before some bytes is still there after them. -/
theorem digest_hash_inj (data : Bytes) {h h' : UInt32} (e : digest h data = digest h' data) :
    h = h' := by
  rcases Nat.lt_or_ge data.length 4 with hshort | hlong
  · rw [digest_of_short h hshort, digest_of_short h' hshort] at e
    exact finishTail_hash_inj data e
  · obtain ⟨a, b, c, d, rest, rfl⟩ := exists_block_of_length hlong
    rw [digest_block, digest_block] at e
    have hmix := digest_hash_inj rest e
    exact (UInt32.xor_left_inj _).mp (xor_eq_of_mix_eq hmix)
termination_by data.length

/-- Two keys of one length differ somewhere, and only at bytes of word `k`: the
`k`-th aligned block of four bytes when there is one, or the tail of fewer than
four bytes after the last block. -/
def DifferInWord (k : Nat) (s t : Bytes) : Prop :=
  s.length = t.length ∧ s ≠ t ∧ ∀ i, s[i]? ≠ t[i]? → i / 4 = k

/-- After a common block the difference is one word nearer. -/
theorem DifferInWord.of_succ {k : Nat} {s t : Bytes} (h : DifferInWord (k + 1) s t) :
    ∃ a b c d s' t', s = a :: b :: c :: d :: s' ∧ t = a :: b :: c :: d :: t' ∧
      DifferInWord k s' t' := by
  obtain ⟨hlen, hne, hword⟩ := h
  have hsame : ∀ i, i < 4 → s[i]? = t[i]? := by
    intro i hi
    by_contra hdiff
    have hk := hword i hdiff
    omega
  have hlong : 4 ≤ s.length := by
    by_contra hshort
    refine hne (List.ext_getElem? fun i => ?_)
    by_cases hi : i < 4
    · exact hsame i hi
    · rw [List.getElem?_eq_none (by omega), List.getElem?_eq_none (by omega)]
  obtain ⟨a, b, c, d, s', rfl⟩ := exists_block_of_length hlong
  obtain ⟨a', b', c', d', t', rfl⟩ := exists_block_of_length (hlen ▸ hlong)
  obtain rfl : a = a' := by simpa using hsame 0 (by omega)
  obtain rfl : b = b' := by simpa using hsame 1 (by omega)
  obtain rfl : c = c' := by simpa using hsame 2 (by omega)
  obtain rfl : d = d' := by simpa using hsame 3 (by omega)
  refine ⟨a, b, c, d, s', t', rfl, rfl, by simpa using hlen, by simpa using hne, fun i hi => ?_⟩
  have hk := hword (i + 4) (by simpa using hi)
  omega

/-- Keys of at least one block that differ in the first word agree after it. -/
theorem DifferInWord.rest_eq {a b c d a' b' c' d' : UInt8} {s t : Bytes}
    (h : DifferInWord 0 (a :: b :: c :: d :: s) (a' :: b' :: c' :: d' :: t)) : s = t := by
  refine List.ext_getElem? fun i => ?_
  by_contra hdiff
  have hk := h.2.2 (i + 4) (by simpa using hdiff)
  omega

/-- Induction on the word: a common block leaves the loop in one state, the
differing word separates the states, and the rest keeps them apart. -/
theorem digest_ne_of_differInWord {k : Nat} (h : UInt32) {s t : Bytes} (hst : DifferInWord k s t) :
    digest h s ≠ digest h t := by
  induction k generalizing h s t with
  | zero =>
    intro e
    obtain ⟨hlen, hne, -⟩ := id hst
    rcases Nat.lt_or_ge s.length 4 with hshort | hlong
    · rw [digest_of_short h hshort, digest_of_short h (hlen ▸ hshort)] at e
      exact hne (finishTail_tail_inj hshort hlen e)
    · obtain ⟨a, b, c, d, s', rfl⟩ := exists_block_of_length hlong
      obtain ⟨a', b', c', d', t', rfl⟩ := exists_block_of_length (hlen ▸ hlong)
      obtain rfl := hst.rest_eq
      rw [digest_block, digest_block] at e
      have hmix := digest_hash_inj s' e
      have hword := scramble_injective ((UInt32.xor_right_inj h).mp (xor_eq_of_mix_eq hmix))
      obtain ⟨rfl, rfl, rfl, rfl⟩ := block_inj hword
      exact hne rfl
  | succ k ih =>
    obtain ⟨a, b, c, d, s', t', rfl, rfl, hrest⟩ := hst.of_succ
    rw [digest_block, digest_block]
    exact ih _ hrest

end Murmur3

open Murmur3

theorem murmur3_ne_of_differInWord {k : Nat} {s t : Bytes} (hst : DifferInWord k s t) :
    murmur3 s ≠ murmur3 t := by
  intro e
  have hdigest := avalanche_injective e
  rw [hst.1] at hdigest
  exact digest_ne_of_differInWord seed hst ((UInt32.xor_left_inj _).mp hdigest)

/-! ## Virtual node labels -/

/-- What the labels of one node have in common. -/
def vnodeStem (nodeId : Int) : Bytes := ascii "node" ++ ascii (toString nodeId) ++ ascii "-vn"

theorem ascii_toString_inj {i j : Nat} (h : ascii (toString i) = ascii (toString j)) : i = j := by
  have hread : ∀ n : Nat,
      (ascii (toString n)).map (fun b => Char.ofNat b.toNat) = Nat.toDigits 10 n := by
    intro n
    rw [ascii, Nat.toString_eq_repr, Nat.toList_repr, List.map_map]
    refine (List.map_congr_left fun c hc => ?_).trans (List.map_id _)
    have hdigit := Nat.isDigit_of_mem_toDigits (by decide) (by decide) hc
    simp only [Char.isDigit, Bool.and_eq_true, decide_eq_true_eq] at hdigit
    have htop : c.toNat ≤ 57 := hdigit.2
    show Char.ofNat (UInt8.ofNat c.toNat).toNat = c
    rw [UInt8.toNat_ofNat_of_lt' (by show c.toNat < 256; omega), Char.ofNat_toNat]
  have hdigits : Nat.toDigits 10 i = Nat.toDigits 10 j := by rw [← hread i, h, hread j]
  rw [← Nat.ofDigitChars_ten_toDigits (n := i), hdigits, Nat.ofDigitChars_ten_toDigits]

/-- Labels of one node differ at digits of the index only. -/
theorem differInWord_vnodeLabel (nodeId : Int) {i j : Nat} (hij : i ≠ j)
    (hlen : (ascii (toString i)).length = (ascii (toString j)).length) {k : Nat}
    (hword : ∀ d, d < (ascii (toString i)).length → ((vnodeStem nodeId).length + d) / 4 = k) :
    DifferInWord k (vnodeLabel nodeId i) (vnodeLabel nodeId j) := by
  have hlabel : ∀ n, vnodeLabel nodeId n = vnodeStem nodeId ++ ascii (toString n) := fun _ => rfl
  rw [hlabel, hlabel]
  refine ⟨by rw [List.length_append, List.length_append, hlen], fun h => ?_, fun p hp => ?_⟩
  · exact hij (ascii_toString_inj (List.append_cancel_left h))
  · have hstem : (vnodeStem nodeId).length ≤ p := by
      by_contra hlt
      rw [List.getElem?_append_left (by omega), List.getElem?_append_left (by omega)] at hp
      exact hp rfl
    have hend : p - (vnodeStem nodeId).length < (ascii (toString i)).length := by
      by_contra hge
      rw [List.getElem?_eq_none (by rw [List.length_append]; omega),
        List.getElem?_eq_none (by rw [List.length_append]; omega)] at hp
      exact hp rfl
    have hk := hword _ hend
    rwa [Nat.add_sub_cancel' hstem] at hk

/-- Keys of one length that differ in one word only, a block or the tail, have
different hashes; so have two virtual nodes of one node whose indices have the
same number of digits, all of them in one word of the label.  The source keeps
the length in an `int`, which is exact for keys below `2 ^ 31` bytes. -/
theorem murmur3_separates :
    (∀ (k : Nat) (s t : Bytes), s.length < 2 ^ 31 → DifferInWord k s t → murmur3 s ≠ murmur3 t) ∧
    (∀ (nodeId : Int) (i j k : Nat), i ≠ j →
      (ascii (toString i)).length = (ascii (toString j)).length →
      (∀ d, d < (ascii (toString i)).length → ((vnodeStem nodeId).length + d) / 4 = k) →
      vnodeHash nodeId i ≠ vnodeHash nodeId j) := by
  refine ⟨fun k s t _ hst => murmur3_ne_of_differInWord hst, fun nodeId i j k hij hlen hword => ?_⟩
  exact murmur3_ne_of_differInWord (differInWord_vnodeLabel nodeId hij hlen hword)

/-- `node1-vn0` and `node1-vn9` differ in the byte after their two blocks, and so
do the digits of two such indices under any one-digit node. -/
theorem murmur3_separates_labels :
    murmur3 (ascii "node1-vn0") ≠ murmur3 (ascii "node1-vn9") ∧ vnodeHash 1 0 ≠ vnodeHash 1 9 := by
  have hword : DifferInWord 2 (ascii "node1-vn0") (ascii "node1-vn9") := by
    have hblocks : ∀ i, i < 8 → (ascii "node1-vn0")[i]? = (ascii "node1-vn9")[i]? := by decide
    refine ⟨by decide, by decide, fun i hi => ?_⟩
    have hlow : ¬ i < 8 := fun h => hi (hblocks i h)
    have hhigh : ¬ 9 ≤ i := fun h =>
      hi (by rw [List.getElem?_eq_none h, List.getElem?_eq_none h])
    omega
  refine ⟨murmur3_separates.1 2 _ _ (by decide) hword, ?_⟩
  exact murmur3_separates.2 1 0 9 2 (by decide) (by decide) (by decide)

end DistributedDb
