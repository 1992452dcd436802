import DistributedDb.Json.Dump
import DistributedDb.Json.Parser

/-
What a text that `parse` accepts can hold.

The scanner checks the bytes of a string against the ranges of UTF-8 and encodes
the characters that are written as escapes, two halves of a surrogate pair
together.  So whatever the text, the strings of the value are UTF-8, its integers
have 64 bits and its objects are in the order of their keys.  `Scan.Sound` and
`State.Sound` say what the parser has made sure of in the middle of a text.
-/

namespace DistributedDb
namespace Json

variable {φ : Type}

/-! ## UTF-8 -/

namespace Utf8

theorem valid_append {a b : Bytes} (ha : Valid a) (hb : Valid b) : Valid (a ++ b) :=
  Runs.exec_append.mpr ⟨.accept, ha, hb⟩

theorem within_ofNat {low high : UInt8} {n : Nat} (hlow : low.toNat ≤ n) (hhigh : n ≤ high.toNat)
    (next : Utf8) : within low high (UInt8.ofNat n) next = some next := by
  have hbyte := high.toNat_lt
  have hn : (UInt8.ofNat n).toNat = n := UInt8.toNat_ofNat_of_lt' (by simp [UInt8.size]; omega)
  refine if_pos ⟨?_, ?_⟩
  · rw [UInt8.le_iff_toNat_le, hn]
    exact hlow
  · rw [UInt8.le_iff_toNat_le, hn]
    exact hhigh

/-- The state after the first byte, by the range the byte is in. -/
theorem first_ofNat {n : Nat} (h : n < 256) :
    first (UInt8.ofNat n) =
      if n < 0x80 then some .accept
      else if n < 0xC2 then none
      else if n < 0xE0 then some .tail1
      else if n = 0xE0 then some .afterE0
      else if n = 0xED then some .afterED
      else if n < 0xF0 then some .tail2
      else if n = 0xF0 then some .afterF0
      else if n < 0xF4 then some .tail3
      else if n = 0xF4 then some .afterF4
      else none := by
  have hn : (UInt8.ofNat n).toNat = n := UInt8.toNat_ofNat_of_lt' (by simp [UInt8.size]; omega)
  simp only [first, UInt8.lt_iff_toNat_lt, ← UInt8.toNat_inj, hn, UInt8.reduceToNat]

end Utf8

/-- The code points that have an encoding. -/
def IsScalar (codepoint : Nat) : Prop :=
  codepoint < 0xD800 ∨ (0xDFFF < codepoint ∧ codepoint < 0x110000)

namespace Scan

open Utf8

theorem valid_encode {codepoint : Nat} (h : IsScalar codepoint) : Valid (encode codepoint) := by
  unfold IsScalar at h
  have htail : ∀ n : Nat, ∀ next, within 0x80 0xBF (UInt8.ofNat (0x80 + n % 64)) next = some next :=
    fun n next => within_ofNat (by simp) (by simp; omega) next
  unfold encode Valid
  split
  · rename_i hc
    simp only [Runs.exec, Utf8.step, first_ofNat (show codepoint < 256 by omega), if_pos hc]
  · split
    · have hfirst : first (UInt8.ofNat (0xC0 + codepoint / 64)) = some .tail1 := by
        rw [first_ofNat (by omega), if_neg (by omega), if_neg (by omega), if_pos (by omega)]
      simp only [Runs.exec, Utf8.step, hfirst, htail]
    · split
      · -- The second byte is narrower behind E0 and ED.
        by_cases hE0 : codepoint / 4096 = 0
        · have hfirst : first (UInt8.ofNat (0xE0 + codepoint / 4096)) = some .afterE0 := by
            rw [hE0]
            rfl
          have hsecond : within 0xA0 0xBF (UInt8.ofNat (0x80 + codepoint / 64 % 64)) .tail1 =
              some .tail1 := within_ofNat (by simp; omega) (by simp; omega) _
          simp only [Runs.exec, Utf8.step, hfirst, hsecond, htail]
        · by_cases hED : codepoint / 4096 = 0xD
          · have hfirst : first (UInt8.ofNat (0xE0 + codepoint / 4096)) = some .afterED := by
              rw [hED]
              rfl
            have hsecond : within 0x80 0x9F (UInt8.ofNat (0x80 + codepoint / 64 % 64)) .tail1 =
                some .tail1 := within_ofNat (by simp) (by simp; omega) _
            simp only [Runs.exec, Utf8.step, hfirst, hsecond, htail]
          · have hfirst : first (UInt8.ofNat (0xE0 + codepoint / 4096)) = some .tail2 := by
              rw [first_ofNat (by omega), if_neg (by omega), if_neg (by omega), if_neg (by omega),
                if_neg (by omega), if_neg (by omega), if_pos (by omega)]
            simp only [Runs.exec, Utf8.step, hfirst, htail]
      · -- And again behind F0 and F4.
        by_cases hF0 : codepoint / 262144 = 0
        · have hfirst : first (UInt8.ofNat (0xF0 + codepoint / 262144)) = some .afterF0 := by
            rw [hF0]
            rfl
          have hsecond : within 0x90 0xBF (UInt8.ofNat (0x80 + codepoint / 4096 % 64)) .tail2 =
              some .tail2 := within_ofNat (by simp; omega) (by simp; omega) _
          simp only [Runs.exec, Utf8.step, hfirst, hsecond, htail]
        · by_cases hF4 : codepoint / 262144 = 4
          · have hfirst : first (UInt8.ofNat (0xF0 + codepoint / 262144)) = some .afterF4 := by
              rw [hF4]
              rfl
            have hsecond : within 0x80 0x8F (UInt8.ofNat (0x80 + codepoint / 4096 % 64)) .tail2 =
                some .tail2 := within_ofNat (by simp) (by simp; omega) _
            simp only [Runs.exec, Utf8.step, hfirst, hsecond, htail]
          · have hfirst : first (UInt8.ofNat (0xF0 + codepoint / 262144)) = some .tail3 := by
              rw [first_ofNat (by omega), if_neg (by omega), if_neg (by omega), if_neg (by omega),
                if_neg (by omega), if_neg (by omega), if_neg (by omega), if_neg (by omega),
                if_pos (by omega)]
            simp only [Runs.exec, Utf8.step, hfirst, htail]

/-! ### Reading a character back -/

theorem range_of_within {low high c : UInt8} {next u : Utf8} (h : within low high c next = some u) :
    (low.toNat ≤ c.toNat ∧ c.toNat ≤ high.toNat) ∧ u = next := by
  unfold within at h
  split at h
  · rename_i hc
    rw [UInt8.le_iff_toNat_le, UInt8.le_iff_toNat_le] at hc
    exact ⟨hc, (Option.some.inj h).symm⟩
  · exact absurd h (by simp)

theorem ofNat_eq {c : UInt8} {n : Nat} (h : n = c.toNat) : UInt8.ofNat n = c := by
  rw [h, UInt8.ofNat_toNat]

theorem encode_two {a b : UInt8} (ha : 0xC2 ≤ a.toNat ∧ a.toNat < 0xE0)
    (hb : 0x80 ≤ b.toNat ∧ b.toNat ≤ 0xBF) :
    encode ((a.toNat - 0xC0) * 64 + (b.toNat - 0x80)) = [a, b] := by
  rw [encode, if_neg (by omega), if_pos (by omega), ofNat_eq (c := a) (by omega),
    ofNat_eq (c := b) (by omega)]

theorem encode_three {a b c : UInt8} (ha : 0xE0 ≤ a.toNat ∧ a.toNat < 0xF0)
    (hb : 0x80 ≤ b.toNat ∧ b.toNat ≤ 0xBF) (hc : 0x80 ≤ c.toNat ∧ c.toNat ≤ 0xBF)
    (hlong : a.toNat = 0xE0 → 0xA0 ≤ b.toNat) :
    encode ((a.toNat - 0xE0) * 4096 + (b.toNat - 0x80) * 64 + (c.toNat - 0x80)) = [a, b, c] := by
  rw [encode, if_neg (by omega), if_neg (by omega), if_pos (by omega), ofNat_eq (c := a) (by omega),
    ofNat_eq (c := b) (by omega), ofNat_eq (c := c) (by omega)]

theorem encode_four {a b c d : UInt8} (ha : 0xF0 ≤ a.toNat ∧ a.toNat ≤ 0xF4)
    (hb : 0x80 ≤ b.toNat ∧ b.toNat ≤ 0xBF) (hc : 0x80 ≤ c.toNat ∧ c.toNat ≤ 0xBF)
    (hd : 0x80 ≤ d.toNat ∧ d.toNat ≤ 0xBF) (hlong : a.toNat = 0xF0 → 0x90 ≤ b.toNat) :
    encode ((a.toNat - 0xF0) * 262144 + (b.toNat - 0x80) * 4096 + (c.toNat - 0x80) * 64 +
      (d.toNat - 0x80)) = [a, b, c, d] := by
  rw [encode, if_neg (by omega), if_neg (by omega), if_neg (by omega), ofNat_eq (c := a) (by omega),
    ofNat_eq (c := b) (by omega), ofNat_eq (c := c) (by omega), ofNat_eq (c := d) (by omega)]

/-- A byte within the bounds, and the rest behind it. -/
theorem exists_within {u next : Utf8} {low high : UInt8} {s : Bytes} (hu : u ≠ .accept)
    (hstep : ∀ c, u.step c = within low high c next)
    (h : Runs.exec Utf8.step u s = some .accept) :
    ∃ c rest, s = c :: rest ∧ (low.toNat ≤ c.toNat ∧ c.toNat ≤ high.toNat) ∧
      Runs.exec Utf8.step next rest = some .accept := by
  cases s with
  | nil => exact absurd (Option.some.inj h) hu
  | cons c rest =>
    obtain ⟨v, hv, hrest⟩ := Runs.exec_cons.mp h
    rw [hstep] at hv
    obtain ⟨hrange, rfl⟩ := range_of_within hv
    exact ⟨c, rest, rfl, hrange, hrest⟩

theorem exists_tail1 {s : Bytes} (h : Runs.exec Utf8.step .tail1 s = some .accept) :
    ∃ c rest, s = c :: rest ∧ (0x80 ≤ c.toNat ∧ c.toNat ≤ 0xBF) ∧ Valid rest := by
  obtain ⟨c, rest, rfl, hc, hrest⟩ := exists_within (by decide) (fun _ => rfl) h
  exact ⟨c, rest, rfl, hc, hrest⟩

theorem exists_tail2 {s : Bytes} (h : Runs.exec Utf8.step .tail2 s = some .accept) :
    ∃ c d rest, s = c :: d :: rest ∧ (0x80 ≤ c.toNat ∧ c.toNat ≤ 0xBF) ∧
      (0x80 ≤ d.toNat ∧ d.toNat ≤ 0xBF) ∧ Valid rest := by
  obtain ⟨c, s', rfl, hc, h⟩ := exists_within (by decide) (fun _ => rfl) h
  obtain ⟨d, rest, rfl, hd, hrest⟩ := exists_tail1 h
  exact ⟨c, d, rest, rfl, hc, hd, hrest⟩

/-- The second byte is narrower behind E0 and ED. -/
theorem exists_tail_three {a : UInt8} {u : Utf8} {s : Bytes} (hu : first a = some u)
    (ha : 0xE0 ≤ a.toNat ∧ a.toNat < 0xF0) (h : Runs.exec Utf8.step u s = some .accept) :
    ∃ b c rest, s = b :: c :: rest ∧ (0x80 ≤ b.toNat ∧ b.toNat ≤ 0xBF) ∧
      (0x80 ≤ c.toNat ∧ c.toNat ≤ 0xBF) ∧ (a.toNat = 0xE0 → 0xA0 ≤ b.toNat) ∧
      (a.toNat = 0xED → b.toNat ≤ 0x9F) ∧ Valid rest := by
  rw [← UInt8.ofNat_toNat (x := a), first_ofNat (by omega), if_neg (by omega), if_neg (by omega),
    if_neg (by omega)] at hu
  split at hu
  · obtain rfl := Option.some.inj hu
    obtain ⟨b, s', rfl, hb, h⟩ := exists_within (by decide) (fun _ => rfl) h
    obtain ⟨c, rest, rfl, hc, hrest⟩ := exists_tail1 h
    simp only [UInt8.reduceToNat] at hb
    exact ⟨b, c, rest, rfl, by omega, hc, by omega, by omega, hrest⟩
  · split at hu
    · obtain rfl := Option.some.inj hu
      obtain ⟨b, s', rfl, hb, h⟩ := exists_within (by decide) (fun _ => rfl) h
      obtain ⟨c, rest, rfl, hc, hrest⟩ := exists_tail1 h
      simp only [UInt8.reduceToNat] at hb
      exact ⟨b, c, rest, rfl, by omega, hc, by omega, by omega, hrest⟩
    · rw [if_pos (by omega)] at hu
      obtain rfl := Option.some.inj hu
      obtain ⟨b, c, rest, rfl, hb, hc, hrest⟩ := exists_tail2 h
      exact ⟨b, c, rest, rfl, hb, hc, by omega, by omega, hrest⟩

/-- And again behind F0 and F4. -/
theorem exists_tail_four {a : UInt8} {u : Utf8} {s : Bytes} (hu : first a = some u)
    (ha : 0xF0 ≤ a.toNat) (h : Runs.exec Utf8.step u s = some .accept) :
    a.toNat ≤ 0xF4 ∧ ∃ b c d rest, s = b :: c :: d :: rest ∧ (0x80 ≤ b.toNat ∧ b.toNat ≤ 0xBF) ∧
      (0x80 ≤ c.toNat ∧ c.toNat ≤ 0xBF) ∧ (0x80 ≤ d.toNat ∧ d.toNat ≤ 0xBF) ∧
      (a.toNat = 0xF0 → 0x90 ≤ b.toNat) ∧ (a.toNat = 0xF4 → b.toNat ≤ 0x8F) ∧ Valid rest := by
  have hbyte := a.toNat_lt
  rw [← UInt8.ofNat_toNat (x := a), first_ofNat (by omega), if_neg (by omega), if_neg (by omega),
    if_neg (by omega), if_neg (by omega), if_neg (by omega), if_neg (by omega)] at hu
  split at hu
  · obtain rfl := Option.some.inj hu
    obtain ⟨b, s', rfl, hb, h⟩ := exists_within (by decide) (fun _ => rfl) h
    obtain ⟨c, d, rest, rfl, hc, hd, hrest⟩ := exists_tail2 h
    simp only [UInt8.reduceToNat] at hb
    exact ⟨by omega, b, c, d, rest, rfl, by omega, hc, hd, by omega, by omega, hrest⟩
  · split at hu
    · obtain rfl := Option.some.inj hu
      obtain ⟨b, s', rfl, hb, h⟩ := exists_within (by decide) (fun _ => rfl) h
      obtain ⟨c, d, rest, rfl, hc, hd, hrest⟩ := exists_tail2 h
      simp only [UInt8.reduceToNat] at hb
      exact ⟨by omega, b, c, d, rest, rfl, by omega, hc, hd, by omega, by omega, hrest⟩
    · split at hu
      · obtain rfl := Option.some.inj hu
        obtain ⟨b, s', rfl, hb, h⟩ := exists_within (by decide) (fun _ => rfl) h
        obtain ⟨c, d, rest, rfl, hc, hd, hrest⟩ := exists_tail2 h
        simp only [UInt8.reduceToNat] at hb
        exact ⟨by omega, b, c, d, rest, rfl, by omega, hc, hd, by omega, by omega, hrest⟩
      · exact absurd hu (by simp)

/-- What is valid begins with the encoding of a character. -/
theorem exists_encode {a : UInt8} {s : Bytes} (h : Valid (a :: s)) :
    ∃ codepoint rest, IsScalar codepoint ∧ a :: s = encode codepoint ++ rest ∧ Valid rest := by
  unfold IsScalar
  obtain ⟨u, hu, h⟩ := Runs.exec_cons.mp h
  have hfirst : first (UInt8.ofNat a.toNat) = some u := by rwa [UInt8.ofNat_toNat]
  rw [first_ofNat a.toNat_lt] at hfirst
  by_cases hone : a.toNat < 0x80
  · rw [if_pos hone] at hfirst
    obtain rfl := Option.some.inj hfirst
    refine ⟨a.toNat, s, by omega, ?_, h⟩
    rw [encode, if_pos hone, UInt8.ofNat_toNat]
    rfl
  · rw [if_neg hone] at hfirst
    have htwo : ¬a.toNat < 0xC2 := fun hlow => by simp [hlow] at hfirst
    by_cases hthree : a.toNat < 0xE0
    · rw [if_neg htwo, if_pos hthree] at hfirst
      obtain rfl := Option.some.inj hfirst
      obtain ⟨b, rest, rfl, hb, hrest⟩ := exists_tail1 h
      have hencode := encode_two (a := a) (by omega) hb
      refine ⟨_, rest, ?_, by rw [hencode]; rfl, hrest⟩
      omega
    · by_cases hfour : a.toNat < 0xF0
      · obtain ⟨b, c, rest, rfl, hb, hc, hlong, hpair, hrest⟩ :=
          exists_tail_three hu (by omega) h
        have hencode := encode_three (a := a) (by omega) hb hc hlong
        refine ⟨_, rest, ?_, by rw [hencode]; rfl, hrest⟩
        omega
      · obtain ⟨hF4, b, c, d, rest, rfl, hb, hc, hd, hlong, htop, hrest⟩ :=
          exists_tail_four hu (by omega) h
        have hencode := encode_four (a := a) (by omega) hb hc hd hlong
        refine ⟨_, rest, ?_, by rw [hencode]; rfl, hrest⟩
        omega

/-! ### The scanner -/

/-- The first half of a surrogate pair. -/
def IsHigh (codepoint : Nat) : Prop := 0xD800 ≤ codepoint ∧ codepoint ≤ 0xDBFF

/-- What is known of the bytes in the token buffer: they are whole characters, up
to the one that is being copied, and an escape that is being read has digits that
make sense so far. -/
def Sound : Scan → Bytes → Prop
  | .text u, read => Runs.exec Utf8.step .accept read = some u
  | .escape, read => Valid read
  | .hex high digits codepoint, read =>
    Valid read ∧ (∀ h, high = some h → IsHigh h) ∧ digits < 4 ∧ codepoint < 16 ^ digits
  | .lowEscape high, read | .lowMark high, read => Valid read ∧ IsHigh high

theorem sound_text_append {u u' : Utf8} {c : UInt8} {read : Bytes}
    (h : Runs.exec Utf8.step .accept read = some u) (hstep : u.step c = some u') :
    Sound (.text u') (read ++ [c]) := by
  refine Runs.exec_append.mpr ⟨u, h, ?_⟩
  rw [Runs.exec, hstep]
  rfl

theorem hexValue_lt {c : UInt8} {d : Nat} (h : hexValue c = some d) : d < 16 := by
  unfold hexValue at h
  simp only [UInt8.le_iff_toNat_le] at h
  split at h
  · rename_i hc
    have hhigh : c.toNat ≤ 57 := hc.2
    have hd := Option.some.inj h
    omega
  · split at h
    · rename_i hc
      have hhigh : c.toNat ≤ 70 := hc.2
      have hd := Option.some.inj h
      omega
    · split at h
      · rename_i hc
        have hhigh : c.toNat ≤ 102 := hc.2
        have hd := Option.some.inj h
        omega
      · exact absurd h (by simp)

/-- Four digits end in a whole character, or in the first half of a pair. -/
theorem sound_endHex {codepoint : Nat} {high : Option Nat} {read out : Bytes} {scan : Scan}
    (hread : Valid read) (hhigh : ∀ h, high = some h → IsHigh h) (hlt : codepoint < 65536)
    (h : endHex codepoint high = some (scan, out)) : scan.Sound (read ++ out) := by
  cases high with
  | none =>
    rw [endHex] at h
    split at h
    · rename_i hpair
      obtain ⟨rfl, rfl⟩ := Prod.mk.inj (Option.some.inj h)
      rw [List.append_nil]
      exact ⟨hread, hpair⟩
    · split at h
      · exact absurd h (by simp)
      · obtain ⟨rfl, rfl⟩ := Prod.mk.inj (Option.some.inj h)
        exact valid_append hread (valid_encode (by unfold IsScalar; omega))
  | some high =>
    obtain ⟨hlow, htop⟩ := hhigh high rfl
    rw [endHex] at h
    split at h
    · obtain ⟨rfl, rfl⟩ := Prod.mk.inj (Option.some.inj h)
      exact valid_append hread (valid_encode (by unfold IsScalar; omega))
    · exact absurd h (by simp)

theorem sound_escape {read : Bytes} {c : UInt8} (hread : Valid read) (hc : c < 0x80) :
    Sound (.text .accept) (read ++ [c]) :=
  sound_text_append hread (by rw [Utf8.step, first, if_pos hc])

theorem sound_step {scan scan' : Scan} {read out : Bytes} {c : UInt8} (hscan : scan.Sound read)
    (h : scan.step c = some (scan', out)) : scan'.Sound (read ++ out) := by
  cases scan with
  | text u =>
    have hcopy : (u.step c).map (fun u' => (Scan.text u', [c])) = some (scan', out) →
        scan'.Sound (read ++ out) := by
      intro hmap
      obtain ⟨u', hu', hout⟩ := Option.map_eq_some_iff.mp hmap
      obtain ⟨rfl, rfl⟩ := Prod.mk.inj hout
      exact sound_text_append hscan hu'
    cases u with
    | accept =>
      rw [step] at h
      split at h
      · obtain ⟨rfl, rfl⟩ := Prod.mk.inj (Option.some.inj h)
        rw [List.append_nil]
        exact hscan
      · split at h
        · exact absurd h (by simp)
        · exact hcopy h
    | tail1 | tail2 | tail3 | afterE0 | afterED | afterF0 | afterF4 => exact hcopy h
  | escape =>
    rw [step] at h
    split at h
    · rename_i hc
      obtain ⟨rfl, rfl⟩ := Prod.mk.inj (Option.some.inj h)
      refine sound_escape hscan ?_
      rcases hc with rfl | rfl | rfl <;> decide
    · repeat
        split at h
        · obtain ⟨rfl, rfl⟩ := Prod.mk.inj (Option.some.inj h)
          exact sound_escape hscan (by decide)
      split at h
      · obtain ⟨rfl, rfl⟩ := Prod.mk.inj (Option.some.inj h)
        rw [List.append_nil]
        exact ⟨hscan, fun h hh => absurd hh (by simp), by decide, by decide⟩
      · exact absurd h (by simp)
  | hex high digits codepoint =>
    obtain ⟨hread, hhigh, hdigits, hlt⟩ := hscan
    rw [step] at h
    cases hd : hexValue c with
    | none => simp [hd] at h
    | some d =>
      have hd16 := hexValue_lt hd
      simp only [hd] at h
      split at h
      · rename_i hthree
        rw [hthree] at hlt
        exact sound_endHex hread hhigh (by omega) h
      · rename_i hmore
        obtain ⟨rfl, rfl⟩ := Prod.mk.inj (Option.some.inj h)
        rw [List.append_nil]
        refine ⟨hread, hhigh, by omega, ?_⟩
        rw [pow_succ]
        omega
  | lowEscape high =>
    rw [step] at h
    split at h
    · obtain ⟨rfl, rfl⟩ := Prod.mk.inj (Option.some.inj h)
      rw [List.append_nil]
      exact hscan
    · exact absurd h (by simp)
  | lowMark high =>
    rw [step] at h
    split at h
    · obtain ⟨rfl, rfl⟩ := Prod.mk.inj (Option.some.inj h)
      rw [List.append_nil]
      exact ⟨hscan.1, fun h hh => Option.some.inj hh ▸ hscan.2, by decide, by decide⟩
    · exact absurd h (by simp)

end Scan

/-! ## Values -/

/-- The values that a text can denote. -/
inductive Accepted : Json φ → Prop where
  | null : Accepted .null
  | boolean (b : Bool) : Accepted (.boolean b)
  | integer {n : Int} (hlow : -2 ^ 63 ≤ n) (hhigh : n < 2 ^ 64) : Accepted (.integer n)
  | float (x : φ) : Accepted (.float x)
  | string {s : Bytes} (hs : Utf8.Valid s) : Accepted (.string s)
  | array {items : List (Json φ)} (hitems : ∀ v ∈ items, Accepted v) : Accepted (.array items)
  | object {members : List (Bytes × Json φ)}
      (hsorted : members.Pairwise fun a b => a.1 < b.1)
      (hkeys : ∀ e ∈ members, Utf8.Valid e.1)
      (hmembers : ∀ e ∈ members, Accepted e.2) : Accepted (.object members)

/-- Members read so far. -/
structure MembersSound (members : List (Bytes × Json φ)) : Prop where
  sorted : members.Pairwise fun a b => a.1 < b.1
  keys : ∀ e ∈ members, Utf8.Valid e.1
  values : ∀ e ∈ members, Accepted e.2

theorem MembersSound.nil : MembersSound ([] : List (Bytes × Json φ)) :=
  ⟨List.Pairwise.nil, List.forall_mem_nil _, List.forall_mem_nil _⟩

theorem MembersSound.insertEntry {members : List (Bytes × Json φ)} (h : MembersSound members)
    {key : Bytes} (hkey : Utf8.Valid key) {v : Json φ} (hv : Accepted v) :
    MembersSound (OrderedMap.insertEntry key v members) := by
  have hmem := OrderedMap.mem_insertEntry_of_sorted (k := key) (v := v) h.sorted
  refine ⟨OrderedMap.insertEntry_sorted key v h.sorted, fun e he => ?_, fun e he => ?_⟩
  · rcases (hmem e).mp he with rfl | ⟨he, -⟩
    · exact hkey
    · exact h.keys e he
  · rcases (hmem e).mp he with rfl | ⟨he, -⟩
    · exact hv
    · exact h.values e he

def Frame.Sound : Frame φ → Prop
  | .element items => ∀ v ∈ items, Accepted v
  | .member members key => MembersSound members ∧ Utf8.Valid key

def Expect.Sound : Expect φ → Prop
  | .value | .itemOrEnd | .keyOrEnd => True
  | .key members | .nextMember members => MembersSound members
  | .colon members k => MembersSound members ∧ Utf8.Valid k
  | .nextItem items => ∀ v ∈ items, Accepted v

/-- Everything that was read is as `Accepted` has it. -/
def State.Sound : State φ → Prop
  | .expect next stack => next.Sound ∧ ∀ f ∈ stack, f.Sound
  | .string scan read owner stack =>
    scan.Sound read ∧ (∀ members, owner = some members → MembersSound members) ∧
      ∀ f ∈ stack, f.Sound
  | .literal _ v stack => Accepted v ∧ ∀ f ∈ stack, f.Sound
  | .number _ _ stack => ∀ f ∈ stack, f.Sound
  | .complete v | .ended v => Accepted v

theorem accepted_value {x : Externals φ} {pos : Numeral} {read : Bytes} {v : Json φ}
    (h : pos.value x read = some v) : Accepted v := by
  unfold Numeral.value at h
  split at h
  · rename_i hrange
    rw [← Option.some.inj h]
    exact .integer hrange.2.1 hrange.2.2
  · obtain ⟨d, -, rfl⟩ := Option.map_eq_some_iff.mp h
    exact .float d

theorem sound_deliver {v : Json φ} (hv : Accepted v) {stack : List (Frame φ)}
    (hstack : ∀ f ∈ stack, f.Sound) : (deliver v stack).Sound := by
  match stack with
  | [] => exact hv
  | .element items :: stack =>
    have hitems : ∀ w ∈ items, Accepted w := hstack _ List.mem_cons_self
    refine ⟨fun w hw => ?_, fun f hf => hstack f (List.mem_cons_of_mem _ hf)⟩
    rcases List.mem_append.mp hw with hw | hw
    · exact hitems w hw
    · rw [List.mem_singleton.mp hw]
      exact hv
  | .member members key :: stack =>
    obtain ⟨hmembers, hkey⟩ : MembersSound members ∧ Utf8.Valid key :=
      hstack _ List.mem_cons_self
    exact ⟨hmembers.insertEntry hkey hv, fun f hf => hstack f (List.mem_cons_of_mem _ hf)⟩

theorem sound_start {stack : List (Frame φ)} (hstack : ∀ f ∈ stack, f.Sound) {c : UInt8}
    {s : State φ} (h : start stack c = some s) : s.Sound := by
  unfold start at h
  split_ifs at h <;> obtain rfl := Option.some.inj h
  · exact ⟨trivial, hstack⟩
  · exact ⟨trivial, hstack⟩
  · exact ⟨rfl, fun _ hm => absurd hm (by simp), hstack⟩
  · exact ⟨.boolean true, hstack⟩
  · exact ⟨.boolean false, hstack⟩
  · exact ⟨.null, hstack⟩
  · exact hstack
  · exact hstack
  · exact hstack

theorem sound_stepExpect {next : Expect φ} (hnext : next.Sound) {stack : List (Frame φ)}
    (hstack : ∀ f ∈ stack, f.Sound) {c : UInt8} {s : State φ}
    (h : stepExpect stack c next = some s) : s.Sound := by
  have hpush : ∀ f : Frame φ, f.Sound → ∀ g ∈ f :: stack, g.Sound := by
    intro f hf g hg
    rcases List.mem_cons.mp hg with rfl | hg
    · exact hf
    · exact hstack g hg
  have hstring : ∀ members : List (Bytes × Json φ), MembersSound members →
      (State.string (.text .accept) [] (some members) stack).Sound := fun members hmembers =>
    ⟨rfl, fun _ hm => Option.some.inj hm ▸ hmembers, hstack⟩
  cases next with
  | value => exact sound_start hstack h
  | itemOrEnd =>
    rw [stepExpect] at h
    split at h
    · exact Option.some.inj h ▸ sound_deliver (.array (List.forall_mem_nil _)) hstack
    · exact sound_start (hpush (.element []) (List.forall_mem_nil _)) h
  | keyOrEnd =>
    rw [stepExpect] at h
    split at h
    · refine Option.some.inj h ▸ sound_deliver ?_ hstack
      exact .object List.Pairwise.nil (List.forall_mem_nil _) (List.forall_mem_nil _)
    · split at h
      · exact Option.some.inj h ▸ hstring [] MembersSound.nil
      · exact absurd h (by simp)
  | key members =>
    rw [stepExpect] at h
    split at h
    · exact Option.some.inj h ▸ hstring members hnext
    · exact absurd h (by simp)
  | colon members key =>
    rw [stepExpect] at h
    split at h
    · exact Option.some.inj h ▸ ⟨trivial, hpush (.member members key) hnext⟩
    · exact absurd h (by simp)
  | nextItem items =>
    rw [stepExpect] at h
    split at h
    · exact Option.some.inj h ▸ ⟨trivial, hpush (.element items) hnext⟩
    · split at h
      · exact Option.some.inj h ▸ sound_deliver (.array hnext) hstack
      · exact absurd h (by simp)
  | nextMember members =>
    have hmembers : MembersSound members := hnext
    rw [stepExpect] at h
    split at h
    · exact Option.some.inj h ▸ ⟨hmembers, hstack⟩
    · split at h
      · refine Option.some.inj h ▸ sound_deliver ?_ hstack
        exact .object hmembers.sorted hmembers.keys hmembers.values
      · exact absurd h (by simp)

theorem sound_stepBetween {s s' : State φ} (hs : s.Sound) {c : UInt8}
    (h : stepBetween s c = some s') : s'.Sound := by
  cases s with
  | expect next stack =>
    rw [stepBetween] at h
    split at h
    · exact Option.some.inj h ▸ hs
    · exact sound_stepExpect hs.1 hs.2 h
  | complete v =>
    rw [stepBetween] at h
    split at h
    · exact Option.some.inj h ▸ hs
    · split at h
      · rw [← Option.some.inj h]
        exact hs
      · exact absurd h (by simp)
  | ended v => exact Option.some.inj h ▸ hs
  | string scan read owner stack => exact absurd h (by simp [stepBetween])
  | literal left v stack => exact absurd h (by simp [stepBetween])
  | number pos read stack => exact absurd h (by simp [stepBetween])

theorem sound_endString {read : Bytes} (hread : Utf8.Valid read) {stack : List (Frame φ)}
    (hstack : ∀ f ∈ stack, f.Sound) {owner : Option (List (Bytes × Json φ))}
    (howner : ∀ members, owner = some members → MembersSound members) :
    (endString read stack owner).Sound := by
  cases owner with
  | none => exact sound_deliver (.string hread) hstack
  | some members => exact ⟨⟨howner members rfl, hread⟩, hstack⟩

/-- One byte of any text. -/
theorem sound_step {x : Externals φ} {s s' : State φ} (hs : s.Sound) {c : UInt8}
    (h : step x s c = some s') : s'.Sound := by
  cases s with
  | string scan read owner stack =>
    obtain ⟨hscan, howner, hstack⟩ := hs
    rw [step] at h
    split at h
    · rename_i hend
      rw [hend.1] at hscan
      exact Option.some.inj h ▸ sound_endString hscan hstack howner
    · cases hstep : scan.step c with
      | none => simp [hstep] at h
      | some p =>
        simp only [hstep] at h
        exact Option.some.inj h ▸ ⟨Scan.sound_step hscan hstep, howner, hstack⟩
  | literal left v stack =>
    cases left with
    | nil => exact absurd h (by simp [step])
    | cons d rest =>
      simp only [step] at h
      split at h
      · exact absurd h (by simp)
      · split at h
        · exact Option.some.inj h ▸ sound_deliver hs.1 hs.2
        · exact Option.some.inj h ▸ hs
  | number pos read stack =>
    rw [step] at h
    cases hpos : pos.step c with
    | some pos' =>
      simp only [hpos] at h
      exact Option.some.inj h ▸ hs
    | none =>
      simp only [hpos] at h
      split at h
      · cases hv : pos.value x read with
        | none => simp [hv] at h
        | some v =>
          simp only [hv] at h
          exact sound_stepBetween (sound_deliver (accepted_value hv) hs) h
      · exact absurd h (by simp)
  | expect next stack => exact sound_stepBetween hs h
  | complete v => exact sound_stepBetween hs h
  | ended v => exact Option.some.inj h ▸ hs

theorem sound_finish {x : Externals φ} {s : State φ} (hs : s.Sound) {v : Json φ}
    (h : finish x s = some v) : Accepted v := by
  cases s with
  | complete w => exact Option.some.inj h ▸ hs
  | ended w => exact Option.some.inj h ▸ hs
  | number pos read stack =>
    cases stack with
    | nil =>
      rw [finish] at h
      split at h
      · exact accepted_value h
      · exact absurd h (by simp)
    | cons f rest => exact absurd h (by simp [finish])
  | expect next stack => exact absurd h (by simp [finish])
  | string scan read owner stack => exact absurd h (by simp [finish])
  | literal left w stack => exact absurd h (by simp [finish])

/-- Whatever the bytes, a value that `parse` returns has strings of UTF-8, integers
of 64 bits and members in order. -/
theorem accepted_of_parse {x : Externals φ} {s : Bytes} {v : Json φ} (h : parse x s = .ok v) :
    Accepted v := by
  unfold parse at h
  cases hrun : (Runs.exec (step x) (.expect .value []) (skipBom s)).bind (finish x) with
  | none => simp [hrun] at h
  | some w =>
    simp only [hrun, Except.ok.injEq] at h
    obtain ⟨t, ht, hw⟩ := Option.bind_eq_some_iff.mp hrun
    have hstart : (State.expect .value [] : State φ).Sound := ⟨trivial, List.forall_mem_nil _⟩
    have hsound : t.Sound := Runs.exec_invariant (P := State.Sound)
      (fun _ _ _ (_ : True) hu hstep => sound_step hu hstep) hstart (fun _ _ => trivial) ht
    exact h ▸ sound_finish hsound hw

end Json
end DistributedDb
