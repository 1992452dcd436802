import Mathlib.Data.Nat.Digits.Lemmas
import DistributedDb.Json.Value

/-
The text that `dump` prints.

The lemmas of the first part take the text of a value apart, which is all that
later proofs read of `dump`.  The rest says which values are printed, and that
no printed text holds a control character: a line break inside a string is
escaped and there is none between two tokens.
-/

namespace DistributedDb
namespace Json

variable {φ : Type}

/-! ## Taking a text apart -/

theorem dumpString_eq_some {s text : Bytes} (h : dumpString s = some text) :
    Utf8.Valid s ∧ text = quote :: (s.flatMap escape ++ [quote]) := by
  unfold dumpString at h
  split at h
  · rename_i hs
    exact ⟨hs, (Option.some.inj h).symm⟩
  · exact absurd h (by simp)

theorem dump_array_cons {x : Externals φ} {v : Json φ} {rest : List (Json φ)} {text : Bytes}
    (h : dump x (.array (v :: rest)) = some text) :
    ∃ a b, dump x v = some a ∧ dumpItems x rest = some b ∧
      text = byte '[' :: (a ++ (b ++ [byte ']'])) := by
  rw [dump] at h
  obtain ⟨a, ha, h⟩ := Option.bind_eq_some_iff.mp h
  obtain ⟨b, hb, h⟩ := Option.bind_eq_some_iff.mp h
  refine ⟨a, b, ha, hb, (Option.some.inj h).symm.trans ?_⟩
  rw [List.append_assoc, List.append_assoc]
  rfl

theorem dumpItems_cons {x : Externals φ} {v : Json φ} {rest : List (Json φ)} {text : Bytes}
    (h : dumpItems x (v :: rest) = some text) :
    ∃ a b, dump x v = some a ∧ dumpItems x rest = some b ∧ text = byte ',' :: (a ++ b) := by
  rw [dumpItems] at h
  obtain ⟨a, ha, h⟩ := Option.bind_eq_some_iff.mp h
  obtain ⟨b, hb, h⟩ := Option.bind_eq_some_iff.mp h
  refine ⟨a, b, ha, hb, (Option.some.inj h).symm.trans ?_⟩
  rw [List.append_assoc]
  rfl

theorem dump_object_cons {x : Externals φ} {k : Bytes} {v : Json φ}
    {rest : List (Bytes × Json φ)} {text : Bytes}
    (h : dump x (.object ((k, v) :: rest)) = some text) :
    ∃ a b, Utf8.Valid k ∧ dump x v = some a ∧ dumpMembers x rest = some b ∧
      text = byte '\x7b' :: quote ::
        (k.flatMap escape ++ [quote] ++ byte ':' :: (a ++ (b ++ [byte '\x7d']))) := by
  rw [dump] at h
  obtain ⟨key, hkey, h⟩ := Option.bind_eq_some_iff.mp h
  obtain ⟨a, ha, h⟩ := Option.bind_eq_some_iff.mp h
  obtain ⟨b, hb, h⟩ := Option.bind_eq_some_iff.mp h
  obtain ⟨hk, rfl⟩ := dumpString_eq_some hkey
  refine ⟨a, b, hk, ha, hb, (Option.some.inj h).symm.trans ?_⟩
  simp only [List.append_assoc, List.cons_append]
  rfl

theorem dumpMembers_cons {x : Externals φ} {k : Bytes} {v : Json φ}
    {rest : List (Bytes × Json φ)} {text : Bytes}
    (h : dumpMembers x ((k, v) :: rest) = some text) :
    ∃ a b, Utf8.Valid k ∧ dump x v = some a ∧ dumpMembers x rest = some b ∧
      text = byte ',' :: quote :: (k.flatMap escape ++ [quote] ++ byte ':' :: (a ++ b)) := by
  rw [dumpMembers] at h
  obtain ⟨key, hkey, h⟩ := Option.bind_eq_some_iff.mp h
  obtain ⟨a, ha, h⟩ := Option.bind_eq_some_iff.mp h
  obtain ⟨b, hb, h⟩ := Option.bind_eq_some_iff.mp h
  obtain ⟨hk, rfl⟩ := dumpString_eq_some hkey
  refine ⟨a, b, hk, ha, hb, (Option.some.inj h).symm.trans ?_⟩
  simp only [List.append_assoc, List.cons_append]
  rfl

/-! ## Strings and integers -/

theorem ne_of_high {c d : UInt8} (hc : 0x80 ≤ c) (hd : d < 0x80) : c ≠ d :=
  fun h => absurd hc (not_le.mpr (h ▸ hd))

theorem not_control_of_high {c : UInt8} (hc : 0x80 ≤ c) : ¬c ≤ 0x1F :=
  fun h => absurd (le_trans hc h) (by decide)

theorem escape_of_high {c : UInt8} (h : 0x80 ≤ c) : escape c = [c] := by
  have hne : ∀ d : UInt8, d < 0x80 → c ≠ d := fun _ hd => ne_of_high h hd
  simp only [escape, if_neg (hne 0x08 (by decide)), if_neg (hne 0x09 (by decide)),
    if_neg (hne 0x0A (by decide)), if_neg (hne 0x0C (by decide)), if_neg (hne 0x0D (by decide)),
    if_neg (hne 0x22 (by decide)), if_neg (hne 0x5C (by decide)),
    if_neg (not_control_of_high h)]

/-- A positive number is printed without a leading zero. -/
theorem decimal_eq_cons {n : Nat} (hn : n ≠ 0) :
    ∃ d rest, decimal n = UInt8.ofNat (d + 0x30) :: rest ∧ d ≠ 0 ∧ d < 10 ∧
      ∀ c ∈ rest, ∃ e < 10, c = UInt8.ofNat (e + 0x30) := by
  have hne : Nat.digits 10 n ≠ [] := Nat.digits_ne_nil_iff_ne_zero.mpr hn
  have hlt : ∀ d ∈ Nat.digits 10 n, d < 10 := fun d hd => Nat.digits_lt_base (by decide) hd
  have hrev : (Nat.digits 10 n).reverse =
      (Nat.digits 10 n).getLast hne :: (Nat.digits 10 n).dropLast.reverse := by
    conv_lhs => rw [← List.dropLast_append_getLast hne]
    simp
  refine ⟨(Nat.digits 10 n).getLast hne,
    (Nat.digits 10 n).dropLast.reverse.map fun d => UInt8.ofNat (d + 0x30), ?_,
    Nat.getLast_digit_ne_zero 10 hn, hlt _ (List.getLast_mem hne), ?_⟩
  · rw [decimal, if_neg hn, hrev, List.map_cons]
  · intro c hc
    obtain ⟨d, hd, rfl⟩ := List.mem_map.mp hc
    exact ⟨d, hlt d (List.dropLast_subset _ (List.mem_reverse.mp hd)), rfl⟩

/-! ## Values without loss -/

/-- The values that `dump` writes without loss: no floats, integers of 64 bits
and objects in the order of their keys. -/
inductive Readable : Json φ → Prop where
  | null : Readable .null
  | boolean (b : Bool) : Readable (.boolean b)
  | integer {n : Int} (hlow : -2 ^ 63 ≤ n) (hhigh : n < 2 ^ 64) : Readable (.integer n)
  | string (s : Bytes) : Readable (.string s)
  | array {items : List (Json φ)} (hitems : ∀ v ∈ items, Readable v) : Readable (.array items)
  | object {members : List (Bytes × Json φ)}
      (hsorted : members.Pairwise fun a b => a.1 < b.1)
      (hmembers : ∀ e ∈ members, Readable e.2) : Readable (.object members)

/-! ## No raw control characters -/

def Printable (text : Bytes) : Prop := ∀ c ∈ text, 0x20 ≤ c

instance (text : Bytes) : Decidable (Printable text) :=
  List.decidableBAll (fun c => 0x20 ≤ c) text

theorem printable_cons {c : UInt8} {text : Bytes} (hc : 0x20 ≤ c) (h : Printable text) :
    Printable (c :: text) := List.forall_mem_cons.mpr ⟨hc, h⟩

theorem printable_append {a b : Bytes} (ha : Printable a) (hb : Printable b) :
    Printable (a ++ b) := List.forall_mem_append.mpr ⟨ha, hb⟩

theorem printable_escape_ascii : ∀ n < 0x80, Printable (escape (UInt8.ofNat n)) := by
  decide +kernel

theorem printable_escape (c : UInt8) : Printable (escape c) := by
  by_cases hc : c < 0x80
  · have := printable_escape_ascii c.toNat hc
    rwa [UInt8.ofNat_toNat] at this
  · have hhigh : 0x80 ≤ c := not_lt.mp hc
    rw [escape_of_high hhigh]
    exact printable_cons (le_trans (by decide) hhigh) (by simp [Printable])

/-- A string without its opening quote. -/
theorem printable_string (s : Bytes) : Printable (s.flatMap escape ++ [quote]) := by
  refine printable_append (fun c hc => ?_) (by decide)
  obtain ⟨d, -, hd⟩ := List.mem_flatMap.mp hc
  exact printable_escape d c hd

theorem printable_digit : ∀ d < 10, 0x20 ≤ UInt8.ofNat (d + 0x30) := by decide

theorem printable_decimal (n : Nat) : Printable (decimal n) := by
  by_cases hn : n = 0
  · subst hn
    decide
  · obtain ⟨d, rest, hdec, -, hlt, hrest⟩ := decimal_eq_cons hn
    rw [hdec]
    refine printable_cons (printable_digit d hlt) fun c hc => ?_
    obtain ⟨e, he, rfl⟩ := hrest c hc
    exact printable_digit e he

theorem printable_dumpInteger (n : Int) : Printable (dumpInteger n) := by
  unfold dumpInteger
  split
  · exact printable_append (by decide) (printable_decimal _)
  · exact printable_decimal _

theorem printable_dumpItems {x : Externals φ} {items : List (Json φ)}
    (hitems : ∀ v ∈ items, ∀ text, dump x v = some text → Printable text)
    {text : Bytes} (htext : dumpItems x items = some text) : Printable text := by
  induction items generalizing text with
  | nil =>
    obtain rfl := Option.some.inj htext
    decide
  | cons v rest ih =>
    obtain ⟨a, b, ha, hb, rfl⟩ := dumpItems_cons htext
    have hfirst := hitems v List.mem_cons_self a ha
    have hothers := ih (fun w hw => hitems w (List.mem_cons_of_mem v hw)) hb
    exact printable_cons (by decide) (printable_append hfirst hothers)

theorem printable_dumpMembers {x : Externals φ} {members : List (Bytes × Json φ)}
    (hmembers : ∀ e ∈ members, ∀ text, dump x e.2 = some text → Printable text)
    {text : Bytes} (htext : dumpMembers x members = some text) : Printable text := by
  induction members generalizing text with
  | nil =>
    obtain rfl := Option.some.inj htext
    decide
  | cons e rest ih =>
    obtain ⟨a, b, -, ha, hb, rfl⟩ := dumpMembers_cons htext
    have hfirst := hmembers e List.mem_cons_self a ha
    have hothers := ih (fun w hw => hmembers w (List.mem_cons_of_mem e hw)) hb
    exact printable_cons (by decide) (printable_cons (by decide) (printable_append
      (printable_string e.1) (printable_cons (by decide) (printable_append hfirst hothers))))

theorem Readable.printable {x : Externals φ} {v : Json φ} (h : Readable v) {text : Bytes}
    (htext : dump x v = some text) : Printable text := by
  induction h generalizing text with
  | null =>
    obtain rfl := Option.some.inj htext
    decide
  | boolean b =>
    obtain rfl := Option.some.inj htext
    cases b <;> decide
  | integer hlow hhigh =>
    obtain rfl := Option.some.inj htext
    exact printable_dumpInteger _
  | string s =>
    obtain ⟨-, rfl⟩ := dumpString_eq_some htext
    exact printable_cons (by decide) (printable_string s)
  | @array items hitems ih =>
    match items with
    | [] =>
      obtain rfl := Option.some.inj htext
      decide
    | v :: rest =>
      obtain ⟨a, b, ha, hb, rfl⟩ := dump_array_cons htext
      have hfirst := ih v List.mem_cons_self ha
      have hothers := printable_dumpItems (fun w hw text => ih w (List.mem_cons_of_mem v hw)) hb
      exact printable_cons (by decide)
        (printable_append hfirst (printable_append hothers (by decide)))
  | @object members hsorted hmembers ih =>
    match members with
    | [] =>
      obtain rfl := Option.some.inj htext
      decide
    | (k, v) :: rest =>
      obtain ⟨a, b, -, ha, hb, rfl⟩ := dump_object_cons htext
      have hfirst := ih (k, v) List.mem_cons_self ha
      have hothers := printable_dumpMembers (fun e he text => ih e (List.mem_cons_of_mem _ he)) hb
      exact printable_cons (by decide) (printable_cons (by decide) (printable_append
        (printable_string k) (printable_cons (by decide)
          (printable_append hfirst (printable_append hothers (by decide))))))

/-! ## Which values are printed -/

theorem dumpString_of_valid {s : Bytes} (h : Utf8.Valid s) : ∃ text, dumpString s = some text :=
  ⟨_, if_pos h⟩

theorem exists_dumpItems {x : Externals φ} {items : List (Json φ)}
    (h : ∀ v ∈ items, ∃ text, dump x v = some text) : ∃ text, dumpItems x items = some text := by
  induction items with
  | nil => exact ⟨[], rfl⟩
  | cons v rest ih =>
    obtain ⟨a, ha⟩ := h v List.mem_cons_self
    obtain ⟨b, hb⟩ := ih fun w hw => h w (List.mem_cons_of_mem v hw)
    rw [dumpItems, ha, hb]
    exact ⟨_, rfl⟩

theorem exists_dump_array {x : Externals φ} {items : List (Json φ)}
    (h : ∀ v ∈ items, ∃ text, dump x v = some text) :
    ∃ text, dump x (.array items) = some text := by
  match items with
  | [] => exact ⟨_, rfl⟩
  | v :: rest =>
    obtain ⟨a, ha⟩ := h v List.mem_cons_self
    obtain ⟨b, hb⟩ := exists_dumpItems fun w hw => h w (List.mem_cons_of_mem v hw)
    rw [dump, ha, hb]
    exact ⟨_, rfl⟩

theorem exists_dumpMembers {x : Externals φ} {members : List (Bytes × Json φ)}
    (hkeys : ∀ e ∈ members, Utf8.Valid e.1)
    (h : ∀ e ∈ members, ∃ text, dump x e.2 = some text) :
    ∃ text, dumpMembers x members = some text := by
  induction members with
  | nil => exact ⟨[], rfl⟩
  | cons e rest ih =>
    obtain ⟨key, hkey⟩ := dumpString_of_valid (hkeys e List.mem_cons_self)
    obtain ⟨a, ha⟩ := h e List.mem_cons_self
    obtain ⟨b, hb⟩ := ih (fun d hd => hkeys d (List.mem_cons_of_mem e hd))
      fun d hd => h d (List.mem_cons_of_mem e hd)
    rw [dumpMembers, hkey, ha, hb]
    exact ⟨_, rfl⟩

theorem exists_dump_object {x : Externals φ} {members : List (Bytes × Json φ)}
    (hkeys : ∀ e ∈ members, Utf8.Valid e.1)
    (h : ∀ e ∈ members, ∃ text, dump x e.2 = some text) :
    ∃ text, dump x (.object members) = some text := by
  match members with
  | [] => exact ⟨_, rfl⟩
  | e :: rest =>
    obtain ⟨key, hkey⟩ := dumpString_of_valid (hkeys e List.mem_cons_self)
    obtain ⟨a, ha⟩ := h e List.mem_cons_self
    obtain ⟨b, hb⟩ := exists_dumpMembers (fun d hd => hkeys d (List.mem_cons_of_mem e hd))
      fun d hd => h d (List.mem_cons_of_mem e hd)
    rw [dump, hkey, ha, hb]
    exact ⟨_, rfl⟩

end Json
end DistributedDb
