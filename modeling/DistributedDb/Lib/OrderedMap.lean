import Mathlib.Order.Lattice
import Mathlib.Data.List.Nodup
import Mathlib.Data.List.Sort

/-
Finite maps with ordered keys.

`OrderedMap κ α` is the list of its entries in strictly increasing key order, so
that iterating over the map is iterating over `entries` and an iterator is an
index into it.  Every operation rebuilds the list and carries its order proof,
and the lemmas below say what the entries of the result are, which is all that
later proofs read.
-/

namespace DistributedDb

structure OrderedMap (κ α : Type) [LinearOrder κ] where
  entries : List (κ × α)
  sorted : entries.Pairwise fun a b => a.1 < b.1

namespace OrderedMap

variable {κ α : Type} [LinearOrder κ]

def empty : OrderedMap κ α := { entries := [], sorted := List.Pairwise.nil }

/-- Assignment through the subscript operator: the entry at `k` is overwritten
when there is one, and inserted at its place in the order otherwise. -/
def insertEntry (k : κ) (v : α) : List (κ × α) → List (κ × α)
  | [] => [(k, v)]
  | e :: rest =>
    if k < e.1 then (k, v) :: e :: rest
    else if e.1 < k then e :: insertEntry k v rest
    else (k, v) :: rest

theorem mem_insertEntry_of_sorted {k : κ} {v : α} {l : List (κ × α)}
    (hl : l.Pairwise fun a b => a.1 < b.1) (e : κ × α) :
    e ∈ insertEntry k v l ↔ e = (k, v) ∨ (e ∈ l ∧ e.1 ≠ k) := by
  induction l with
  | nil => simp [insertEntry]
  | cons d rest ih =>
    obtain ⟨hd, hrest⟩ := List.pairwise_cons.mp hl
    rcases lt_trichotomy k d.1 with hlt | heq | hgt
    · have hne : ∀ x ∈ d :: rest, x.1 ≠ k := by
        intro x hx
        rcases List.mem_cons.mp hx with rfl | hx
        · exact ne_of_gt hlt
        · exact ne_of_gt (lt_trans hlt (hd x hx))
      simp only [insertEntry, hlt, if_true, List.mem_cons]
      constructor
      · rintro (h | h)
        · exact Or.inl h
        · exact Or.inr ⟨h, hne e (List.mem_cons.mpr h)⟩
      · rintro (h | ⟨h, _⟩)
        · exact Or.inl h
        · exact Or.inr h
    · have hne : ∀ x ∈ rest, x.1 ≠ k := fun x hx => heq ▸ ne_of_gt (hd x hx)
      simp only [insertEntry, heq, lt_irrefl, if_false, List.mem_cons]
      constructor
      · rintro (h | h)
        · exact Or.inl h
        · exact Or.inr ⟨Or.inr h, heq ▸ hne e h⟩
      · rintro (h | ⟨rfl | h, hk⟩)
        · exact Or.inl h
        · exact absurd rfl hk
        · exact Or.inr h
    · simp only [insertEntry, not_lt_of_gt hgt, if_false, hgt, if_true, List.mem_cons, ih hrest]
      constructor
      · rintro (rfl | h | ⟨h, hk⟩)
        · exact Or.inr ⟨Or.inl rfl, ne_of_lt hgt⟩
        · exact Or.inl h
        · exact Or.inr ⟨Or.inr h, hk⟩
      · rintro (h | ⟨h | h, hk⟩)
        · exact Or.inr (Or.inl h)
        · exact Or.inl h
        · exact Or.inr (Or.inr ⟨h, hk⟩)

theorem insertEntry_sorted (k : κ) (v : α) {l : List (κ × α)}
    (hl : l.Pairwise fun a b => a.1 < b.1) :
    (insertEntry k v l).Pairwise fun a b => a.1 < b.1 := by
  induction l with
  | nil => exact List.pairwise_singleton _ _
  | cons d rest ih =>
    obtain ⟨hd, hrest⟩ := List.pairwise_cons.mp hl
    rcases lt_trichotomy k d.1 with hlt | heq | hgt
    · simp only [insertEntry, hlt, if_true]
      refine List.pairwise_cons.mpr ⟨fun x hx => ?_, hl⟩
      rcases List.mem_cons.mp hx with rfl | hx
      · exact hlt
      · exact lt_trans hlt (hd x hx)
    · simp only [insertEntry, heq, lt_irrefl, if_false]
      exact List.pairwise_cons.mpr ⟨hd, hrest⟩
    · simp only [insertEntry, not_lt_of_gt hgt, if_false, hgt, if_true]
      refine List.pairwise_cons.mpr ⟨fun x hx => ?_, ih hrest⟩
      rcases (mem_insertEntry_of_sorted hrest x).mp hx with rfl | ⟨hx, _⟩
      · exact hgt
      · exact hd x hx

def insert (m : OrderedMap κ α) (k : κ) (v : α) : OrderedMap κ α :=
  { entries := insertEntry k v m.entries, sorted := insertEntry_sorted k v m.sorted }

/-- Erase every entry whose key and value satisfy `p`. -/
def eraseIf (m : OrderedMap κ α) (p : κ × α → Bool) : OrderedMap κ α :=
  { entries := m.entries.filter fun e => !p e, sorted := m.sorted.filter _ }

/-- Replace every value, leaving the keys and their order. -/
def mapValues (m : OrderedMap κ α) (f : κ × α → α) : OrderedMap κ α :=
  { entries := m.entries.map fun e => (e.1, f e)
    sorted := List.pairwise_map.mpr m.sorted }

def find? (m : OrderedMap κ α) (k : κ) : Option α :=
  (m.entries.find? fun e => decide (e.1 = k)).map Prod.snd

def erase (m : OrderedMap κ α) (k : κ) : OrderedMap κ α :=
  m.eraseIf fun e => decide (e.1 = k)

@[simp] theorem entries_empty : (empty : OrderedMap κ α).entries = [] := rfl

theorem mem_insert (m : OrderedMap κ α) (k : κ) (v : α) (e : κ × α) :
    e ∈ (m.insert k v).entries ↔ e = (k, v) ∨ (e ∈ m.entries ∧ e.1 ≠ k) :=
  mem_insertEntry_of_sorted m.sorted e

theorem forall_insert {P : κ × α → Prop} {m : OrderedMap κ α} {k : κ} {v : α}
    (hm : ∀ e ∈ m.entries, P e) (hv : P (k, v)) : ∀ e ∈ (m.insert k v).entries, P e := by
  intro e he
  rcases (mem_insert m k v e).mp he with rfl | ⟨he, -⟩
  · exact hv
  · exact hm e he

theorem mem_eraseIf (m : OrderedMap κ α) (p : κ × α → Bool) (e : κ × α) :
    e ∈ (m.eraseIf p).entries ↔ e ∈ m.entries ∧ p e = false := by
  simp [eraseIf]

/-- Two entries with one key are one entry. -/
theorem eq_of_mem_of_key_eq (m : OrderedMap κ α) {a b : κ × α} (ha : a ∈ m.entries)
    (hb : b ∈ m.entries) (h : a.1 = b.1) : a = b := by
  have hkeys : (m.entries.map Prod.fst).Nodup :=
    List.pairwise_map.mpr (m.sorted.imp fun hlt => ne_of_lt hlt)
  exact List.inj_on_of_nodup_map hkeys ha hb h

/-- Two maps with the same entries list them in the same order. -/
theorem entries_eq_of_mem_iff {m m' : OrderedMap κ α}
    (h : ∀ e, e ∈ m.entries ↔ e ∈ m'.entries) : m.entries = m'.entries := by
  have hirrefl : Std.Irrefl fun a b : κ × α => a.1 < b.1 := ⟨fun a => lt_irrefl a.1⟩
  have hasymm : Std.Antisymm fun a b : κ × α => a.1 < b.1 :=
    ⟨fun _ _ hab hba => absurd hba (not_lt_of_gt hab)⟩
  exact m.sorted.eq_of_mem_iff m'.sorted h

theorem find?_eq_some_iff (m : OrderedMap κ α) (k : κ) (v : α) :
    m.find? k = some v ↔ (k, v) ∈ m.entries := by
  constructor
  · intro h
    obtain ⟨e, he, rfl⟩ := Option.map_eq_some_iff.mp h
    have hk : e.1 = k := by simpa using List.find?_some he
    subst hk
    exact List.mem_of_find?_eq_some he
  · intro h
    cases hf : m.entries.find? fun e => decide (e.1 = k) with
    | none => exact absurd (List.find?_eq_none.mp hf (k, v) h) (by simp)
    | some e =>
      have hk : e.1 = k := by simpa using List.find?_some hf
      have he := m.eq_of_mem_of_key_eq (List.mem_of_find?_eq_some hf) h hk
      simp [find?, hf, he]

theorem find?_eq_none_iff (m : OrderedMap κ α) (k : κ) :
    m.find? k = none ↔ ∀ e ∈ m.entries, e.1 ≠ k := by
  simp [find?]

theorem find?_insert_self (m : OrderedMap κ α) (k : κ) (v : α) :
    (m.insert k v).find? k = some v :=
  (find?_eq_some_iff _ _ _).mpr ((mem_insert m k v _).mpr (Or.inl rfl))

theorem find?_insert_of_ne (m : OrderedMap κ α) {k k' : κ} (v : α) (h : k' ≠ k) :
    (m.insert k v).find? k' = m.find? k' := by
  refine Option.ext fun a => ?_
  rw [find?_eq_some_iff, find?_eq_some_iff, mem_insert]
  simp [h]

@[simp] theorem find?_empty (k : κ) : (empty : OrderedMap κ α).find? k = none := rfl

theorem find?_erase_self (m : OrderedMap κ α) (k : κ) : (m.erase k).find? k = none := by
  rw [find?_eq_none_iff]
  intro e he
  simpa using ((mem_eraseIf m _ e).mp he).2

theorem find?_erase_of_ne (m : OrderedMap κ α) {k k' : κ} (h : k' ≠ k) :
    (m.erase k).find? k' = m.find? k' := by
  refine Option.ext fun a => ?_
  rw [find?_eq_some_iff, find?_eq_some_iff, erase, mem_eraseIf]
  simp [h]

/-! ## Lower bound

`lower_bound(k)` is the index of the first entry whose key is not below `k`.
The entries from there on are those at or after `k`, and the ones before it are
those below `k`. -/

def lowerBound (m : OrderedMap κ α) (k : κ) : Nat :=
  m.entries.findIdx fun e => decide (k ≤ e.1)

theorem take_findIdx_of_sorted {l : List (κ × α)} (hl : l.Pairwise fun a b => a.1 < b.1) (k : κ) :
    l.take (l.findIdx fun e => decide (k ≤ e.1)) = l.filter (fun e => decide (e.1 < k)) ∧
    l.drop (l.findIdx fun e => decide (k ≤ e.1)) = l.filter (fun e => decide (k ≤ e.1)) := by
  induction l with
  | nil => simp
  | cons d rest ih =>
    obtain ⟨hd, hrest⟩ := List.pairwise_cons.mp hl
    by_cases hk : k ≤ d.1
    · have hall : ∀ x ∈ d :: rest, k ≤ x.1 := by
        intro x hx
        rcases List.mem_cons.mp hx with rfl | hx
        · exact hk
        · exact le_of_lt (lt_of_le_of_lt hk (hd x hx))
      have hidx : (d :: rest).findIdx (fun e => decide (k ≤ e.1)) = 0 := by
        simp [List.findIdx_cons, hk]
      rw [hidx, List.take_zero, List.drop_zero]
      constructor
      · symm
        rw [List.filter_eq_nil_iff]
        intro x hx
        simpa using hall x hx
      · symm
        rw [List.filter_eq_self]
        intro x hx
        simpa using hall x hx
    · obtain ⟨htake, hdrop⟩ := ih hrest
      have hidx : (d :: rest).findIdx (fun e => decide (k ≤ e.1)) =
          rest.findIdx (fun e => decide (k ≤ e.1)) + 1 := by
        simp [List.findIdx_cons, hk]
      rw [hidx, List.take_succ_cons, List.drop_succ_cons, htake, hdrop]
      simp [hk, not_le.mp hk]

theorem take_lowerBound (m : OrderedMap κ α) (k : κ) :
    m.entries.take (m.lowerBound k) = m.entries.filter fun e => decide (e.1 < k) :=
  (take_findIdx_of_sorted m.sorted k).1

theorem drop_lowerBound (m : OrderedMap κ α) (k : κ) :
    m.entries.drop (m.lowerBound k) = m.entries.filter fun e => decide (k ≤ e.1) :=
  (take_findIdx_of_sorted m.sorted k).2

theorem lowerBound_le (m : OrderedMap κ α) (k : κ) : m.lowerBound k ≤ m.entries.length :=
  List.findIdx_le_length

end OrderedMap
end DistributedDb
