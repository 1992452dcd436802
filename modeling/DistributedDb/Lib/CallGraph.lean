import Mathlib.Data.Fintype.Card
import Mathlib.Data.List.Chain
import Mathlib.Data.Set.Finite.Basic
import Mathlib.Logic.Relation

/-
Chains of calls.

`calls a b` says that a request at `a` may call `b`.  When the callees come
from a finite set, the chains from `a` all end exactly when none of them runs
into a loop, and a loop must somewhere take a step that does not lower a given
rank.
-/

namespace DistributedDb
namespace CallGraph

open Relation

variable {α : Type} {calls : α → α → Prop}

/-- Every chain of calls from `a` ends. -/
def Ends (calls : α → α → Prop) (a : α) : Prop := Acc (fun x y => calls y x) a

/-- Some chain of calls from `a` runs into a loop. -/
def Loops (calls : α → α → Prop) (a : α) : Prop :=
  ∃ b, ReflTransGen calls a b ∧ TransGen calls b b

theorem Loops.next {a : α} (h : Loops calls a) : ∃ b, calls a b ∧ Loops calls b := by
  obtain ⟨x, hax, hxx⟩ := h
  rcases ReflTransGen.cases_head hax with rfl | ⟨b, hab, hbx⟩
  · obtain ⟨b, hab, hba⟩ := TransGen.head'_iff.mp hxx
    exact ⟨b, hab, a, hba, hxx⟩
  · exact ⟨b, hab, x, hbx, hxx⟩

/-- Without a loop the chains from `a` are finite, since they stay in `s`. -/
theorem ends_of_not_loops {a : α} {s : Set α} (hfin : s.Finite)
    (hs : ∀ x y, ReflTransGen calls a x → calls x y → y ∈ s) (h : ¬ Loops calls a) :
    Ends calls a := by
  let reached := { b : α // b ∈ s ∧ ReflTransGen calls a b }
  have hfinite : Finite reached := (hfin.subset fun b hb => hb.1).to_subtype
  let below : reached → reached → Prop := fun x y => TransGen calls y.1 x.1
  have htrans : IsTrans reached below := ⟨fun _ _ _ hxy hyz => hyz.trans hxy⟩
  have hirrefl : Std.Irrefl below := ⟨fun x hx => h ⟨x.1, x.2.2, hx⟩⟩
  have hwf : WellFounded below := Finite.wellFounded_of_trans_of_irrefl below
  have hreached : ∀ x : reached, Ends calls x.1 := by
    intro x
    induction x using hwf.induction with
    | h x ih =>
      refine Acc.intro _ fun y hxy => ?_
      exact ih ⟨y, hs _ _ x.2.2 hxy, x.2.2.tail hxy⟩ (TransGen.single hxy)
  refine Acc.intro _ fun b hab => ?_
  exact hreached ⟨b, hs _ _ ReflTransGen.refl hab, ReflTransGen.single hab⟩

/-- A chain lowers the rank, or it has a call that does not. -/
theorem lower_or_up_step (rank : α → Nat) {a b : α} (h : TransGen calls a b) :
    rank b < rank a ∨ ∃ x y, ReflTransGen calls a x ∧ calls x y ∧ rank x ≤ rank y ∧
      ReflTransGen calls y b := by
  induction h with
  | single hab =>
    rename_i b
    rcases Nat.lt_or_ge (rank b) (rank a) with hlt | hge
    · exact Or.inl hlt
    · exact Or.inr ⟨a, b, ReflTransGen.refl, hab, hge, ReflTransGen.refl⟩
  | tail hac hcb ih =>
    rename_i c b
    rcases ih with hlt | ⟨x, y, hax, hxy, hup, hyc⟩
    · rcases Nat.lt_or_ge (rank b) (rank c) with hlt' | hge
      · exact Or.inl (by omega)
      · exact Or.inr ⟨c, b, hac.to_reflTransGen, hcb, hge, ReflTransGen.refl⟩
    · exact Or.inr ⟨x, y, hax, hxy, hup, hyc.tail hcb⟩

/-- A loop reached from `a` has a call that does not lower the rank and leads
back to its own origin. -/
theorem Loops.up_step (rank : α → Nat) {a : α} (h : Loops calls a) :
    ∃ x y, ReflTransGen calls a x ∧ calls x y ∧ rank x ≤ rank y ∧ ReflTransGen calls y x := by
  obtain ⟨b, hab, hbb⟩ := h
  rcases lower_or_up_step rank hbb with hlt | ⟨x, y, hbx, hxy, hup, hyb⟩
  · omega
  · exact ⟨x, y, hab.trans hbx, hxy, hup, hyb.trans hbx⟩

/-! ## Chains that go down

When every call lowers the rank, a chain visits nobody twice, and it can be
continued until it reaches an end. -/

section Down

variable {rank : α → Nat} (hdown : ∀ a b, calls a b → rank b < rank a)
include hdown

theorem nodup_of_isChain {l : List α} (h : l.IsChain calls) : l.Nodup := by
  have hrank : l.IsChain fun a b => rank b < rank a := h.imp fun a b hab => hdown a b hab
  have htrans : IsTrans α fun a b => rank b < rank a := ⟨fun a b c hab hbc => by omega⟩
  refine (List.isChain_iff_pairwise.mp hrank).imp fun {a b} hab heq => ?_
  rw [heq] at hab
  exact absurd hab (lt_irrefl _)

theorem exists_isChain {ok last : α → Prop} (hnext : ∀ a, ok a → last a ∨ ∃ b, calls a b ∧ ok b)
    {a : α} (ha : ok a) :
    ∃ l z, (a :: l).IsChain calls ∧ (a :: l).getLast? = some z ∧ last z := by
  induction hn : rank a using Nat.strong_induction_on generalizing a with
  | _ n ih =>
    rcases hnext a ha with hlast | ⟨b, hab, hb⟩
    · exact ⟨[], a, List.isChain_singleton a, rfl, hlast⟩
    · obtain ⟨l, z, hchain, hz, hlast⟩ := ih (rank b) (hn ▸ hdown a b hab) hb rfl
      refine ⟨b :: l, z, List.isChain_cons_cons.mpr ⟨hab, hchain⟩, ?_, hlast⟩
      rw [List.getLast?_cons_cons]
      exact hz

end Down

/-- Everybody on a chain but the last one calls somebody. -/
theorem eq_last_or_calls {l : List α} (h : l.IsChain calls) {z : α} (hz : l.getLast? = some z)
    {x : α} (hx : x ∈ l) : x = z ∨ ∃ y, calls x y := by
  induction l with
  | nil => exact absurd hx List.not_mem_nil
  | cons a l ih =>
    cases l with
    | nil =>
      rw [List.mem_singleton.mp hx]
      exact Or.inl (Option.some.inj hz)
    | cons b l =>
      obtain ⟨hab, hl⟩ := List.isChain_cons_cons.mp h
      rw [List.getLast?_cons_cons] at hz
      rcases List.mem_cons.mp hx with rfl | hx
      · exact Or.inr ⟨b, hab⟩
      · exact ih hl hz hx

/-- When nobody has a choice whom to call, every chain is the beginning of the
one that cannot be continued. -/
theorem isPrefix_of_isChain (hone : ∀ a b b', calls a b → calls a b' → b = b') {a z : α}
    {l l' : List α} (hl : (a :: l).IsChain calls) (hz : (a :: l).getLast? = some z)
    (hend : ∀ b, ¬ calls z b) (hl' : (a :: l').IsChain calls) : a :: l' <+: a :: l := by
  induction l' generalizing a l with
  | nil => exact ⟨l, rfl⟩
  | cons b' l' ih =>
    obtain ⟨hab', hl'⟩ := List.isChain_cons_cons.mp hl'
    cases l with
    | nil =>
      obtain rfl : a = z := Option.some.inj hz
      exact absurd hab' (hend b')
    | cons b l =>
      obtain ⟨hab, hl⟩ := List.isChain_cons_cons.mp hl
      obtain rfl := hone a b b' hab hab'
      rw [List.getLast?_cons_cons] at hz
      exact (List.prefix_cons_inj a).mpr (ih hl hz hl')

end CallGraph
end DistributedDb
