import Mathlib.Data.List.Infix

/-
Searching a text for a pattern.

A text that begins with a fixed part contains the pattern in that part or after
it, unless some beginning of the pattern ends the part.  A text may also be
rewritten letter by letter before the search; where a letter is replaced by
letters that the pattern does not have, it does not matter which ones.
-/

namespace DistributedDb
namespace TextSearch

variable {α : Type} {p : List α}

/-- No beginning of the pattern ends `a`, so no occurrence lies across the end of
`a`. -/
theorem infix_append_iff {a : List α} (h : ∀ k, k < p.length → 0 < k → ¬ p.take k <:+ a)
    (b : List α) : p <:+: a ++ b ↔ p <:+: a ∨ p <:+: b := by
  constructor
  · induction a with
    | nil => exact Or.inr
    | cons c a ih =>
      intro hp
      rcases List.infix_cons_iff.mp hp with hp | hp
      · rcases List.prefix_or_prefix_of_prefix hp (List.prefix_append (c :: a) b) with hin | hout
        · exact Or.inl hin.isInfix
        · obtain ⟨y, rfl⟩ := hout
          by_cases hy : y = []
          · subst hy
            exact Or.inl (by simp)
          · have hlen := List.length_pos_iff.mpr hy
            refine absurd ?_ (h (c :: a).length (by rw [List.length_append]; omega) (by simp))
            rw [List.take_left]
      · have hrest : ∀ k, k < p.length → 0 < k → ¬ p.take k <:+ a := fun k hk hpos hsuf =>
          h k hk hpos (hsuf.trans (List.suffix_cons c a))
        exact (ih hrest hp).imp (fun hin => hin.trans (List.suffix_cons c a).isInfix) id
  · rintro (hp | hp)
    · exact hp.trans (List.prefix_append a b).isInfix
    · exact hp.trans (List.suffix_append a b).isInfix

/-- A text rewritten letter by letter: a plain letter becomes one letter, any
other letter becomes one or more letters that `p` does not have. -/
inductive Rewrites (plain : α → Prop) (f : α → α) (p : List α) : List α → List α → Prop
  | nil : Rewrites plain f p [] []
  | plain {a : α} {l u : List α} (ha : plain a) (h : Rewrites plain f p l u) :
      Rewrites plain f p (a :: l) (f a :: u)
  | other {a : α} {l u block : List α} (ha : ¬ plain a) (hne : block ≠ [])
      (hblock : ∀ b ∈ block, b ∉ p) (h : Rewrites plain f p l u) :
      Rewrites plain f p (a :: l) (block ++ u)

variable {plain : α → Prop} {f : α → α}

theorem not_prefix_of_head_not_mem {q block u : List α} (hq : ∀ a ∈ q, a ∈ p) (hqne : q ≠ [])
    (hne : block ≠ []) (hblock : ∀ b ∈ block, b ∉ p) : ¬ q <+: block ++ u := by
  obtain ⟨a, q, rfl⟩ := List.exists_cons_of_ne_nil hqne
  obtain ⟨b, block, rfl⟩ := List.exists_cons_of_ne_nil hne
  intro h
  obtain ⟨rfl, -⟩ := List.cons_prefix_cons.mp h
  exact hblock a List.mem_cons_self (hq a List.mem_cons_self)

/-- Leading letters that the pattern does not have can be dropped. -/
theorem infix_block_append_iff (hp : p ≠ []) {block : List α} (hblock : ∀ b ∈ block, b ∉ p)
    (u : List α) : p <:+: block ++ u ↔ p <:+: u := by
  induction block with
  | nil => exact Iff.rfl
  | cons b block ih =>
    rw [List.cons_append, List.infix_cons_iff, ih fun c hc => hblock c (List.mem_cons_of_mem b hc)]
    have hno : ¬ p <+: [b] ++ (block ++ u) :=
      not_prefix_of_head_not_mem (fun a ha => ha) hp (by simp)
        (fun c hc => List.mem_singleton.mp hc ▸ hblock b List.mem_cons_self)
    exact or_iff_right hno

theorem Rewrites.prefix_iff {l u v : List α} (hu : Rewrites plain f p l u)
    (hv : Rewrites plain f p l v) {q : List α} (hq : ∀ a ∈ q, a ∈ p) : q <+: u ↔ q <+: v := by
  induction hu generalizing v q with
  | nil =>
    cases hv
    exact Iff.rfl
  | plain ha h ih =>
    cases hv with
    | plain _ h' =>
      cases q with
      | nil => exact iff_of_true List.nil_prefix List.nil_prefix
      | cons b q =>
        rw [List.cons_prefix_cons, List.cons_prefix_cons,
          ih h' fun a hmem => hq a (List.mem_cons_of_mem b hmem)]
    | other hna => exact absurd ha hna
  | other hna hne hblock h ih =>
    cases hv with
    | plain ha => exact absurd ha hna
    | other _ hne' hblock' h' =>
      by_cases hqne : q = []
      · subst hqne
        exact iff_of_true List.nil_prefix List.nil_prefix
      · exact iff_of_false (not_prefix_of_head_not_mem hq hqne hne hblock)
          (not_prefix_of_head_not_mem hq hqne hne' hblock')

/-- The pattern occurs in both rewritings of a text or in neither. -/
theorem Rewrites.infix_iff (hp : p ≠ []) {l u v : List α} (hu : Rewrites plain f p l u)
    (hv : Rewrites plain f p l v) : p <:+: u ↔ p <:+: v := by
  induction hu generalizing v with
  | nil =>
    cases hv
    exact Iff.rfl
  | plain ha h ih =>
    cases hv with
    | plain _ h' =>
      rw [List.infix_cons_iff, List.infix_cons_iff, ih h',
        (Rewrites.plain ha h).prefix_iff (Rewrites.plain ha h') fun a hmem => hmem]
    | other hna => exact absurd ha hna
  | other hna hne hblock h ih =>
    cases hv with
    | plain ha => exact absurd ha hna
    | other _ _ hblock' h' =>
      rw [infix_block_append_iff hp hblock, infix_block_append_iff hp hblock', ih h']

end TextSearch
end DistributedDb
