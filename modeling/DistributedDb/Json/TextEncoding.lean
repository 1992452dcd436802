import DistributedDb.Json.RoundTrip

/-
The texts that the parser reads are UTF-8.

Outside of its strings a JSON text is ASCII, and in a string the bytes of a
character follow each other, so the scanner runs through the states of the UTF-8
decoder.  What the library prints is read back by the parser, and so it is UTF-8
too.
-/

namespace DistributedDb
namespace Json

variable {φ : Type}

/-- Where the text stands between two characters of UTF-8. -/
def State.utf8 : State φ → Utf8
  | .string (.text u) _ _ _ => u
  | _ => .accept

/-- What is left of a literal is ASCII. -/
def State.Low : State φ → Prop
  | .literal left _ _ => ∀ d ∈ left, d < 0x80
  | _ => True

/-- No character of UTF-8 is open. -/
structure State.Plain (s : State φ) : Prop where
  utf8 : s.utf8 = .accept
  low : s.Low

theorem plain_deliver (v : Json φ) (stack : List (Frame φ)) : (deliver v stack).Plain := by
  match stack with
  | [] => exact ⟨rfl, trivial⟩
  | .element items :: stack => exact ⟨rfl, trivial⟩
  | .member members key :: stack => exact ⟨rfl, trivial⟩

theorem plain_endString (read : Bytes) (stack : List (Frame φ))
    (owner : Option (List (Bytes × Json φ))) : (endString read stack owner).Plain := by
  cases owner with
  | none => exact plain_deliver _ stack
  | some members => exact ⟨rfl, trivial⟩

theorem low_of_digit {c : UInt8} (h : Numeral.digit c = true) : c < 0x80 := by
  simp only [Numeral.digit, Bool.and_eq_true, decide_eq_true_eq] at h
  exact lt_of_le_of_lt h.2 (by decide)

theorem low_of_exponentMark {c : UInt8} (h : Numeral.exponentMark c = true) : c < 0x80 := by
  simp only [Numeral.exponentMark, Bool.or_eq_true, decide_eq_true_eq] at h
  rcases h with rfl | rfl <;> decide

theorem low_of_space {c : UInt8} (h : space c = true) : c < 0x80 := by
  have hall : (ascii " \t\n\r").all (fun c => decide (c < 0x80)) = true := by decide
  exact of_decide_eq_true (List.all_eq_true.mp hall c (of_decide_eq_true h))

theorem low_of_eq {c d : UInt8} (h : c = d) (hd : d < 0x80) : c < 0x80 := h ▸ hd

theorem low_of_start {stack : List (Frame φ)} {c : UInt8} {s : State φ}
    (h : start stack c = some s) : c < 0x80 ∧ s.Plain := by
  unfold start at h
  split_ifs at h with h1 h2 h3 h4 h5 h6 h7 h8 h9
  all_goals obtain rfl := Option.some.inj h
  · exact ⟨low_of_eq h1 (by decide), rfl, trivial⟩
  · exact ⟨low_of_eq h2 (by decide), rfl, trivial⟩
  · exact ⟨low_of_eq h3 (by decide), rfl, trivial⟩
  · exact ⟨low_of_eq h4 (by decide), rfl, by simp [State.Low, ascii]⟩
  · exact ⟨low_of_eq h5 (by decide), rfl, by simp [State.Low, ascii]⟩
  · exact ⟨low_of_eq h6 (by decide), rfl, by simp [State.Low, ascii]⟩
  · exact ⟨low_of_eq h7 (by decide), rfl, trivial⟩
  · exact ⟨low_of_eq h8 (by decide), rfl, trivial⟩
  · exact ⟨low_of_digit h9, rfl, trivial⟩

theorem low_of_stepExpect {stack : List (Frame φ)} {c : UInt8} {next : Expect φ} {s : State φ}
    (h : stepExpect stack c next = some s) : c < 0x80 ∧ s.Plain := by
  cases next with
  | value => exact low_of_start h
  | itemOrEnd =>
    rw [stepExpect] at h
    split_ifs at h with hc
    · exact ⟨low_of_eq hc (by decide), Option.some.inj h ▸ plain_deliver _ stack⟩
    · exact low_of_start h
  | keyOrEnd =>
    rw [stepExpect] at h
    split_ifs at h with hc hquote
    · exact ⟨low_of_eq hc (by decide), Option.some.inj h ▸ plain_deliver _ stack⟩
    · exact ⟨low_of_eq hquote (by decide), Option.some.inj h ▸ ⟨rfl, trivial⟩⟩
  | key members =>
    rw [stepExpect] at h
    split_ifs at h with hc
    exact ⟨low_of_eq hc (by decide), Option.some.inj h ▸ ⟨rfl, trivial⟩⟩
  | colon members key =>
    rw [stepExpect] at h
    split_ifs at h with hc
    exact ⟨low_of_eq hc (by decide), Option.some.inj h ▸ ⟨rfl, trivial⟩⟩
  | nextItem items =>
    rw [stepExpect] at h
    split_ifs at h with hcomma hc
    · exact ⟨low_of_eq hcomma (by decide), Option.some.inj h ▸ ⟨rfl, trivial⟩⟩
    · exact ⟨low_of_eq hc (by decide), Option.some.inj h ▸ plain_deliver _ stack⟩
  | nextMember members =>
    rw [stepExpect] at h
    split_ifs at h with hcomma hc
    · exact ⟨low_of_eq hcomma (by decide), Option.some.inj h ▸ ⟨rfl, trivial⟩⟩
    · exact ⟨low_of_eq hc (by decide), Option.some.inj h ▸ plain_deliver _ stack⟩

theorem low_of_stepBetween {s s' : State φ} {c : UInt8} (h : stepBetween s c = some s')
    (hend : ∀ v, s' ≠ .ended v) : c < 0x80 ∧ s'.Plain := by
  cases s with
  | expect next stack =>
    rw [stepBetween] at h
    split_ifs at h with hc
    · exact ⟨low_of_space hc, Option.some.inj h ▸ ⟨rfl, trivial⟩⟩
    · exact low_of_stepExpect h
  | complete v =>
    rw [stepBetween] at h
    split_ifs at h with hc hzero
    · exact ⟨low_of_space hc, Option.some.inj h ▸ ⟨rfl, trivial⟩⟩
    · exact absurd (Option.some.inj h).symm (hend v)
  | ended v => exact absurd (Option.some.inj h).symm (hend v)
  | string scan read owner stack => exact absurd h (by simp [stepBetween])
  | literal left v stack => exact absurd h (by simp [stepBetween])
  | number pos read stack => exact absurd h (by simp [stepBetween])

theorem low_of_numeral {pos pos' : Numeral} {c : UInt8} (h : pos.step c = some pos') :
    c < 0x80 := by
  cases pos with
  | minus =>
    simp only [Numeral.step] at h
    split_ifs at h with h1 h2
    · exact low_of_eq h1 (by decide)
    · exact low_of_digit h2
  | zero =>
    simp only [Numeral.step] at h
    split_ifs at h with h1 h2
    · exact low_of_eq h1 (by decide)
    · exact low_of_exponentMark h2
  | any1 =>
    simp only [Numeral.step] at h
    split_ifs at h with h1 h2 h3
    · exact low_of_digit h1
    · exact low_of_eq h2 (by decide)
    · exact low_of_exponentMark h3
  | decimal2 =>
    simp only [Numeral.step] at h
    split_ifs at h with h1 h2
    · exact low_of_digit h1
    · exact low_of_exponentMark h2
  | exponent =>
    simp only [Numeral.step] at h
    split_ifs at h with h1 h2
    · rcases h1 with h1 | h1 <;> exact low_of_eq h1 (by decide)
    · exact low_of_digit h2
  | decimal1 | sign | any2 =>
    simp only [Numeral.step] at h
    split_ifs at h with h1
    exact low_of_digit h1

theorem low_of_hexValue {c : UInt8} {d : Nat} (h : Scan.hexValue c = some d) : c < 0x80 := by
  unfold Scan.hexValue at h
  split_ifs at h with h1 h2 h3
  · exact lt_of_le_of_lt h1.2 (by decide)
  · exact lt_of_le_of_lt h2.2 (by decide)
  · exact lt_of_le_of_lt h3.2 (by decide)

theorem accept_step {c : UInt8} (h : c < 0x80) : Utf8.step .accept c = some .accept := if_pos h

theorem utf8_endHex {codepoint : Nat} {high : Option Nat} {scan : Scan} {out : Bytes}
    (h : Scan.endHex codepoint high = some (scan, out)) (read : Bytes)
    (owner : Option (List (Bytes × Json φ))) (stack : List (Frame φ)) :
    (State.string scan read owner stack).utf8 = .accept := by
  unfold Scan.endHex at h
  split at h
  · split_ifs at h
    · obtain ⟨rfl, -⟩ := Prod.mk.inj (Option.some.inj h)
      rfl
    · obtain ⟨rfl, -⟩ := Prod.mk.inj (Option.some.inj h)
      rfl
  · split_ifs at h
    obtain ⟨rfl, -⟩ := Prod.mk.inj (Option.some.inj h)
    rfl

/-- Inside a string the bytes of a character follow each other; an escape is
ASCII. -/
theorem utf8_scan {scan scan' : Scan} {c : UInt8} {out : Bytes}
    (h : scan.step c = some (scan', out)) (read read' : Bytes)
    (owner owner' : Option (List (Bytes × Json φ))) (stack stack' : List (Frame φ)) :
    (State.string scan read owner stack).utf8.step c =
      some (State.string scan' read' owner' stack').utf8 := by
  cases scan with
  | text u =>
    by_cases hu : u = .accept
    · subst hu
      rw [Scan.step] at h
      split_ifs at h with hc hlow
      · obtain ⟨rfl, -⟩ := Prod.mk.inj (Option.some.inj h)
        exact accept_step (low_of_eq hc (by decide))
      · obtain ⟨u', hu', heq⟩ := Option.map_eq_some_iff.mp h
        obtain ⟨rfl, -⟩ := Prod.mk.inj heq
        exact hu'
    · rw [Scan.step] at h
      · obtain ⟨u', hu', heq⟩ := Option.map_eq_some_iff.mp h
        obtain ⟨rfl, -⟩ := Prod.mk.inj heq
        exact hu'
      · exact hu
  | escape =>
    have hlow : c < 0x80 ∧ (State.string scan' read' owner' stack').utf8 = .accept := by
      rw [Scan.step] at h
      split_ifs at h with h1 h2 h3 h4 h5 h6 h7
      all_goals obtain ⟨rfl, -⟩ := Prod.mk.inj (Option.some.inj h)
      · rcases h1 with h1 | h1 | h1 <;> exact ⟨low_of_eq h1 (by decide), rfl⟩
      · exact ⟨low_of_eq h2 (by decide), rfl⟩
      · exact ⟨low_of_eq h3 (by decide), rfl⟩
      · exact ⟨low_of_eq h4 (by decide), rfl⟩
      · exact ⟨low_of_eq h5 (by decide), rfl⟩
      · exact ⟨low_of_eq h6 (by decide), rfl⟩
      · exact ⟨low_of_eq h7 (by decide), rfl⟩
    rw [hlow.2]
    exact accept_step hlow.1
  | hex high digits codepoint =>
    rw [Scan.step] at h
    cases hd : Scan.hexValue c with
    | none => simp [hd] at h
    | some d =>
      simp only [hd] at h
      have hnext : (State.string scan' read' owner' stack').utf8 = .accept := by
        split at h
        · exact utf8_endHex h read' owner' stack'
        · obtain ⟨rfl, -⟩ := Prod.mk.inj (Option.some.inj h)
          rfl
      rw [hnext]
      exact accept_step (low_of_hexValue hd)
  | lowEscape high =>
    rw [Scan.step] at h
    split_ifs at h with hc
    obtain ⟨rfl, -⟩ := Prod.mk.inj (Option.some.inj h)
    exact accept_step (low_of_eq hc (by decide))
  | lowMark high =>
    rw [Scan.step] at h
    split_ifs at h with hc
    obtain ⟨rfl, -⟩ := Prod.mk.inj (Option.some.inj h)
    exact accept_step (low_of_eq hc (by decide))

/-- The parser reads a character of UTF-8 byte by byte, up to a null byte behind the
value. -/
theorem utf8_step {x : Externals φ} {s s' : State φ} {c : UInt8} (hs : s.Low)
    (h : step x s c = some s') (hend : ∀ v, s' ≠ .ended v) :
    s.utf8.step c = some s'.utf8 ∧ s'.Low := by
  have hplain : s.utf8 = .accept → c < 0x80 → s'.Plain →
      s.utf8.step c = some s'.utf8 ∧ s'.Low := by
    intro hs hlow hs'
    rw [hs, hs'.utf8]
    exact ⟨accept_step hlow, hs'.low⟩
  cases s with
  | string scan read owner stack =>
    rw [step] at h
    split at h
    · rename_i hquote
      obtain ⟨rfl, hc⟩ := hquote
      exact hplain rfl (low_of_eq hc (by decide))
        (Option.some.inj h ▸ plain_endString read stack owner)
    · cases hscan : scan.step c with
      | none => simp [hscan] at h
      | some p =>
        simp only [hscan, Option.some.injEq] at h
        subst h
        exact ⟨utf8_scan hscan .., trivial⟩
  | literal left v stack =>
    cases left with
    | nil => exact absurd h (by simp [step])
    | cons d rest =>
      simp only [step] at h
      split_ifs at h with hc hnil
      · exact hplain rfl (low_of_eq (not_not.mp hc) (hs d List.mem_cons_self))
          (Option.some.inj h ▸ plain_deliver v stack)
      · exact hplain rfl (low_of_eq (not_not.mp hc) (hs d List.mem_cons_self))
          (Option.some.inj h ▸ ⟨rfl, fun e he => hs e (List.mem_cons_of_mem d he)⟩)
  | number pos read stack =>
    rw [step] at h
    cases hpos : pos.step c with
    | some pos' =>
      simp only [hpos] at h
      exact hplain rfl (low_of_numeral hpos) (Option.some.inj h ▸ ⟨rfl, trivial⟩)
    | none =>
      simp only [hpos] at h
      split at h
      · cases hv : pos.value x read with
        | none => simp [hv] at h
        | some v =>
          simp only [hv] at h
          obtain ⟨hlow, hs'⟩ := low_of_stepBetween h hend
          exact hplain rfl hlow hs'
      · exact absurd h (by simp)
  | expect next stack =>
    obtain ⟨hlow, hs'⟩ := low_of_stepBetween (s := .expect next stack) h hend
    exact hplain rfl hlow hs'
  | complete v =>
    obtain ⟨hlow, hs'⟩ := low_of_stepBetween (s := .complete v) h hend
    exact hplain rfl hlow hs'
  | ended v => exact absurd (Option.some.inj h).symm (hend v)

theorem utf8_exec {x : Externals φ} {s t : State φ} {text : Bytes} (hs : s.Low)
    (h : Runs.exec (step x) s text = some t) (hend : ∀ v, t ≠ .ended v) :
    Runs.exec Utf8.step s.utf8 text = some t.utf8 := by
  induction text generalizing s with
  | nil =>
    obtain rfl := Option.some.inj h
    rfl
  | cons c rest ih =>
    obtain ⟨u, hu, hrest⟩ := Runs.exec_cons.mp h
    have hopen : ∀ v, u ≠ .ended v := by
      rintro v rfl
      rw [exec_ended] at hrest
      exact hend v (Option.some.inj hrest).symm
    obtain ⟨hstep, hlow⟩ := utf8_step hs hu hopen
    exact Runs.exec_cons.mpr ⟨u.utf8, hstep, ih hlow hrest⟩

/-- The text of an object is UTF-8. -/
theorem valid_dump {x : Externals φ} {members : List (Bytes × Json φ)}
    (h : Readable (.object members)) {text : Bytes}
    (htext : dump x (.object members) = some text) : Utf8.Valid text := by
  obtain ⟨t, ht, hsettles⟩ := (h.reads htext []).exec_value
  rw [hsettles.eq_complete] at ht
  have hstart : (State.expect .value [] : State φ).Low := trivial
  exact utf8_exec hstart ht (by simp)

end Json
end DistributedDb
