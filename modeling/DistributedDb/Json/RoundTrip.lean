import Mathlib.Tactic.FinCases
import Mathlib.Tactic.IntervalCases
import DistributedDb.Json.Dump
import DistributedDb.Json.Parser

/-
`parse` undoes `dump`, and accepts no part of an object's text.

A value that was read leaves the parser ready to go on after it, except that a
number may still be open: only the byte behind it closes it.  `Settles` says
that the parser is in one of these two situations, and `Reads` that a text takes
it there from the place where a value starts.  Since `step` reads byte by byte,
a text that is cut leaves the parser in a state from which the missing bytes
would have led on, so it cannot be a complete value already.
-/

namespace DistributedDb
namespace Json

variable {φ : Type}

/-! ## Strings -/

/-- The bytes a part of a string adds to the token buffer, when the string does
not end in it. -/
def scanAll : Scan → Bytes → Option (Scan × Bytes)
  | s, [] => some (s, [])
  | s, c :: rest =>
    if s = .text .accept ∧ c = quote then none
    else
      match s.step c with
      | none => none
      | some (s', out) => (scanAll s' rest).map fun p => (p.1, out ++ p.2)

theorem exec_string_of_scanAll (x : Externals φ) {s s' : Scan} {text out : Bytes}
    (h : scanAll s text = some (s', out)) (read : Bytes)
    (owner : Option (List (Bytes × Json φ))) (stack : List (Frame φ)) :
    Runs.exec (step x) (.string s read owner stack) text =
      some (.string s' (read ++ out) owner stack) := by
  induction text generalizing s out read with
  | nil =>
    obtain ⟨rfl, rfl⟩ := Prod.mk.inj (Option.some.inj h)
    simp [Runs.exec]
  | cons c rest ih =>
    rw [scanAll] at h
    split at h
    · exact absurd h (by simp)
    · rename_i hc
      cases hs : s.step c with
      | none => simp [hs] at h
      | some p =>
        simp only [hs] at h
        obtain ⟨q, hq, hout⟩ := Option.map_eq_some_iff.mp h
        obtain ⟨rfl, rfl⟩ := Prod.mk.inj hout
        have hstep : step x (.string s read owner stack) c =
            some (.string p.1 (read ++ p.2) owner stack) := by
          simp only [step, if_neg hc, hs]
        rw [Runs.exec_cons]
        refine ⟨_, hstep, ?_⟩
        rw [ih hq, List.append_assoc]

/-- The escapes of the ASCII characters, one by one. -/
theorem scanAll_escape_ascii :
    ∀ n < 0x80, scanAll (.text .accept) (escape (UInt8.ofNat n)) =
      some (.text .accept, [UInt8.ofNat n]) := by
  decide +kernel

theorem scanAll_single {s s' : Scan} {c : UInt8} {out : Bytes}
    (hquote : ¬(s = .text .accept ∧ c = quote)) (hstep : s.step c = some (s', out)) :
    scanAll s [c] = some (s', out) := by
  rw [scanAll, if_neg hquote, hstep]
  simp [scanAll]

theorem scanAll_escape {u u' : Utf8} {c : UInt8} (h : u.step c = some u') :
    scanAll (.text u) (escape c) = some (.text u', [c]) := by
  by_cases hu : u = .accept
  · subst hu
    by_cases hc : c < 0x80
    · have hu' : u' = .accept := by
        rw [Utf8.step, Utf8.first, if_pos hc] at h
        exact (Option.some.inj h).symm
      have hescape := scanAll_escape_ascii c.toNat hc
      rw [UInt8.ofNat_toNat] at hescape
      rw [hescape, hu']
    · have hhigh : 0x80 ≤ c := not_lt.mp hc
      have hbackslash : c ≠ byte '\\' := ne_of_high hhigh (by decide)
      have hfirst : Utf8.first c = some u' := h
      rw [escape_of_high hhigh]
      refine scanAll_single (fun hq => ne_of_high hhigh (by decide) hq.2) ?_
      simp only [Scan.step, if_neg hbackslash, if_neg (not_control_of_high hhigh), hfirst,
        Option.map_some]
  · rw [escape_of_high (Utf8.high_of_step_eq_some hu h)]
    refine scanAll_single (fun hq => hu (Scan.text.inj hq.1)) ?_
    cases u with
    | accept => exact absurd rfl hu
    | _ => simp only [Scan.step, h, Option.map_some]

theorem scanAll_append {s t u : Scan} {a b out out' : Bytes} (ha : scanAll s a = some (t, out))
    (hb : scanAll t b = some (u, out')) : scanAll s (a ++ b) = some (u, out ++ out') := by
  induction a generalizing s out with
  | nil =>
    obtain ⟨rfl, rfl⟩ := Prod.mk.inj (Option.some.inj ha)
    exact hb
  | cons c rest ih =>
    rw [scanAll] at ha
    rw [List.cons_append, scanAll]
    split at ha
    · exact absurd ha (by simp)
    · rename_i hc
      rw [if_neg hc]
      cases hs : s.step c with
      | none => simp [hs] at ha
      | some p =>
        simp only [hs] at ha
        obtain ⟨q, hq, hout⟩ := Option.map_eq_some_iff.mp ha
        obtain ⟨rfl, rfl⟩ := Prod.mk.inj hout
        simp only [ih hq, Option.map_some, List.append_assoc]

/-- The text between the quotes is read back byte for byte. -/
theorem scanAll_flatMap_escape {u u' : Utf8} {s : Bytes}
    (h : Runs.exec Utf8.step u s = some u') :
    scanAll (.text u) (s.flatMap escape) = some (.text u', s) := by
  induction s generalizing u with
  | nil =>
    obtain rfl := Option.some.inj h
    rfl
  | cons c rest ih =>
    obtain ⟨v, hv, hrest⟩ := Runs.exec_cons.mp h
    rw [List.flatMap_cons]
    exact scanAll_append (scanAll_escape hv) (ih hrest)

/-- A printed string, from behind its opening quote on. -/
theorem exec_dumpString (x : Externals φ) {s : Bytes} (h : Utf8.Valid s)
    (owner : Option (List (Bytes × Json φ))) (stack : List (Frame φ)) :
    Runs.exec (step x) (.string (.text .accept) [] owner stack) (s.flatMap escape ++ [quote]) =
      some (endString s stack owner) := by
  rw [Runs.exec_append]
  refine ⟨_, exec_string_of_scanAll x (scanAll_flatMap_escape h) [] owner stack, ?_⟩
  simp [Runs.exec, step]

/-! ## Integers -/

theorem readDecimal_digits {l : List Nat} (h : ∀ d ∈ l, d < 10) :
    Numeral.readDecimal (l.reverse.map fun d => UInt8.ofNat (d + 0x30)) = Nat.ofDigits 10 l := by
  rw [Numeral.readDecimal, List.foldl_map, List.foldl_reverse]
  induction l with
  | nil => rfl
  | cons d rest ih =>
    have hd : d < 10 := h d List.mem_cons_self
    have hbyte : (UInt8.ofNat (d + 0x30)).toNat - 0x30 = d := by
      rw [UInt8.toNat_ofNat_of_lt' (by simp [UInt8.size]; omega)]
      omega
    rw [List.foldr_cons, ih fun e he => h e (List.mem_cons_of_mem d he), hbyte,
      Nat.ofDigits_cons]
    omega

theorem readDecimal_decimal (n : Nat) : Numeral.readDecimal (decimal n) = n := by
  unfold decimal
  split
  · rename_i hn
    subst hn
    decide
  · rw [readDecimal_digits fun d hd => Nat.digits_lt_base (by decide) hd, Nat.ofDigits_digits]

theorem digit_ofNat {d : Nat} (h : d < 10) : Numeral.digit (UInt8.ofNat (d + 0x30)) = true := by
  interval_cases d <;> decide

theorem exec_digits (x : Externals φ) {digits : Bytes}
    (h : ∀ c ∈ digits, Numeral.digit c = true) (read : Bytes) (stack : List (Frame φ)) :
    Runs.exec (step x) (.number .any1 read stack) digits =
      some (.number .any1 (read ++ digits) stack) := by
  induction digits generalizing read with
  | nil => simp [Runs.exec]
  | cons c rest ih =>
    have hc : Numeral.step .any1 c = some .any1 := by
      rw [Numeral.step, if_pos (h c List.mem_cons_self)]
    have hstep : step x (.number .any1 read stack) c =
        some (.number .any1 (read ++ [c]) stack) := by
      simp only [step, hc]
    rw [Runs.exec_cons]
    refine ⟨_, hstep, ?_⟩
    rw [ih (fun d hd => h d (List.mem_cons_of_mem c hd)), List.append_assoc, List.singleton_append]

/-! ## What the parser does with a printed value -/

/-- The bytes that may stand behind a value inside a container. -/
def delimiters : Bytes := ascii ",]\x7d"

/-- The parser has read `v`, up to a number that the next byte closes. -/
def Settles (x : Externals φ) (s : State φ) (v : Json φ) (stack : List (Frame φ)) : Prop :=
  finish x s = finish x (deliver v stack) ∧
    ∀ c ∈ delimiters, step x s c = step x (deliver v stack) c

theorem settles_deliver (x : Externals φ) (v : Json φ) (stack : List (Frame φ)) :
    Settles x (deliver v stack) v stack := ⟨rfl, fun _ _ => rfl⟩

theorem step_deliver (x : Externals φ) (v : Json φ) (stack : List (Frame φ)) (c : UInt8) :
    step x (deliver v stack) c = stepBetween (deliver v stack) c := by
  match stack with
  | [] => rfl
  | .element items :: stack => rfl
  | .member members key :: stack => rfl

theorem settles_number {x : Externals φ} {pos : Numeral} {read : Bytes} {v : Json φ}
    (hpos : pos = .zero ∨ pos = .any1) (hv : pos.value x read = some v)
    (stack : List (Frame φ)) : Settles x (.number pos read stack) v stack := by
  have hfinal : pos.final = true := by
    rcases hpos with rfl | rfl <;> rfl
  have hends : ∀ c ∈ delimiters, pos.step c = none := by
    intro c hc
    change c ∈ [byte ',', byte ']', byte '\x7d'] at hc
    rcases hpos with rfl | rfl <;> fin_cases hc <;> rfl
  constructor
  · match stack with
    | [] => simp [finish, deliver, hfinal, hv]
    | .element items :: stack => rfl
    | .member members key :: stack => rfl
  · intro c hc
    rw [step_deliver]
    simp only [step, hends c hc, hfinal, if_true, hv]

/-- From the place where a value starts, the text is read as `v`. -/
def Reads (x : Externals φ) (text : Bytes) (v : Json φ) (stack : List (Frame φ)) : Prop :=
  ∃ c rest s t, text = c :: rest ∧ start stack c = some s ∧
    Runs.exec (step x) s rest = some t ∧ Settles x t v stack

/-- The first byte of a value is no white space, closes no array and starts no
byte order mark. -/
theorem start_eq_some {stack : List (Frame φ)} {c : UInt8} {s : State φ}
    (h : start stack c = some s) : space c = false ∧ c ≠ byte ']' ∧ c ≠ 0xEF := by
  have hno : ∀ d ∈ byte ']' :: 0xEF :: ascii " \t\n\r", start stack d = none := by
    intro d hd
    fin_cases hd <;> rfl
  have hne : ∀ d ∈ byte ']' :: 0xEF :: ascii " \t\n\r", c ≠ d := by
    intro d hd he
    rw [he, hno d hd] at h
    exact absurd h (by simp)
  refine ⟨?_, hne _ (by simp), hne _ (by simp)⟩
  rw [space, decide_eq_false_iff_not]
  intro hc
  exact hne c (List.mem_cons_of_mem _ (List.mem_cons_of_mem _ hc)) rfl

theorem Reads.exec_value {x : Externals φ} {text : Bytes} {v : Json φ} {stack : List (Frame φ)}
    (h : Reads x text v stack) :
    ∃ t, Runs.exec (step x) (.expect .value stack) text = some t ∧ Settles x t v stack := by
  obtain ⟨c, rest, s, t, rfl, hs, ht, hsettles⟩ := h
  refine ⟨t, Runs.exec_cons.mpr ⟨s, ?_, ht⟩, hsettles⟩
  simp only [step, stepBetween, (start_eq_some hs).1, Bool.false_eq_true, if_false, stepExpect, hs]

theorem Reads.exec_itemOrEnd {x : Externals φ} {text : Bytes} {v : Json φ}
    {stack : List (Frame φ)} (h : Reads x text v (.element [] :: stack)) :
    ∃ t, Runs.exec (step x) (.expect .itemOrEnd stack) text = some t ∧
      Settles x t v (.element [] :: stack) := by
  obtain ⟨c, rest, s, t, rfl, hs, ht, hsettles⟩ := h
  obtain ⟨hspace, hclose, -⟩ := start_eq_some hs
  refine ⟨t, Runs.exec_cons.mpr ⟨s, ?_, ht⟩, hsettles⟩
  simp only [step, stepBetween, hspace, Bool.false_eq_true, if_false, stepExpect, if_neg hclose, hs]

/-! ## One kind of value after the other -/

theorem start_digit {d : Nat} (hd : d ≠ 0) (hlt : d < 10) (stack : List (Frame φ)) :
    start stack (UInt8.ofNat (d + 0x30)) = some (.number .any1 [UInt8.ofNat (d + 0x30)] stack) := by
  interval_cases d
  · exact absurd rfl hd
  all_goals rfl

theorem step_minus_digit {d : Nat} (hd : d ≠ 0) (hlt : d < 10) :
    Numeral.step .minus (UInt8.ofNat (d + 0x30)) = some .any1 := by
  interval_cases d
  · exact absurd rfl hd
  all_goals rfl

theorem value_eq_integer (x : Externals φ) {pos : Numeral} {read : Bytes} {n : Int}
    (hpos : pos = .zero ∨ pos = .any1) (hread : Numeral.readInteger read = n)
    (hlow : -2 ^ 63 ≤ n) (hhigh : n < 2 ^ 64) : pos.value x read = some (.integer n) := by
  rw [Numeral.value, hread, if_pos ⟨hpos, hlow, hhigh⟩]

theorem reads_integer (x : Externals φ) {n : Int} (hlow : -2 ^ 63 ≤ n) (hhigh : n < 2 ^ 64)
    (stack : List (Frame φ)) : Reads x (dumpInteger n) (.integer n) stack := by
  by_cases hzero : n = 0
  · subst hzero
    have hv : Numeral.value x .zero [byte '0'] = some (.integer 0) :=
      value_eq_integer x (Or.inl rfl) rfl hlow hhigh
    exact ⟨byte '0', [], _, _, rfl, rfl, rfl, settles_number (Or.inl rfl) hv stack⟩
  · have hne : n.natAbs ≠ 0 := by omega
    obtain ⟨d, rest, hdec, hd, hlt, hrest⟩ := decimal_eq_cons hne
    have hdigits : ∀ c ∈ rest, Numeral.digit c = true := by
      intro c hc
      obtain ⟨e, he, rfl⟩ := hrest c hc
      exact digit_ofNat he
    have hread : Numeral.readDecimal (UInt8.ofNat (d + 0x30) :: rest) = n.natAbs := by
      rw [← hdec, readDecimal_decimal]
    by_cases hneg : n < 0
    · have hv : Numeral.value x .any1 ([byte '-', UInt8.ofNat (d + 0x30)] ++ rest) =
          some (.integer n) := by
        refine value_eq_integer x (Or.inr rfl) ?_ hlow hhigh
        show Numeral.readInteger (byte '-' :: UInt8.ofNat (d + 0x30) :: rest) = n
        rw [Numeral.readInteger, if_pos rfl, hread]
        omega
      have hfirst : step x (.number .minus [byte '-'] stack) (UInt8.ofNat (d + 0x30)) =
          some (.number .any1 [byte '-', UInt8.ofNat (d + 0x30)] stack) := by
        simp only [step, step_minus_digit hd hlt]
        rfl
      refine ⟨byte '-', UInt8.ofNat (d + 0x30) :: rest, .number .minus [byte '-'] stack, _, ?_, rfl,
        Runs.exec_cons.mpr ⟨_, hfirst, exec_digits x hdigits _ stack⟩,
        settles_number (Or.inr rfl) hv stack⟩
      rw [dumpInteger, if_pos hneg, hdec]
      rfl
    · have hminus : UInt8.ofNat (d + 0x30) ≠ byte '-' := by
        interval_cases d <;> decide
      have hv : Numeral.value x .any1 ([UInt8.ofNat (d + 0x30)] ++ rest) = some (.integer n) := by
        refine value_eq_integer x (Or.inr rfl) ?_ hlow hhigh
        show Numeral.readInteger (UInt8.ofNat (d + 0x30) :: rest) = n
        rw [Numeral.readInteger, if_neg hminus, hread]
        omega
      refine ⟨UInt8.ofNat (d + 0x30), rest, _, _, ?_, start_digit hd hlt stack,
        exec_digits x hdigits _ stack, settles_number (Or.inr rfl) hv stack⟩
      rw [dumpInteger, if_neg hneg, hdec]

/-! ## Containers -/

/-- The elements after `v`, up to the closing bracket. -/
theorem exec_items {x : Externals φ} {rest : List (Json φ)}
    (hrest : ∀ w ∈ rest, ∀ text, dump x w = some text → ∀ stack, Reads x text w stack)
    {text : Bytes} (htext : dumpItems x rest = some text) {items : List (Json φ)}
    {stack : List (Frame φ)} {v : Json φ} {s : State φ}
    (hs : Settles x s v (.element items :: stack)) :
    Runs.exec (step x) s (text ++ [byte ']']) =
      some (deliver (.array (items ++ v :: rest)) stack) := by
  induction rest generalizing text items v s with
  | nil =>
    obtain rfl := Option.some.inj htext
    have hclose : step x s (byte ']') = some (deliver (.array (items ++ [v])) stack) :=
      hs.2 (byte ']') (by decide)
    rw [List.nil_append, Runs.exec_cons]
    exact ⟨_, hclose, rfl⟩
  | cons w rest ih =>
    obtain ⟨a, b, ha, hb, rfl⟩ := dumpItems_cons htext
    have hcomma : step x s (byte ',') =
        some (.expect .value (.element (items ++ [v]) :: stack)) := hs.2 (byte ',') (by decide)
    obtain ⟨t, ht, hsettles⟩ :=
      (hrest w List.mem_cons_self a ha (.element (items ++ [v]) :: stack)).exec_value
    have hnext := ih (fun u hu => hrest u (List.mem_cons_of_mem w hu)) hb hsettles
    rw [List.append_assoc, List.singleton_append] at hnext
    rw [List.cons_append, List.append_assoc, Runs.exec_cons]
    exact ⟨_, hcomma, Runs.exec_append.mpr ⟨t, ht, hnext⟩⟩

/-- A member is added behind the members with smaller keys. -/
theorem insertEntry_of_forall_lt {κ α : Type} [LinearOrder κ] {k : κ} {v : α} {l : List (κ × α)}
    (h : ∀ e ∈ l, e.1 < k) : OrderedMap.insertEntry k v l = l ++ [(k, v)] := by
  induction l with
  | nil => rfl
  | cons e rest ih =>
    have he : e.1 < k := h e List.mem_cons_self
    rw [OrderedMap.insertEntry, if_neg (not_lt_of_gt he), if_pos he,
      ih fun d hd => h d (List.mem_cons_of_mem e hd), List.cons_append]

/-- A key and its value, from behind the opening quote of the key on. -/
theorem exec_member {x : Externals φ} {k : Bytes} (hk : Utf8.Valid k) {v : Json φ} {text : Bytes}
    {members : List (Bytes × Json φ)} {stack : List (Frame φ)}
    (hv : Reads x text v (.member members k :: stack)) (others : Bytes) :
    ∃ s, Settles x s v (.member members k :: stack) ∧
      Runs.exec (step x) (.string (.text .accept) [] (some members) stack)
        (k.flatMap escape ++ [quote] ++ byte ':' :: (text ++ others)) =
      Runs.exec (step x) s others := by
  obtain ⟨s, hs, hsettles⟩ := hv.exec_value
  refine ⟨s, hsettles, Option.ext fun t => ?_⟩
  have hcolon : step x (.expect (.colon members k) stack) (byte ':') =
      some (.expect .value (.member members k :: stack)) := rfl
  rw [Runs.exec_append]
  simp only [exec_dumpString x hk, Option.some.injEq, exists_eq_left', endString]
  rw [Runs.exec_cons]
  simp only [hcolon, Option.some.injEq, exists_eq_left', Runs.exec_append, hs]

/-- Behind a value whose key is the largest so far. -/
theorem Settles.step_member {x : Externals φ} {s : State φ} {members : List (Bytes × Json φ)}
    {k : Bytes} {v : Json φ} {stack : List (Frame φ)}
    (hs : Settles x s v (.member members k :: stack)) (hk : ∀ e ∈ members, e.1 < k) {c : UInt8}
    (hc : c ∈ delimiters) :
    step x s c = step x (.expect (.nextMember (members ++ [(k, v)])) stack) c := by
  rw [hs.2 c hc, deliver, insertEntry_of_forall_lt hk]

/-- The members after the key `k` and its value, up to the closing brace. -/
theorem exec_members {x : Externals φ} {rest : List (Bytes × Json φ)}
    (hrest : ∀ e ∈ rest, ∀ text, dump x e.2 = some text → ∀ stack, Reads x text e.2 stack)
    {text : Bytes} (htext : dumpMembers x rest = some text) {members : List (Bytes × Json φ)}
    {k : Bytes} {v : Json φ}
    (hsorted : (members ++ (k, v) :: rest).Pairwise fun a b => a.1 < b.1)
    {stack : List (Frame φ)} {s : State φ} (hs : Settles x s v (.member members k :: stack)) :
    Runs.exec (step x) s (text ++ [byte '\x7d']) =
      some (deliver (.object (members ++ (k, v) :: rest)) stack) := by
  induction rest generalizing text members k v s with
  | nil =>
    obtain rfl := Option.some.inj htext
    have hk : ∀ e ∈ members, e.1 < k := fun e he =>
      (List.pairwise_append.mp hsorted).2.2 e he (k, v) List.mem_cons_self
    have hclose : step x s (byte '\x7d') =
        some (deliver (.object (members ++ [(k, v)])) stack) := hs.step_member hk (by decide)
    rw [List.nil_append, Runs.exec_cons]
    exact ⟨_, hclose, rfl⟩
  | cons e rest ih =>
    obtain ⟨k', w⟩ := e
    obtain ⟨a, b, hk', ha, hb, rfl⟩ := dumpMembers_cons htext
    have hk : ∀ e ∈ members, e.1 < k := fun e he =>
      (List.pairwise_append.mp hsorted).2.2 e he (k, v) List.mem_cons_self
    have hcomma : step x s (byte ',') = some (.expect (.key (members ++ [(k, v)])) stack) :=
      hs.step_member hk (by decide)
    have hquote : step x (.expect (.key (members ++ [(k, v)])) stack) quote =
        some (.string (.text .accept) [] (some (members ++ [(k, v)])) stack) := rfl
    obtain ⟨t, hsettles, ht⟩ := exec_member hk'
      (hrest (k', w) List.mem_cons_self a ha (.member (members ++ [(k, v)]) k' :: stack))
      (b ++ [byte '\x7d'])
    have hsorted' : ((members ++ [(k, v)]) ++ (k', w) :: rest).Pairwise fun a b => a.1 < b.1 := by
      rw [List.append_assoc, List.singleton_append]
      exact hsorted
    have hnext := ih (fun u hu => hrest u (List.mem_cons_of_mem _ hu)) hb hsorted' hsettles
    rw [List.append_assoc, List.singleton_append] at hnext
    have htext' : byte ',' :: quote :: (k'.flatMap escape ++ [quote] ++ byte ':' :: (a ++ b)) ++
        [byte '\x7d'] =
        byte ',' :: quote ::
          (k'.flatMap escape ++ [quote] ++ byte ':' :: (a ++ (b ++ [byte '\x7d']))) := by
      simp
    rw [htext', Runs.exec_cons]
    refine ⟨_, hcomma, Runs.exec_cons.mpr ⟨_, hquote, ?_⟩⟩
    rw [ht, hnext]

/-! ## The round trip -/

theorem Readable.reads {x : Externals φ} {v : Json φ} (h : Readable v) {text : Bytes}
    (htext : dump x v = some text) (stack : List (Frame φ)) : Reads x text v stack := by
  induction h generalizing text stack with
  | null =>
    obtain rfl := Option.some.inj htext
    exact ⟨byte 'n', ascii "ull", _, _, rfl, rfl, rfl, settles_deliver x _ stack⟩
  | boolean b =>
    obtain rfl := Option.some.inj htext
    cases b with
    | true => exact ⟨byte 't', ascii "rue", _, _, rfl, rfl, rfl, settles_deliver x _ stack⟩
    | false => exact ⟨byte 'f', ascii "alse", _, _, rfl, rfl, rfl, settles_deliver x _ stack⟩
  | integer hlow hhigh =>
    obtain rfl := Option.some.inj htext
    exact reads_integer x hlow hhigh stack
  | string s =>
    obtain ⟨hs, rfl⟩ := dumpString_eq_some htext
    exact ⟨quote, s.flatMap escape ++ [quote], _, _, rfl, rfl, exec_dumpString x hs none stack,
      settles_deliver x _ stack⟩
  | @array items hitems ih =>
    match items with
    | [] =>
      obtain rfl := Option.some.inj htext
      exact ⟨byte '[', [byte ']'], _, _, rfl, rfl, rfl, settles_deliver x _ stack⟩
    | v :: rest =>
      obtain ⟨a, b, ha, hb, rfl⟩ := dump_array_cons htext
      obtain ⟨t, ht, hsettles⟩ := (ih v List.mem_cons_self ha (.element [] :: stack)).exec_itemOrEnd
      have hrest := exec_items (fun w hw text => ih w (List.mem_cons_of_mem v hw)) hb hsettles
      exact ⟨byte '[', _, _, _, rfl, rfl, Runs.exec_append.mpr ⟨t, ht, hrest⟩,
        settles_deliver x _ stack⟩
  | @object members hsorted hmembers ih =>
    match members with
    | [] =>
      obtain rfl := Option.some.inj htext
      exact ⟨byte '\x7b', [byte '\x7d'], _, _, rfl, rfl, rfl, settles_deliver x _ stack⟩
    | (k, v) :: rest =>
      obtain ⟨a, b, hk, ha, hb, rfl⟩ := dump_object_cons htext
      obtain ⟨t, hsettles, ht⟩ := exec_member hk
        (ih (k, v) List.mem_cons_self ha (.member [] k :: stack)) (b ++ [byte '\x7d'])
      have hrest := exec_members (fun e he text => ih e (List.mem_cons_of_mem _ he)) hb hsorted
        hsettles
      have hquote : step x (.expect .keyOrEnd stack) quote =
          some (.string (.text .accept) [] (some []) stack) := rfl
      exact ⟨byte '\x7b', _, _, _, rfl, rfl,
        Runs.exec_cons.mpr ⟨_, hquote, ht.trans hrest⟩, settles_deliver x _ stack⟩

theorem skipBom_of_start {stack : List (Frame φ)} {c : UInt8} {s : State φ}
    (h : start stack c = some s) (rest : Bytes) : skipBom (c :: rest) = c :: rest := by
  have hbom : ¬byteOrderMark <+: c :: rest := by
    intro hpre
    exact (start_eq_some h).2.2 (List.cons_prefix_cons.mp hpre).1.symm
  rw [skipBom, if_neg hbom]

/-- `parse` undoes `dump`. -/
theorem parse_dump {x : Externals φ} {v : Json φ} (h : Readable v) {text : Bytes}
    (htext : dump x v = some text) : parse x text = .ok v := by
  have hreads := h.reads htext []
  obtain ⟨t, ht, hfinish, -⟩ := hreads.exec_value
  obtain ⟨c, rest, s, -, rfl, hs, -⟩ := hreads
  have hend : finish x t = some v := hfinish
  rw [parse, skipBom_of_start hs, ht, Option.bind_some, hend]

/-! ## A text that is cut -/

theorem step_complete (x : Externals φ) (v : Json φ) (c : UInt8) :
    step x (.complete v) c =
      if space c then some (.complete v) else if c = 0 then some (.ended v) else none := rfl

theorem exec_ended (x : Externals φ) (v : Json φ) (text : Bytes) :
    Runs.exec (step x) (.ended v) text = some (.ended v) := by
  induction text with
  | nil => rfl
  | cons c rest ih => exact Runs.exec_cons.mpr ⟨_, rfl, ih⟩

/-- After a complete value only white space follows, unless a null byte ends the
text. -/
theorem space_of_exec_complete {x : Externals φ} {v w : Json φ} {text : Bytes}
    (h : Runs.exec (step x) (.complete v) text = some (.complete w)) :
    ∀ c ∈ text, space c = true := by
  induction text with
  | nil => exact fun c hc => absurd hc List.not_mem_nil
  | cons d rest ih =>
    obtain ⟨s, hs, hrest⟩ := Runs.exec_cons.mp h
    rw [step_complete] at hs
    split at hs
    · rename_i hspace
      obtain rfl := Option.some.inj hs
      intro c hc
      rcases List.mem_cons.mp hc with rfl | hc
      · exact hspace
      · exact ih hrest c hc
    · split at hs
      · obtain rfl := Option.some.inj hs
        rw [exec_ended] at hrest
        exact absurd hrest (by simp)
      · exact absurd hs (by simp)

/-- A number outside every container: what is read from there on is a number. -/
def TopNumber : State φ → Prop
  | .number _ _ stack => stack = []
  | .complete v | .ended v => ∀ members, v ≠ .object members
  | _ => False

theorem value_ne_object {x : Externals φ} {pos : Numeral} {read : Bytes} {v : Json φ}
    (h : pos.value x read = some v) (members : List (Bytes × Json φ)) : v ≠ .object members := by
  unfold Numeral.value at h
  split at h
  · rw [← Option.some.inj h]
    simp
  · obtain ⟨d, -, rfl⟩ := Option.map_eq_some_iff.mp h
    simp

theorem topNumber_step {x : Externals φ} {s s' : State φ} {c : UInt8} (hs : TopNumber s)
    (h : step x s c = some s') : TopNumber s' := by
  have hcomplete : ∀ v : Json φ, (∀ members, v ≠ .object members) →
      step x (.complete v) c = some s' → TopNumber s' := by
    intro v hv h
    rw [step_complete] at h
    split at h
    · rw [← Option.some.inj h]
      exact hv
    · split at h
      · rw [← Option.some.inj h]
        exact hv
      · exact absurd h (by simp)
  match s with
  | .number pos read stack =>
    obtain rfl : stack = [] := hs
    simp only [step] at h
    split at h
    · rw [← Option.some.inj h]
      exact rfl
    · split at h
      · split at h
        · exact absurd h (by simp)
        · rename_i v hv
          exact hcomplete v (value_ne_object hv) h
      · exact absurd h (by simp)
  | .complete v => exact hcomplete v hs h
  | .ended v =>
    obtain rfl : State.ended v = s' := Option.some.inj h
    exact hs

theorem Settles.eq_complete {x : Externals φ} {s : State φ} {members : List (Bytes × Json φ)}
    (h : Settles x s (.object members) []) : s = .complete (.object members) := by
  have hfinish : finish x s = some (.object members) := h.1
  have hcomma : step x s (byte ',') = none := h.2 (byte ',') (by decide)
  match s with
  | .complete v => rw [Option.some.inj hfinish]
  | .ended v => exact absurd hcomma (by simp [step, stepBetween])
  | .number pos read [] =>
    simp only [finish] at hfinish
    split at hfinish
    · exact absurd rfl (value_ne_object hfinish members)
    · exact absurd hfinish (by simp)
  | .number pos read (_ :: _) => exact absurd hfinish (by simp [finish])
  | .expect next stack => exact absurd hfinish (by simp [finish])
  | .string scan read owner stack => exact absurd hfinish (by simp [finish])
  | .literal left v stack => exact absurd hfinish (by simp [finish])

theorem getLast?_dump_object {x : Externals φ} {members : List (Bytes × Json φ)} {text : Bytes}
    (h : dump x (.object members) = some text) : text.getLast? = some (byte '\x7d') := by
  match members with
  | [] =>
    obtain rfl := Option.some.inj h
    rfl
  | (k, v) :: rest =>
    obtain ⟨a, b, -, -, -, rfl⟩ := dump_object_cons h
    simp [List.getLast?_cons]

/-- A part of an object's text leaves the parser before the end of the value: a
value that was complete there, or an open number, would have to turn into the
object by reading what is missing. -/
theorem finish_eq_none_of_exec {x : Externals φ} {s : State φ} {members : List (Bytes × Json φ)}
    {missing : Bytes} (hlast : missing.getLast? = some (byte '\x7d'))
    (h : Runs.exec (step x) s missing = some (.complete (.object members))) :
    finish x s = none := by
  match s with
  | .complete v =>
    have hspace := space_of_exec_complete h (byte '\x7d') (List.mem_of_getLast? hlast)
    exact absurd hspace (by decide)
  | .ended v =>
    rw [exec_ended] at h
    exact absurd h (by simp)
  | .number pos read [] =>
    have htop : TopNumber (.complete (.object members) : State φ) :=
      Runs.exec_invariant (fun s c s' _ hs hstep => topNumber_step hs hstep)
        (show TopNumber (.number pos read [] : State φ) from rfl) (fun _ _ => trivial) h
    exact absurd rfl (htop members)
  | .number pos read (_ :: _) => rfl
  | .expect next stack => rfl
  | .string scan read owner stack => rfl
  | .literal left v stack => rfl

/-- No proper part of the text of an object, from its beginning, is a JSON text. -/
theorem parse_cut {x : Externals φ} {members : List (Bytes × Json φ)}
    (h : Readable (.object members)) {text : Bytes} (htext : dump x (.object members) = some text)
    {cut : Bytes} (hcut : cut <+: text) (hne : cut ≠ text) :
    parse x cut = .error (x.parseErrorWhat cut) := by
  obtain ⟨missing, rfl⟩ := hcut
  have hmissing : missing ≠ [] := by
    rintro rfl
    exact hne (List.append_nil cut).symm
  have hlast : missing.getLast? = some (byte '\x7d') := by
    rw [← getLast?_dump_object htext, List.getLast?_append_of_ne_nil _ hmissing]
  have hreads := h.reads htext []
  obtain ⟨t, ht, hsettles⟩ := hreads.exec_value
  obtain ⟨u, hu, hrest⟩ := Runs.exec_append.mp ht
  rw [hsettles.eq_complete] at hrest
  have hbom : skipBom cut = cut := by
    match cut with
    | [] => rfl
    | d :: cut' =>
      obtain ⟨c, rest, s, -, heq, hs, -⟩ := hreads
      obtain rfl : d = c := (List.cons.inj heq).1
      exact skipBom_of_start hs cut'
  rw [parse, hbom, hu, Option.bind_some, finish_eq_none_of_exec hlast hrest]

end Json
end DistributedDb
