import DistributedDb.Storage.Engine

/-
Closing and reopening an engine.

The log writes keys and values raw, so a record reads back as itself exactly
when neither holds a separator.  A recovered binding never holds one, whatever
the file, and that makes the condition necessary as well.
-/

namespace DistributedDb

open Getline

namespace Wal

/-- A string that `append_wal` can write and `recover` reads back: no field
separator and no newline in it. -/
def Clean (s : Bytes) : Prop := bar ∉ s ∧ newline ∉ s

instance (s : Bytes) : Decidable (Clean s) := inferInstanceAs (Decidable (_ ∧ _))

theorem clean_nil : Clean [] := ⟨List.not_mem_nil, List.not_mem_nil⟩

theorem clean_text (op : WalOp) : Clean op.text := by
  cases op <;> decide

/-- Decimal digits and the minus sign are neither separator. -/
theorem clean_decimal (n : Int) : Clean (ascii (toString n)) := by
  have hdigits : ∀ m : Nat, ∀ c ∈ m.repr.toList, '-' = c ∨ c.isDigit = true := by
    intro m c hc
    rw [Nat.toList_repr] at hc
    exact Or.inr (Nat.isDigit_of_mem_toDigits (by decide) (by decide) hc)
  have hchars : ∀ c ∈ (toString n).toList, '-' = c ∨ c.isDigit = true := by
    intro c hc
    rw [Int.toString_eq_repr, Int.repr_eq_if] at hc
    split at hc
    · exact hdigits _ c hc
    · rw [String.toList_append] at hc
      rcases List.mem_append.mp hc with hc | hc
      · exact Or.inl (List.mem_singleton.mp hc).symm
      · exact hdigits _ c hc
  have hbyte : ∀ c : Char, '-' = c ∨ c.isDigit = true →
      UInt8.ofNat c.toNat ≠ bar ∧ UInt8.ofNat c.toNat ≠ newline := by
    intro c hc
    have hrange : 45 ≤ c.toNat ∧ c.toNat ≤ 57 := by
      rcases hc with rfl | hc
      · decide
      · simp only [Char.isDigit, Bool.and_eq_true, decide_eq_true_eq] at hc
        have h1 : 48 ≤ c.toNat := hc.1
        have h2 : c.toNat ≤ 57 := hc.2
        omega
    have hval : (UInt8.ofNat c.toNat).toNat = c.toNat := by
      rw [UInt8.toNat_ofNat']
      omega
    constructor
    · intro h
      have h' : (UInt8.ofNat c.toNat).toNat = 124 := congrArg UInt8.toNat h
      omega
    · intro h
      have h' : (UInt8.ofNat c.toNat).toNat = 10 := congrArg UInt8.toNat h
      omega
  constructor
  · intro h
    obtain ⟨c, hc, hcb⟩ := List.mem_map.mp h
    exact (hbyte c (hchars c hc)).1 hcb
  · intro h
    obtain ⟨c, hc, hcb⟩ := List.mem_map.mp h
    exact (hbyte c (hchars c hc)).2 hcb

end Wal

/-- A record whose fields are free of the separators. -/
def WalRecord.Clean (r : WalRecord) : Prop := Wal.Clean r.key ∧ Wal.Clean r.value

namespace Wal

theorem newline_not_mem_line {r : WalRecord} (hr : r.Clean) (now : Int) :
    newline ∉ line r now := by
  have hop := (clean_text r.op).2
  have hkey := hr.1.2
  have hvalue := hr.2.2
  have hnow := (clean_decimal now).2
  have hbar : newline ≠ bar := by decide
  simp only [line, List.mem_append, List.mem_singleton, not_or]
  exact ⟨⟨⟨⟨⟨⟨hop, hbar⟩, hkey⟩, hbar⟩, hvalue⟩, hbar⟩, hnow⟩

/-- The fields of a line, whatever follows the value. -/
theorem parseLine_fields (op : WalOp) {key text value rest : Bytes} (hk : bar ∉ key)
    (hv : getline bar text = some (value, rest)) :
    parseLine (op.text ++ bar :: (key ++ bar :: text)) =
      some { op := op, key := key, value := value } := by
  rw [parseLine, if_neg (by simp), getline_append bar (clean_text op).1]
  simp only [getline_append bar hk, hv]
  cases op with
  | put => simp
  | del => simp [WalOp.text, show ascii "DEL" ≠ ascii "PUT" by decide]

theorem line_eq (r : WalRecord) (now : Int) :
    line r now =
      r.op.text ++ bar :: (r.key ++ bar :: (r.value ++ bar :: ascii (toString now))) := by
  simp [line, List.append_assoc]

/-- A clean record reads back from its line as it was written. -/
theorem parseLine_line {r : WalRecord} (hr : r.Clean) (now : Int) :
    parseLine (line r now) = some r := by
  rw [line_eq]
  exact parseLine_fields r.op hr.1.1 (getline_append bar hr.2.1 _)

/-- The bytes a sequence of stamped records leaves in the log. -/
def formatAll (rs : List (WalRecord × Int)) : Bytes := rs.flatMap fun p => format p.1 p.2

theorem formatAll_cons (p : WalRecord × Int) (rs : List (WalRecord × Int)) :
    formatAll (p :: rs) = line p.1 p.2 ++ newline :: formatAll rs := by
  simp [formatAll, format, List.append_assoc]

theorem formatAll_append (a b : List (WalRecord × Int)) :
    formatAll (a ++ b) = formatAll a ++ formatAll b :=
  List.flatMap_append

/-- Clean records at the head of a log read back in order, whatever follows. -/
theorem records_formatAll_append {rs : List (WalRecord × Int)} (hrs : ∀ p ∈ rs, p.1.Clean)
    (tail : Bytes) :
    (getlines newline (formatAll rs ++ tail)).filterMap parseLine =
      rs.map Prod.fst ++ (getlines newline tail).filterMap parseLine := by
  induction rs with
  | nil => rfl
  | cons p rest ih =>
    have hp := hrs p List.mem_cons_self
    rw [formatAll_cons, List.append_assoc, List.cons_append,
      getlines_append newline (newline_not_mem_line hp p.2),
      List.filterMap_cons_some (parseLine_line hp p.2),
      ih (fun q hq => hrs q (List.mem_cons_of_mem p hq)), List.map_cons, List.cons_append]

/-- The records of a log are the clean records written to it, in order. -/
theorem records_formatAll {rs : List (WalRecord × Int)} (hrs : ∀ p ∈ rs, p.1.Clean) :
    (getlines newline (formatAll rs)).filterMap parseLine = rs.map Prod.fst := by
  have h := records_formatAll_append hrs []
  rwa [List.append_nil, getlines_nil, List.filterMap_nil, List.append_nil] at h

/-- A line that is replayed has the three fields of its record. -/
theorem getline_of_parseLine {text : Bytes} {r : WalRecord} (h : parseLine text = some r) :
    ∃ t1 t2 t3, getline bar text = some (r.op.text, t1) ∧ getline bar t1 = some (r.key, t2) ∧
      getline bar t2 = some (r.value, t3) := by
  unfold parseLine at h
  split at h
  · exact absurd h (by simp)
  cases h1 : getline bar text with
  | none => simp [h1] at h
  | some p1 =>
    obtain ⟨op, t1⟩ := p1
    cases h2 : getline bar t1 with
    | none => simp [h1, h2] at h
    | some p2 =>
      obtain ⟨key, t2⟩ := p2
      cases h3 : getline bar t2 with
      | none => simp [h1, h2, h3] at h
      | some p3 =>
        obtain ⟨value, t3⟩ := p3
        simp only [h1, h2, h3] at h
        split at h
        · rename_i hop
          obtain rfl := Option.some.inj h
          exact ⟨t1, t2, t3, by rw [hop], h2, h3⟩
        · split at h
          · rename_i hop
            obtain rfl := Option.some.inj h
            exact ⟨t1, t2, t3, by rw [hop], h2, h3⟩
          · exact absurd h (by simp)

/-- Fields read back from a line hold no separator. -/
theorem clean_of_parseLine {text : Bytes} (htext : newline ∉ text) {r : WalRecord}
    (h : parseLine text = some r) : r.Clean := by
  obtain ⟨t1, t2, t3, h1, h2, h3⟩ := getline_of_parseLine h
  have ht1 : newline ∉ t1 := fun hc => htext (mem_of_mem_getline_rest bar h1 hc)
  have ht2 : newline ∉ t2 := fun hc => ht1 (mem_of_mem_getline_rest bar h2 hc)
  have hkey : Clean r.key :=
    ⟨getline_field_not_mem bar h2, fun hc => ht1 (mem_of_mem_getline_field bar h2 hc)⟩
  have hvalue : Clean r.value :=
    ⟨getline_field_not_mem bar h3, fun hc => ht2 (mem_of_mem_getline_field bar h3 hc)⟩
  exact ⟨hkey, hvalue⟩

/-- Whatever the file, a binding recovered into an empty map is clean. -/
theorem clean_of_recover {file key value : Bytes}
    (h : (recover ∅ file).lookup key = some value) : Clean key ∧ Clean value := by
  have hview : Store.view (recover ∅ file) key = some value := h
  rw [view_recover, Write.applyAll_eq_last] at hview
  cases hlast : Write.last key
      (((getlines newline file).filterMap parseLine).map WalRecord.write) with
  | none => simp [hlast] at hview
  | some v =>
    rw [hlast, Option.getD_some] at hview
    subst hview
    obtain ⟨w, hw, hwv⟩ := Option.map_eq_some_iff.mp hlast
    have hmem := List.mem_of_getLast? hw
    obtain ⟨hmem, hkey⟩ := List.mem_filter.mp hmem
    obtain ⟨r, hr, rfl⟩ := List.mem_map.mp hmem
    obtain ⟨text, htext, hparse⟩ := List.mem_filterMap.mp hr
    have hclean := clean_of_parseLine (not_mem_of_mem_getlines newline htext) hparse
    have hk : r.key = key := by simpa using hkey
    have hv : r.value = value := by
      unfold WalRecord.write at hwv
      split at hwv
      · exact Option.some.inj hwv
      · exact absurd hwv (by simp)
    exact hk ▸ hv ▸ hclean

end Wal

/-! ## Sessions

A session is a sequence of calls that do not overlap, on an engine whose log is
open. -/

inductive Call where
  | put (key value : Bytes) (now : Int)
  | del (key : Bytes) (now : Int)
  | putBatch (pairs : List (Bytes × Bytes)) (now : Nat → Int)

namespace Call

def run (e : StorageEngine) : Call → StorageEngine
  | .put key value now => e.put key value now
  | .del key now => (e.del key now).2
  | .putBatch pairs now => e.putBatch pairs now

def runAll (e : StorageEngine) (calls : List Call) : StorageEngine := calls.foldl run e

/-- The key-value pairs a call puts. -/
def pairs : Call → List (Bytes × Bytes)
  | .put key value _ => [(key, value)]
  | .del _ _ => []
  | .putBatch pairs _ => pairs

/-- The puts that a batch logs, in order. -/
def batchRecords : List (Bytes × Bytes) → (Nat → Int) → List (WalRecord × Int)
  | [], _ => []
  | p :: rest, now =>
    ({ op := .put, key := p.1, value := p.2 }, now 0) :: batchRecords rest fun i => now (i + 1)

/-- The records that a call appends to an open log.  A `del` of a key that is
not bound appends none. -/
def records (e : StorageEngine) : Call → List (WalRecord × Int)
  | .put key value now => [({ op := .put, key := key, value := value }, now)]
  | .del key now =>
    match e.store.lookup key with
    | none => []
    | some _ => [({ op := .del, key := key, value := [] }, now)]
  | .putBatch pairs now => batchRecords pairs now

theorem map_fst_batchRecords (pairs : List (Bytes × Bytes)) (now : Nat → Int) :
    (batchRecords pairs now).map Prod.fst =
      pairs.map fun p => { op := .put, key := p.1, value := p.2 } := by
  induction pairs generalizing now with
  | nil => rfl
  | cons p rest ih => exact congrArg (List.cons _) (ih fun i => now (i + 1))

def recordsAll : StorageEngine → List Call → List (WalRecord × Int)
  | _, [] => []
  | e, c :: rest => c.records e ++ recordsAll (c.run e) rest

end Call

/-- Reopening the log of a session gives back every binding the session left. -/
def RoundTrips (calls : List Call) : Prop :=
  let before := Call.runAll (StorageEngine.start [] true) calls
  let after := StorageEngine.start before.log true
  ∀ key, after.get key = before.get key

namespace StorageEngine

/-- The log holds the records `rs`, all of them clean, and the map is what they
leave. -/
structure Logged (e : StorageEngine) (rs : List (WalRecord × Int)) : Prop where
  opened : e.isOpen = true
  log : e.log = Wal.formatAll rs
  clean : ∀ p ∈ rs, p.1.Clean
  view : Store.view e.store = Write.applyAll (fun _ => none) (rs.map fun p => p.1.write)

/-- The appends of a call, on an engine whose log is open. -/
theorem log_appendBatch {e : StorageEngine} (he : e.isOpen = true)
    (pairs : List (Bytes × Bytes)) (now : Nat → Int) :
    (e.appendBatch pairs now).isOpen = true ∧
      (e.appendBatch pairs now).log = e.log ++ Wal.formatAll (Call.batchRecords pairs now) := by
  induction pairs generalizing e now with
  | nil => exact ⟨he, (List.append_nil _).symm⟩
  | cons p rest ih =>
    let r : WalRecord := { op := .put, key := p.1, value := p.2 }
    have hopen : (e.appendWal r (now 0)).isOpen = true := by simp [appendWal, he]
    have hlog : (e.appendWal r (now 0)).log = e.log ++ Wal.format r (now 0) := by
      simp [appendWal, he]
    obtain ⟨h1, h2⟩ := ih hopen fun i => now (i + 1)
    refine ⟨h1, h2.trans ?_⟩
    rw [hlog, List.append_assoc]
    rfl

theorem log_run {e : StorageEngine} (he : e.isOpen = true) (c : Call) :
    (c.run e).isOpen = true ∧ (c.run e).log = e.log ++ Wal.formatAll (c.records e) := by
  cases c with
  | put key value now => simp [Call.run, Call.records, put, appendWal, he, Wal.formatAll]
  | del key now =>
    cases hb : e.store.lookup key with
    | none => simp [Call.run, Call.records, del, hb, he, Wal.formatAll]
    | some value => simp [Call.run, Call.records, del, hb, appendWal, he, Wal.formatAll]
  | putBatch pairs now =>
    exact log_appendBatch (e := { e with store := e.store.insertAll pairs }) he pairs now

theorem log_runAll {e : StorageEngine} (he : e.isOpen = true) (calls : List Call) :
    (Call.runAll e calls).isOpen = true ∧
      (Call.runAll e calls).log = e.log ++ Wal.formatAll (Call.recordsAll e calls) := by
  induction calls generalizing e with
  | nil => exact ⟨he, (List.append_nil _).symm⟩
  | cons c rest ih =>
    obtain ⟨hopen, hlog⟩ := log_run he c
    obtain ⟨hopen', hlog'⟩ := ih hopen
    refine ⟨hopen', hlog'.trans ?_⟩
    rw [hlog, List.append_assoc, Call.recordsAll, Wal.formatAll_append]

theorem view_insertAll (s : Store) (pairs : List (Bytes × Bytes)) (now : Nat → Int) :
    Store.view (s.insertAll pairs) =
      Write.applyAll (Store.view s) ((Call.batchRecords pairs now).map fun p => p.1.write) := by
  induction pairs generalizing s now with
  | nil => rfl
  | cons p rest ih =>
    show Store.view (Store.insertAll (s.insert p.1 p.2) rest) = _
    rw [ih (s.insert p.1 p.2) fun i => now (i + 1), Store.view_insert]
    rfl

/-- The map after a call is the map before it under the records of the call. -/
theorem view_run (e : StorageEngine) (c : Call) :
    Store.view (c.run e).store =
      Write.applyAll (Store.view e.store) ((c.records e).map fun p => p.1.write) := by
  cases c with
  | put key value now =>
    rw [Call.run, put, appendWal_store]
    exact Store.view_insert e.store key value
  | del key now =>
    cases hb : e.store.lookup key with
    | none => simp [Call.run, Call.records, del, hb]
    | some value =>
      simp only [Call.run, Call.records, del, hb, appendWal_store]
      exact Store.view_erase e.store key
  | putBatch pairs now =>
    rw [Call.run, putBatch, appendBatch_store]
    exact view_insertAll e.store pairs now

theorem view_runAll (e : StorageEngine) (calls : List Call) :
    Store.view (Call.runAll e calls).store =
      Write.applyAll (Store.view e.store)
        ((Call.recordsAll e calls).map fun p => p.1.write) := by
  induction calls generalizing e with
  | nil => rfl
  | cons c rest ih =>
    show Store.view (Call.runAll (c.run e) rest).store = _
    rw [ih, view_run, Call.recordsAll, List.map_append, Write.applyAll_append]

/-- No bound key holds a separator. -/
def CleanKeys (e : StorageEngine) : Prop :=
  ∀ key value, e.store.lookup key = some value → Wal.Clean key

theorem clean_batchRecords {pairs : List (Bytes × Bytes)}
    (hp : ∀ p ∈ pairs, Wal.Clean p.1 ∧ Wal.Clean p.2) (now : Nat → Int) :
    ∀ q ∈ Call.batchRecords pairs now, q.1.Clean := by
  induction pairs generalizing now with
  | nil => exact fun q hq => absurd hq List.not_mem_nil
  | cons p rest ih =>
    intro q hq
    rcases List.mem_cons.mp hq with rfl | hq
    · exact hp p List.mem_cons_self
    · exact ih (fun p' hp' => hp p' (List.mem_cons_of_mem p hp')) _ q hq

theorem clean_records_of_del {e : StorageEngine} {c : Call}
    (hdel : ∀ key now value, c = .del key now → e.store.lookup key = some value → Wal.Clean key)
    (hc : ∀ p ∈ c.pairs, Wal.Clean p.1 ∧ Wal.Clean p.2) : ∀ q ∈ c.records e, q.1.Clean := by
  cases c with
  | put key value now =>
    intro q hq
    rw [List.mem_singleton.mp hq]
    exact hc (key, value) (List.mem_singleton.mpr rfl)
  | del key now =>
    intro q hq
    cases hb : e.store.lookup key with
    | none => simp [Call.records, hb] at hq
    | some value =>
      simp only [Call.records, hb, List.mem_singleton] at hq
      rw [hq]
      exact ⟨hdel key now value rfl hb, Wal.clean_nil⟩
  | putBatch pairs now => exact clean_batchRecords hc now

theorem clean_records {e : StorageEngine} (he : e.CleanKeys) {c : Call}
    (hc : ∀ p ∈ c.pairs, Wal.Clean p.1 ∧ Wal.Clean p.2) : ∀ q ∈ c.records e, q.1.Clean :=
  clean_records_of_del (fun key _ value _ hb => he key value hb) hc

/-- A key bound after clean records was bound before them or is the key of one
of them. -/
theorem cleanKeys_run {e : StorageEngine} (he : e.CleanKeys) {c : Call}
    (hc : ∀ p ∈ c.pairs, Wal.Clean p.1 ∧ Wal.Clean p.2) : (c.run e).CleanKeys := by
  intro key value hb
  have hview : Store.view (c.run e).store key = some value := hb
  rw [view_run, Write.applyAll_eq_last] at hview
  by_cases hnone : Write.last key ((c.records e).map fun p => p.1.write) = none
  · rw [hnone] at hview
    exact he key value hview
  · rw [Write.last_eq_none_iff] at hnone
    push Not at hnone
    obtain ⟨w, hw, hwk⟩ := hnone
    obtain ⟨q, hq, rfl⟩ := List.mem_map.mp hw
    rw [WalRecord.write_key] at hwk
    exact hwk ▸ (clean_records he hc q hq).1

theorem clean_recordsAll {e : StorageEngine} (he : e.CleanKeys) {calls : List Call}
    (hc : ∀ c ∈ calls, ∀ p ∈ c.pairs, Wal.Clean p.1 ∧ Wal.Clean p.2) :
    ∀ q ∈ Call.recordsAll e calls, q.1.Clean := by
  induction calls generalizing e with
  | nil => exact fun q hq => absurd hq List.not_mem_nil
  | cons c rest ih =>
    intro q hq
    have hhead := hc c List.mem_cons_self
    rcases List.mem_append.mp hq with hq | hq
    · exact clean_records he hhead q hq
    · exact ih (cleanKeys_run he hhead) (fun d hd => hc d (List.mem_cons_of_mem c hd)) q hq

theorem logged_runAll {calls : List Call}
    (hc : ∀ c ∈ calls, ∀ p ∈ c.pairs, Wal.Clean p.1 ∧ Wal.Clean p.2) :
    Logged (Call.runAll (start [] true) calls) (Call.recordsAll (start [] true) calls) where
  opened := (log_runAll rfl calls).1
  log := (log_runAll rfl calls).2
  clean := clean_recordsAll (fun key value hb => absurd hb (by simp [start, Wal.recover])) hc
  view := view_runAll (start [] true) calls

/-- Replaying the log of an engine in that state gives back its map. -/
theorem recover_of_logged {e : StorageEngine} {rs : List (WalRecord × Int)} (h : Logged e rs) :
    Store.view (Wal.recover ∅ e.log) = Store.view e.store := by
  rw [Wal.view_recover, h.log, Wal.records_formatAll h.clean, h.view, List.map_map]
  rfl

end StorageEngine

/-- Whether sessions round-trip depends on the strings they put and on nothing
else: all sessions over a set of pairs round-trip if and only if no key and no
value of the set holds a separator. -/
theorem roundTrips_iff_clean (s : Set (Bytes × Bytes)) :
    (∀ calls : List Call, (∀ c ∈ calls, ∀ p ∈ c.pairs, p ∈ s) → RoundTrips calls) ↔
      ∀ p ∈ s, Wal.Clean p.1 ∧ Wal.Clean p.2 := by
  constructor
  · intro h p hp
    have hrt : RoundTrips [.put p.1 p.2 0] := by
      refine h _ fun c hc q hq => ?_
      rw [List.mem_singleton.mp hc] at hq
      rw [List.mem_singleton.mp hq]
      exact hp
    have hkey := hrt p.1
    have hbefore : (Call.runAll (StorageEngine.start [] true) [.put p.1 p.2 0]).get p.1 =
        some p.2 := AList.lookup_insert _
    rw [hbefore] at hkey
    exact Wal.clean_of_recover hkey
  · intro h calls hcalls key
    have hlogged := StorageEngine.logged_runAll fun c hc p hp => h p (hcalls c hc p hp)
    exact congrFun (StorageEngine.recover_of_logged hlogged) key

/-- A value with a separator comes back cut off at it. -/
theorem value_with_bar_is_cut :
    ¬ RoundTrips [.put (ascii "user1") (ascii "a|b") 1700000000000] := by
  intro h
  exact absurd (h (ascii "user1")) (by decide)

end DistributedDb
