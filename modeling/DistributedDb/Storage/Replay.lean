import DistributedDb.Storage.Engine

/-
What replaying a log leaves, for a file with any contents.

A file is a sequence of lines, some of which read as records and the rest of
which are skipped.  Replay applies the records in order, so the last record of
a key decides it and a key that no record names keeps what it had.  That is all
replay does: repeating it changes nothing, and the records that a later one
overwrites could have been left out of the file.
-/

namespace DistributedDb
namespace Wal

open Getline

/-- Some line of the file reads as a record for `key`. -/
def Mentions (file key : Bytes) : Prop :=
  ∃ text ∈ getlines newline file, ∃ r, parseLine text = some r ∧ r.key = key

/-- `r` is read from the last line that reads as a record for `key`. -/
def IsLastRecord (file key : Bytes) (r : WalRecord) : Prop :=
  ∃ before text after, getlines newline file = before ++ text :: after ∧
    parseLine text = some r ∧ r.key = key ∧
    ∀ t ∈ after, ∀ q, parseLine t = some q → q.key ≠ key

/-- The writes of the lines that are not skipped. -/
def writes (lines : List Bytes) : List (Write Bytes Bytes) :=
  (lines.filterMap parseLine).map WalRecord.write

theorem view_recover_writes (s : Store) (file : Bytes) :
    Store.view (recover s file) = Write.applyAll (Store.view s) (writes (getlines newline file)) :=
  view_recover s file

theorem exists_record_of_mem_writes {lines : List Bytes} {w : Write Bytes Bytes}
    (hw : w ∈ writes lines) : ∃ text ∈ lines, ∃ r, parseLine text = some r ∧ w = r.write := by
  obtain ⟨r, hr, rfl⟩ := List.mem_map.mp hw
  obtain ⟨text, htext, hparse⟩ := List.mem_filterMap.mp hr
  exact ⟨text, htext, r, hparse, rfl⟩

theorem writes_append_cons (before : List Bytes) {text : Bytes} (after : List Bytes)
    {r : WalRecord} (hparse : parseLine text = some r) :
    writes (before ++ text :: after) = writes before ++ r.write :: writes after := by
  rw [writes, List.filterMap_append, List.filterMap_cons_some hparse, List.map_append,
    List.map_cons]
  rfl

/-- The last record of a key is the last write to it. -/
theorem last_writes_of_isLastRecord {file key : Bytes} {r : WalRecord}
    (h : IsLastRecord file key r) :
    Write.last key (writes (getlines newline file)) = some r.write.value := by
  obtain ⟨before, text, after, hlines, hparse, hkey, hafter⟩ := h
  rw [hlines, writes_append_cons before after hparse]
  refine Write.last_append_cons _ (by rw [WalRecord.write_key, hkey]) fun w hw => ?_
  obtain ⟨t, ht, q, hq, rfl⟩ := exists_record_of_mem_writes hw
  rw [WalRecord.write_key]
  exact hafter t ht q hq

theorem exists_isLastRecord {file key : Bytes} (h : Mentions file key) :
    ∃ r, IsLastRecord file key r := by
  obtain ⟨text, htext, r, hparse, hkey⟩ := h
  unfold IsLastRecord
  generalize getlines newline file = lines at htext ⊢
  -- Read the lines from the end: the first one met that names the key is the
  -- last record.
  induction lines using List.reverseRecOn with
  | nil => exact absurd htext List.not_mem_nil
  | append_singleton lines l ih =>
    by_cases hl : ∃ q, parseLine l = some q ∧ q.key = key
    · obtain ⟨q, hq, hqk⟩ := hl
      exact ⟨q, lines, l, [], rfl, hq, hqk, fun t ht => absurd ht List.not_mem_nil⟩
    · have hmem : text ∈ lines := by
        rcases List.mem_append.mp htext with hmem | hmem
        · exact hmem
        · exact absurd ⟨r, List.mem_singleton.mp hmem ▸ hparse, hkey⟩ hl
      obtain ⟨q, before, t, after, hlines, hq, hqk, hafter⟩ := ih hmem
      refine ⟨q, before, t, after ++ [l], by simp [hlines], hq, hqk, fun t' ht' q' hq' hk' => ?_⟩
      rcases List.mem_append.mp ht' with ht' | ht'
      · exact hafter t' ht' q' hq' hk'
      · exact hl ⟨q', List.mem_singleton.mp ht' ▸ hq', hk'⟩

theorem isLastRecord_unique {file key : Bytes} {r q : WalRecord} (hr : IsLastRecord file key r)
    (hq : IsLastRecord file key q) : r.write.value = q.write.value :=
  Option.some.inj ((last_writes_of_isLastRecord hr).symm.trans (last_writes_of_isLastRecord hq))

/-- A key that the file names is bound as its last record says. -/
theorem lookup_recover_of_isLastRecord (s : Store) {file key : Bytes} {r : WalRecord}
    (h : IsLastRecord file key r) : (recover s file).lookup key = r.write.value := by
  show Store.view (recover s file) key = _
  rw [view_recover_writes, Write.applyAll_eq_last, last_writes_of_isLastRecord h,
    Option.getD_some]

/-- A key that the file does not name keeps its binding. -/
theorem lookup_recover_of_not_mentions (s : Store) {file key : Bytes} (h : ¬ Mentions file key) :
    (recover s file).lookup key = s.lookup key := by
  show Store.view (recover s file) key = Store.view s key
  have hnone : Write.last key (writes (getlines newline file)) = none := by
    rw [Write.last_eq_none_iff]
    intro w hw hkey
    obtain ⟨text, htext, r, hparse, rfl⟩ := exists_record_of_mem_writes hw
    exact h ⟨text, htext, r, hparse, by rwa [WalRecord.write_key] at hkey⟩
  rw [view_recover_writes, Write.applyAll_eq_last, hnone, Option.getD_none]

theorem lookup_recover_recover (s : Store) (file key : Bytes) :
    (recover (recover s file) file).lookup key = (recover s file).lookup key := by
  show Store.view (recover (recover s file) file) key = Store.view (recover s file) key
  rw [view_recover_writes, view_recover_writes, Write.applyAll_idem]

/-! ## Removing superseded records -/

/-- A later line reads as a record for the key of this one. -/
def superseded (text : Bytes) (later : List Bytes) : Bool :=
  match parseLine text with
  | none => false
  | some r => (later.filterMap parseLine).any fun q => decide (q.key = r.key)

/-- The lines with every superseded record removed; lines that are not records
stay where they are. -/
def withoutSuperseded : List Bytes → List Bytes
  | [] => []
  | text :: rest =>
    if superseded text rest then withoutSuperseded rest else text :: withoutSuperseded rest

theorem withoutSuperseded_sublist (lines : List Bytes) :
    (withoutSuperseded lines).Sublist lines := by
  induction lines with
  | nil => exact List.Sublist.refl []
  | cons text rest ih =>
    rw [withoutSuperseded]
    split
    · exact ih.cons text
    · exact ih.cons_cons text

theorem applyAll_writes_withoutSuperseded (m : Bytes → Option Bytes) (lines : List Bytes) :
    Write.applyAll m (writes (withoutSuperseded lines)) = Write.applyAll m (writes lines) := by
  induction lines generalizing m with
  | nil => rfl
  | cons text rest ih =>
    cases hparse : parseLine text with
    | none =>
      have hkeep : superseded text rest = false := by simp [superseded, hparse]
      have hskip : ∀ ls, writes (text :: ls) = writes ls := by
        intro ls
        rw [writes, List.filterMap_cons_none hparse, writes]
      rw [withoutSuperseded, hkeep, hskip]
      show Write.applyAll m (writes (text :: withoutSuperseded rest)) = _
      rw [hskip, ih]
    | some r =>
      have hcons : ∀ ls, writes (text :: ls) = r.write :: writes ls :=
        fun ls => writes_append_cons [] ls hparse
      rw [withoutSuperseded, hcons]
      split
      · rename_i hsup
        rw [superseded, hparse] at hsup
        obtain ⟨q, hq, hqk⟩ := List.any_eq_true.mp hsup
        have hlater : ∃ w ∈ writes rest, w.key = r.write.key := by
          refine ⟨q.write, List.mem_map_of_mem hq, ?_⟩
          rw [WalRecord.write_key, WalRecord.write_key]
          exact of_decide_eq_true hqk
        rw [ih, Write.applyAll_cons_of_superseded m hlater]
      · rw [hcons]
        exact ih (Write.applyTo m r.write)

/-- Replaying any file over any map: a key that some line reads as a record for
is bound to `value` exactly when the last such line is a put of `value`, the
other keys are as before, a second replay changes nothing, and a file left with
the lines that are not superseded replays to the same map. -/
theorem recover_keeps_last_record (file : Bytes) (s : Store) :
    (∀ key, Mentions file key → ∀ value, (recover s file).lookup key = some value ↔
      ∃ r, IsLastRecord file key r ∧ r.op = .put ∧ r.value = value) ∧
    (∀ key, ¬ Mentions file key → (recover s file).lookup key = s.lookup key) ∧
    (∀ key, (recover (recover s file) file).lookup key = (recover s file).lookup key) ∧
    (∀ file', getlines newline file' = withoutSuperseded (getlines newline file) →
      ∀ key, (recover s file').lookup key = (recover s file).lookup key) ∧
    getlines newline (unlines newline (withoutSuperseded (getlines newline file))) =
      withoutSuperseded (getlines newline file) := by
  refine ⟨fun key hmention value => ?_, fun key => lookup_recover_of_not_mentions s,
    lookup_recover_recover s file, fun file' hlines key => ?_, ?_⟩
  · obtain ⟨r, hr⟩ := exists_isLastRecord hmention
    rw [lookup_recover_of_isLastRecord s hr]
    constructor
    · intro hvalue
      refine ⟨r, hr, ?_⟩
      cases hop : r.op with
      | put => exact ⟨rfl, by simpa [WalRecord.write, hop] using hvalue⟩
      | del => simp [WalRecord.write, hop] at hvalue
    · rintro ⟨q, hq, hop, rfl⟩
      rw [isLastRecord_unique hr hq]
      simp [WalRecord.write, hop]
  · show Store.view (recover s file') key = Store.view (recover s file) key
    rw [view_recover_writes, view_recover_writes, hlines, applyAll_writes_withoutSuperseded]
  · refine getlines_unlines newline fun l hl => ?_
    exact not_mem_of_mem_getlines newline ((withoutSuperseded_sublist _).subset hl)

/-- A put, a line cut short, a deletion and an unfinished put of one key. -/
theorem recover_keeps_last_record_torn :
    (recover ∅ (ascii "PUT|a|1|7\nPUT|a\nDEL|a||8\nPUT|a|2")).lookup (ascii "a") =
      some (ascii "2") := by
  refine ((recover_keeps_last_record _ ∅).1 (ascii "a") ?_ (ascii "2")).mpr ?_
  · exact ⟨ascii "PUT|a|2", by decide, { op := .put, key := ascii "a", value := ascii "2" },
      by decide, by decide⟩
  · have hlast : IsLastRecord (ascii "PUT|a|1|7\nPUT|a\nDEL|a||8\nPUT|a|2") (ascii "a")
        { op := .put, key := ascii "a", value := ascii "2" } :=
      ⟨[ascii "PUT|a|1|7", ascii "PUT|a", ascii "DEL|a||8"], ascii "PUT|a|2", [], by decide,
        by decide, rfl, fun t ht => absurd ht List.not_mem_nil⟩
    exact ⟨_, hlast, rfl, rfl⟩

end Wal
end DistributedDb
