import DistributedDb.Storage.Wal

/-
A crash in the middle of an append.

A crash leaves a byte prefix of the log.  The complete lines of it are complete
records, and what follows them is a torn line without its newline.  A line needs
no newline, no length and no check sum to be replayed, so a line torn inside the
value of a put is replayed as a put of a shorter value.  The next session appends
to the torn line, so its first record is read as a part of that line.
-/

namespace DistributedDb

open Getline

namespace Wal

/-- The map that a sequence of records makes. -/
def contents (rs : List (WalRecord × Int)) : Bytes → Option Bytes :=
  Write.applyAll (fun _ => none) (rs.map fun p => p.1.write)

/-- A cut leaves some records whole and a torn line of the next one. -/
theorem take_formatAll (rs : List (WalRecord × Int)) (n : Nat) :
    ∃ whole rest torn, rs = whole ++ rest ∧ (formatAll rs).take n = formatAll whole ++ torn ∧
      (torn = [] ∨ ∃ p tail, rest = p :: tail ∧ torn <+: line p.1 p.2) := by
  induction rs generalizing n with
  | nil => exact ⟨[], [], [], rfl, List.take_nil, Or.inl rfl⟩
  | cons p rs ih =>
    rcases Nat.lt_or_ge (line p.1 p.2).length n with hlong | hshort
    · obtain ⟨whole, rest, torn, hrs, htake, htorn⟩ := ih (n - ((line p.1 p.2).length + 1))
      refine ⟨p :: whole, rest, torn, by rw [hrs, List.cons_append], ?_, htorn⟩
      have hn : n = (line p.1 p.2 ++ [newline]).length + (n - ((line p.1 p.2).length + 1)) := by
        rw [List.length_append, List.length_singleton]
        omega
      rw [formatAll_cons, formatAll_cons, ← List.singleton_append, ← List.append_assoc, hn,
        List.take_length_add_append, htake, List.append_assoc, List.append_assoc]
      rfl
    · refine ⟨[], p :: rs, (line p.1 p.2).take n, rfl, ?_, Or.inr ⟨p, rs, rfl, List.take_prefix ..⟩⟩
      rw [formatAll_cons, List.take_append_of_le_length hshort]
      rfl

/-- Replaying a cut log replays the whole records and then the torn line. -/
theorem view_recover_cut {whole : List (WalRecord × Int)} (hw : ∀ p ∈ whole, p.1.Clean)
    {torn : Bytes} (htorn : newline ∉ torn) :
    Store.view (recover ∅ (formatAll whole ++ torn)) =
      Write.applyAll (contents whole) ((parseLine torn).toList.map WalRecord.write) := by
  have hlines : (getlines newline torn).filterMap parseLine = (parseLine torn).toList := by
    by_cases hne : torn = []
    · subst hne
      rfl
    · rw [getlines_of_not_mem newline htorn hne]
      cases hp : parseLine torn with
      | none => rw [List.filterMap_cons_none hp]; rfl
      | some r => rw [List.filterMap_cons_some hp]; rfl
  rw [view_recover, records_formatAll_append hw, hlines, List.map_append, Write.applyAll_append,
    List.map_map]
  rfl

/-- A line that ends before its third field is skipped. -/
theorem parseLine_of_short {op : WalOp} {torn : Bytes}
    (h : torn <+: op.text ∨ ∃ q, bar ∉ q ∧ torn = op.text ++ bar :: q) :
    parseLine torn = none := by
  rcases h with h | ⟨q, hq, rfl⟩
  · by_cases hne : torn = []
    · rw [hne]
      rfl
    · have hbar : bar ∉ torn := fun hb => (clean_text op).1 (h.subset hb)
      simp [parseLine, hne, getline_of_not_mem bar hbar hne]
  · rw [parseLine, if_neg (by simp), getline_append bar (clean_text op).1]
    by_cases hne : q = []
    · simp [hne]
    · simp [getline_of_not_mem bar hq hne]

/-- A torn line is skipped, is replayed as the whole record, or is torn inside
the value. -/
theorem parseLine_torn {r : WalRecord} (hr : r.Clean) {now : Int} {torn : Bytes}
    (h : torn <+: line r now) :
    parseLine torn = none ∨ parseLine torn = some r ∨
      ∃ p, p ≠ [] ∧ p <+: r.value ∧ p ≠ r.value ∧
        torn = r.op.text ++ bar :: (r.key ++ bar :: p) ∧
        parseLine torn = some { r with value := p } := by
  rw [line_eq] at h
  rcases prefix_append_cons h with hop | ⟨q, hq, rfl⟩
  · exact Or.inl (parseLine_of_short (Or.inl hop))
  rcases prefix_append_cons hq with hkey | ⟨p, hp, rfl⟩
  · exact Or.inl (parseLine_of_short (Or.inr ⟨q, fun hb => hr.1.1 (hkey.subset hb), rfl⟩))
  rcases prefix_append_cons hp with hvalue | ⟨t, -, rfl⟩
  · by_cases hne : p = []
    · left
      rw [hne, parseLine, if_neg (by simp), getline_append bar (clean_text r.op).1]
      simp [getline_append bar hr.1.1]
    · have hbar : bar ∉ p := fun hb => hr.2.1 (hvalue.subset hb)
      have hparse := parseLine_fields r.op hr.1.1 (getline_of_not_mem bar hbar hne)
      by_cases hall : p = r.value
      · rw [hall] at hparse ⊢
        exact Or.inr (Or.inl hparse)
      · exact Or.inr (Or.inr ⟨p, hne, hvalue, hall, rfl, hparse⟩)
  · exact Or.inr (Or.inl (parseLine_fields r.op hr.1.1 (getline_append bar hr.2.1 t)))

end Wal

/-! ## Recovery from a cut log -/

/-- The cut falls inside the value of a put, after its first `j` bytes: `whole`
is the log before that put. -/
structure CutsValue (rs : List (WalRecord × Int)) (n : Nat) (whole : List (WalRecord × Int))
    (key value : Bytes) (j : Nat) : Prop where
  next : ∃ now rest, rs = whole ++ ({ op := .put, key := key, value := value }, now) :: rest
  position : n = (Wal.formatAll whole).length + (ascii "PUT|").length + key.length + 1 + j
  inside : 0 < j ∧ j < value.length

/-- The log of a session, cut after `n` bytes. -/
def crashed (calls : List Call) (n : Nat) : Bytes :=
  (Call.runAll (StorageEngine.start [] true) calls).log.take n

/-- The records of a session. -/
def sessionRecords (calls : List Call) : List (WalRecord × Int) :=
  Call.recordsAll (StorageEngine.start [] true) calls

/-- Recovery from the cut log gives the map of a prefix of the records, and no
binding that no call wrote. -/
def CrashAtomic (calls : List Call) (n : Nat) : Prop :=
  (∃ k, ∀ key, (StorageEngine.start (crashed calls n) true).get key =
    Wal.contents ((sessionRecords calls).take k) key) ∧
  ∀ key value, (StorageEngine.start (crashed calls n) true).get key = some value →
    ∃ c ∈ calls, (key, value) ∈ c.pairs

section Session

variable {calls : List Call}

theorem mem_pairs_of_batchRecords {pairs : List (Bytes × Bytes)} {now : Nat → Int}
    {q : WalRecord × Int} (hq : q ∈ Call.batchRecords pairs now) :
    (q.1.key, q.1.value) ∈ pairs := by
  induction pairs generalizing now with
  | nil => exact absurd hq List.not_mem_nil
  | cons p rest ih =>
    rcases List.mem_cons.mp hq with rfl | hq
    · exact List.mem_cons_self
    · exact List.mem_cons_of_mem p (ih hq)

/-- A put in the log is a pair that some call put. -/
theorem mem_pairs_of_recordsAll {e : StorageEngine} {q : WalRecord × Int}
    (hq : q ∈ Call.recordsAll e calls) (hput : q.1.op = .put) :
    ∃ c ∈ calls, (q.1.key, q.1.value) ∈ c.pairs := by
  induction calls generalizing e with
  | nil => exact absurd hq List.not_mem_nil
  | cons c rest ih =>
    rcases List.mem_append.mp hq with hq | hq
    · refine ⟨c, List.mem_cons_self, ?_⟩
      cases c with
      | put key value now =>
        rw [List.mem_singleton.mp hq]
        exact List.mem_singleton_self _
      | del key now =>
        cases hb : e.store.lookup key with
        | none => simp [Call.records, hb] at hq
        | some value =>
          simp only [Call.records, hb, List.mem_singleton] at hq
          simp [hq] at hput
      | putBatch pairs now => exact mem_pairs_of_batchRecords hq
    · obtain ⟨d, hd, hmem⟩ := ih hq
      exact ⟨d, List.mem_cons_of_mem c hd, hmem⟩

/-- A binding that a sequence of records makes is a put of the sequence. -/
theorem exists_put_of_contents {rs : List (WalRecord × Int)} {key value : Bytes}
    (h : Wal.contents rs key = some value) :
    ∃ q ∈ rs, q.1.op = .put ∧ q.1.key = key ∧ q.1.value = value := by
  rw [Wal.contents, Write.applyAll_eq_last] at h
  cases hlast : Write.last key (rs.map fun p => p.1.write) with
  | none => simp [hlast] at h
  | some v =>
    rw [hlast, Option.getD_some] at h
    obtain ⟨w, hw, hwv⟩ := Option.map_eq_some_iff.mp hlast
    obtain ⟨hmem, hkey⟩ := List.mem_filter.mp (List.mem_of_getLast? hw)
    obtain ⟨q, hq, rfl⟩ := List.mem_map.mp hmem
    rw [h] at hwv
    have hk : q.1.key = key := by simpa using hkey
    refine ⟨q, hq, ?_⟩
    unfold WalRecord.write at hwv
    split at hwv
    · exact ⟨‹_›, hk, Option.some.inj hwv⟩
    · exact absurd hwv (by simp)

/-- Recovery from a log cut inside a value puts the bytes that are left. -/
theorem recover_of_cutsValue {rs whole : List (WalRecord × Int)} (hrs : ∀ p ∈ rs, p.1.Clean)
    {n j : Nat} {key value : Bytes} (h : CutsValue rs n whole key value j) :
    Store.view (Wal.recover ∅ ((Wal.formatAll rs).take n)) =
      Write.applyTo (Wal.contents whole) ⟨key, some (value.take j)⟩ := by
  obtain ⟨now, rest, hsplit⟩ := h.next
  let r : WalRecord := { op := .put, key := key, value := value }
  have hr : r.Clean := hrs (r, now) (hsplit ▸ List.mem_append_right _ List.mem_cons_self)
  have hwhole : ∀ p ∈ whole, p.1.Clean :=
    fun p hp => hrs p (hsplit ▸ List.mem_append_left _ hp)
  let torn := WalOp.put.text ++ Wal.bar :: (key ++ Wal.bar :: value.take j)
  have hline : Wal.line r now = torn ++ (value.drop j ++ Wal.bar :: ascii (toString now)) := by
    have hvalue : r.value = value.take j ++ value.drop j := (List.take_append_drop j value).symm
    rw [Wal.line_eq, hvalue]
    simp only [torn, r, List.append_assoc, List.cons_append]
  have htake : (Wal.formatAll rs).take n = Wal.formatAll whole ++ torn := by
    have hlen : n = (Wal.formatAll whole ++ torn).length := by
      have hj := h.inside
      have hput : (ascii "PUT|").length = WalOp.put.text.length + 1 := by decide
      rw [h.position, hput]
      simp only [torn, List.length_append, List.length_cons, List.length_take]
      omega
    rw [hsplit, Wal.formatAll_append, Wal.formatAll_cons, hline, List.append_assoc,
      ← List.append_assoc, hlen, List.take_left]
  have hnewline : Wal.newline ∉ torn := by
    intro hmem
    exact Wal.newline_not_mem_line hr now (hline ▸ List.mem_append_left _ hmem)
  have hbar : Wal.bar ∉ value.take j := fun hmem => hr.2.1 (List.mem_of_mem_take hmem)
  have hne : value.take j ≠ [] := by
    intro hnil
    have hlen := congrArg List.length hnil
    have hj := h.inside
    rw [List.length_take, List.length_nil] at hlen
    omega
  have hparse : Wal.parseLine torn = some { op := .put, key := key, value := value.take j } :=
    Wal.parseLine_fields .put hr.1.1 (getline_of_not_mem Wal.bar hbar hne)
  rw [htake, Wal.view_recover_cut hwhole hnewline, hparse]
  rfl

/-- Otherwise the map is that of a prefix of the records. -/
theorem prefix_or_cutsValue {rs : List (WalRecord × Int)} (hrs : ∀ p ∈ rs, p.1.Clean) (n : Nat) :
    (∃ k, Store.view (Wal.recover ∅ ((Wal.formatAll rs).take n)) = Wal.contents (rs.take k)) ∨
      ∃ whole key value j, CutsValue rs n whole key value j := by
  obtain ⟨whole, rest, torn, rfl, htake, htorn⟩ := Wal.take_formatAll rs n
  have hwhole : ∀ p ∈ whole, p.1.Clean := fun p hp => hrs p (List.mem_append_left _ hp)
  have hcut := fun hnewline : Wal.newline ∉ torn => Wal.view_recover_cut hwhole hnewline
  have hskip : Wal.newline ∉ torn → Wal.parseLine torn = none →
      ∃ k, Store.view (Wal.recover ∅ ((Wal.formatAll (whole ++ rest)).take n)) =
        Wal.contents ((whole ++ rest).take k) := by
    intro hnewline hnone
    refine ⟨whole.length, ?_⟩
    rw [htake, hcut hnewline, hnone, List.take_left]
    rfl
  rcases htorn with rfl | ⟨p, tail, rfl, htorn⟩
  · exact Or.inl (hskip List.not_mem_nil rfl)
  · have hp : p.1.Clean := hrs p (by simp)
    have hnewline : Wal.newline ∉ torn :=
      fun hmem => Wal.newline_not_mem_line hp p.2 (htorn.subset hmem)
    have happly : ∀ r : WalRecord, r.write = p.1.write → Wal.parseLine torn = some r →
        ∃ k, Store.view (Wal.recover ∅ ((Wal.formatAll (whole ++ p :: tail)).take n)) =
          Wal.contents ((whole ++ p :: tail).take k) := by
      intro r hw hparse
      refine ⟨whole.length + 1, ?_⟩
      rw [htake, hcut hnewline, hparse, List.take_length_add_append, Wal.contents,
        Wal.contents, List.map_append, Write.applyAll_append]
      show Write.applyAll _ [r.write] = Write.applyAll _ [p.1.write]
      rw [hw]
    rcases Wal.parseLine_torn hp htorn with hnone | hsome | ⟨q, hq, hpre, hshort, rfl, hparse⟩
    · exact Or.inl (hskip hnewline hnone)
    · exact Or.inl (happly _ rfl hsome)
    · cases hop : p.1.op with
      | del =>
        refine Or.inl (happly _ ?_ hparse)
        simp only [WalRecord.write, hop]
      | put =>
        obtain ⟨⟨op, key, value⟩, now⟩ := p
        obtain rfl : op = .put := hop
        refine Or.inr ⟨whole, key, value, q.length, ⟨now, tail, rfl⟩, ?_, ?_, ?_⟩
        · -- The cut comes before the end of the log, so it is as long as what it leaves.
          have hlen := congrArg List.length htake
          have hbelow := htorn.length_le
          have hput : (ascii "PUT|").length = WalOp.put.text.length + 1 := by decide
          rw [List.length_take, Wal.formatAll_append, Wal.formatAll_cons] at hlen
          simp only [List.length_append, List.length_cons] at hlen hbelow ⊢
          omega
        · exact List.length_pos_iff.mpr hq
        · rcases Nat.lt_or_ge q.length value.length with hlt | hge
          · exact hlt
          · exact absurd (hpre.eq_of_length_le hge) hshort

/-- Recovery from a cut log is atomic unless the cut falls inside the value of a
put and the bytes that are left make a map that no prefix of the records makes. -/
theorem crashAtomic_iff
    (hclean : ∀ c ∈ calls, ∀ p ∈ c.pairs, Wal.Clean p.1 ∧ Wal.Clean p.2) (n : Nat) :
    CrashAtomic calls n ↔
      ∀ whole key value j, CutsValue (sessionRecords calls) n whole key value j →
        ∃ k, Write.applyTo (Wal.contents whole) ⟨key, some (value.take j)⟩ =
          Wal.contents ((sessionRecords calls).take k) := by
  have hlogged := StorageEngine.logged_runAll hclean
  have hview : ∀ key, (StorageEngine.start (crashed calls n) true).get key =
      Store.view (Wal.recover ∅ ((Wal.formatAll (sessionRecords calls)).take n)) key := by
    intro key
    rw [crashed, hlogged.log]
    rfl
  constructor
  · intro h whole key value j hcut
    obtain ⟨⟨k, hk⟩, -⟩ := h
    refine ⟨k, ?_⟩
    rw [← recover_of_cutsValue hlogged.clean hcut]
    exact funext fun key' => (hview key').symm.trans (hk key')
  · intro h
    have hpre : ∃ k, Store.view
        (Wal.recover ∅ ((Wal.formatAll (sessionRecords calls)).take n)) =
          Wal.contents ((sessionRecords calls).take k) := by
      rcases prefix_or_cutsValue hlogged.clean n with hk | ⟨whole, key, value, j, hcut⟩
      · exact hk
      · obtain ⟨k, hk⟩ := h whole key value j hcut
        exact ⟨k, (recover_of_cutsValue hlogged.clean hcut).trans hk⟩
    obtain ⟨k, hk⟩ := hpre
    refine ⟨⟨k, fun key => (hview key).trans (congrFun hk key)⟩, fun key value hbound => ?_⟩
    rw [hview, hk] at hbound
    obtain ⟨q, hq, hput, rfl, rfl⟩ := exists_put_of_contents hbound
    exact mem_pairs_of_recordsAll (List.mem_of_mem_take hq) hput

/-- A cut inside the timestamp loses nothing. -/
theorem crashAtomic_cut_timestamp :
    CrashAtomic [.put (ascii "user1") (ascii "alice") 17] 17 := by
  refine (crashAtomic_iff (by decide) 17).mpr fun whole key value j hcut => ?_
  obtain ⟨⟨now, rest, hsplit⟩, hposition, hinside⟩ := hcut
  cases whole with
  | nil =>
    obtain ⟨hr, -⟩ := List.cons.inj hsplit
    obtain ⟨rfl, rfl⟩ : ascii "user1" = key ∧ ascii "alice" = value := by
      simpa using congrArg Prod.fst hr
    simp [ascii, Wal.formatAll] at hposition hinside
    omega
  | cons p whole => simp [sessionRecords, Call.recordsAll, Call.records] at hsplit

end Session

/-- A put torn two bytes into its value is recovered as a put of these two. -/
theorem torn_value_is_recovered :
    (∀ c ∈ [Call.put (ascii "user1") (ascii "alice") 1700000000000], ∀ p ∈ c.pairs,
      Wal.Clean p.1 ∧ Wal.Clean p.2) ∧
    ¬ CrashAtomic [.put (ascii "user1") (ascii "alice") 1700000000000] 12 := by
  refine ⟨by decide, fun h => ?_⟩
  obtain ⟨c, hc, hmem⟩ := h.2 (ascii "user1") (ascii "al") (by decide)
  rw [List.mem_singleton.mp hc] at hmem
  exact absurd hmem (by decide)

/-! ## The session after a crash -/

/-- The engine opened on `file` and closed after the calls `later` opens again
with the map it closed with. -/
def SurvivesRestart (file : Bytes) (later : List Call) : Prop :=
  let e := Call.runAll (StorageEngine.start file true) later
  ∀ key, (StorageEngine.start e.log true).get key = e.get key

/-- A session that starts at the end of a record is read back whole. -/
theorem survivesRestart_of_whole {whole : List (WalRecord × Int)}
    (hwhole : ∀ p ∈ whole, p.1.Clean) {later : List Call}
    (hlater : ∀ c ∈ later, ∀ p ∈ c.pairs, Wal.Clean p.1 ∧ Wal.Clean p.2) :
    SurvivesRestart (Wal.formatAll whole) later := by
  intro key
  let opened := StorageEngine.start (Wal.formatAll whole) true
  let e := Call.runAll opened later
  have hlog : e.log = Wal.formatAll (whole ++ Call.recordsAll opened later) := by
    rw [Wal.formatAll_append]
    exact (StorageEngine.log_runAll (e := opened) rfl later).2
  have hclean : ∀ p ∈ whole ++ Call.recordsAll opened later, p.1.Clean := by
    have hkeys : opened.CleanKeys := fun key value hb => (Wal.clean_of_recover hb).1
    intro p hp
    rcases List.mem_append.mp hp with hp | hp
    · exact hwhole p hp
    · exact StorageEngine.clean_recordsAll hkeys hlater p hp
  have hopened : Store.view opened.store = Wal.contents whole := by
    show Store.view (Wal.recover ∅ (Wal.formatAll whole)) = _
    rw [Wal.view_recover, Wal.records_formatAll hwhole, List.map_map]
    rfl
  have hview : Store.view (Wal.recover ∅ e.log) = Store.view e.store := by
    rw [hlog, Wal.view_recover, Wal.records_formatAll hclean, List.map_map, List.map_append,
      Write.applyAll_append, StorageEngine.view_runAll, hopened]
    rfl
  exact congrFun hview key

namespace Wal

/-- A line that goes on after a torn one names no operation, or its key ends
within the next operation name. -/
theorem length_key_of_parseLine {torn rest : Bytes} (hne : torn ≠ []) {op : WalOp} {r : WalRecord}
    (h : parseLine (torn ++ (op.text ++ bar :: rest)) = some r) :
    r.key.length < torn.length + op.text.length := by
  obtain ⟨t1, t2, t3, h1, h2, -⟩ := getline_of_parseLine h
  have hop := (clean_text op).1
  rcases eq_append_or_not_mem bar torn with ⟨o, t, ho, rfl⟩ | htorn
  · rw [List.append_assoc, List.cons_append, getline_append bar ho] at h1
    obtain ⟨-, rfl⟩ := Prod.mk.inj (Option.some.inj h1)
    rcases eq_append_or_not_mem bar t with ⟨key, t, hkey, rfl⟩ | ht
    · rw [List.append_assoc, List.cons_append, getline_append bar hkey] at h2
      obtain ⟨rfl, -⟩ := Prod.mk.inj (Option.some.inj h2)
      simp only [List.length_append, List.length_cons]
      omega
    · have hfield : bar ∉ t ++ op.text := by simp [ht, hop]
      rw [← List.append_assoc, getline_append bar hfield] at h2
      obtain ⟨hkey, -⟩ := Prod.mk.inj (Option.some.inj h2)
      rw [← hkey]
      simp only [List.length_append, List.length_cons]
      omega
  · -- The first field is the torn bytes and the next operation name together.
    have hfield : bar ∉ torn ++ op.text := by simp [htorn, hop]
    rw [← List.append_assoc, getline_append bar hfield] at h1
    obtain ⟨hname, -⟩ := Prod.mk.inj (Option.some.inj h1)
    have hlen := congrArg List.length hname
    have hthree : ∀ o : WalOp, o.text.length = 3 := fun o => by cases o <;> rfl
    have hpos := List.length_pos_iff.mpr hne
    rw [List.length_append, hthree, hthree] at hlen
    omega

theorem length_key_lt_formatAll {whole : List (WalRecord × Int)} {p : WalRecord × Int}
    (hp : p ∈ whole) : p.1.key.length < (formatAll whole).length := by
  obtain ⟨a, b, rfl⟩ := List.append_of_mem hp
  rw [formatAll_append, formatAll_cons, line_eq]
  simp only [List.length_append, List.length_cons]
  omega

end Wal

/-- A session that starts on a torn line loses its first put. -/
theorem not_survivesRestart_of_torn {whole : List (WalRecord × Int)}
    (hwhole : ∀ p ∈ whole, p.1.Clean) {torn : Bytes} (hne : torn ≠ [])
    (htorn : Wal.newline ∉ torn) :
    ∃ key, Wal.Clean key ∧
      ¬ SurvivesRestart (Wal.formatAll whole ++ torn) [.put key [] 0] := by
  let file := Wal.formatAll whole ++ torn
  -- A key longer than any key that can be read from the file.
  let key : Bytes := List.replicate (file.length + 4) 97
  let r : WalRecord := { op := .put, key := key, value := [] }
  have hclean : Wal.Clean key :=
    ⟨fun h => absurd (List.eq_of_mem_replicate h) (by decide),
      fun h => absurd (List.eq_of_mem_replicate h) (by decide)⟩
  have hkeylen : key.length = (Wal.formatAll whole).length + torn.length + 4 := by
    simp only [key, file, List.length_replicate, List.length_append]
  refine ⟨key, hclean, fun h => ?_⟩
  let e := (StorageEngine.start file true).put key [] 0
  have hget : e.get key = some [] := by rw [StorageEngine.get_put, if_pos rfl]
  have hlog : e.log = Wal.formatAll whole ++
      ((torn ++ Wal.line r 0) ++ Wal.newline :: []) := by
    simp [e, StorageEngine.put, StorageEngine.appendWal, StorageEngine.start, file, Wal.format, r]
  have hline : Wal.newline ∉ torn ++ Wal.line r 0 := by
    have hr := Wal.newline_not_mem_line (r := r) ⟨hclean, Wal.clean_nil⟩ 0
    simp [htorn, hr]
  have hnone : Store.view (Wal.recover ∅ e.log) key = none := by
    have hlast : Write.last key ((whole.map Prod.fst ++
        [torn ++ Wal.line r 0].filterMap Wal.parseLine).map WalRecord.write) = none := by
      rw [Write.last_eq_none_iff]
      intro w hw hwk
      obtain ⟨q, hq, rfl⟩ := List.mem_map.mp hw
      rw [WalRecord.write_key] at hwk
      rcases List.mem_append.mp hq with hq | hq
      · obtain ⟨p, hp, rfl⟩ := List.mem_map.mp hq
        have := Wal.length_key_lt_formatAll hp
        rw [hwk] at this
        omega
      · obtain ⟨text, htext, hparse⟩ := List.mem_filterMap.mp hq
        rw [List.mem_singleton.mp htext, Wal.line_eq] at hparse
        have := Wal.length_key_of_parseLine hne hparse
        have hput : WalOp.put.text.length = 3 := rfl
        rw [hwk, hput] at this
        omega
    rw [Wal.view_recover, hlog, Wal.records_formatAll_append hwhole,
      getlines_append Wal.newline hline, getlines_nil, Write.applyAll_eq_last, hlast]
    rfl
  exact absurd (hget.symm.trans ((h key).symm.trans hnone)) (by simp)

/-- What a session after a crash writes survives the next restart, whatever it
writes, exactly when the crash left no torn line. -/
theorem survivesRestart_iff {calls : List Call}
    (hclean : ∀ c ∈ calls, ∀ p ∈ c.pairs, Wal.Clean p.1 ∧ Wal.Clean p.2) (n : Nat) :
    (∀ later : List Call, (∀ c ∈ later, ∀ p ∈ c.pairs, Wal.Clean p.1 ∧ Wal.Clean p.2) →
      SurvivesRestart (crashed calls n) later) ↔
    (crashed calls n = [] ∨ (crashed calls n).getLast? = some Wal.newline) := by
  have hlogged := StorageEngine.logged_runAll hclean
  obtain ⟨whole, rest, torn, hrs, htake, htorn⟩ := Wal.take_formatAll (sessionRecords calls) n
  have hfile : crashed calls n = Wal.formatAll whole ++ torn := by
    rw [crashed, hlogged.log]
    exact htake
  have hrecords : ∀ p ∈ whole ++ rest, p.1.Clean := hrs ▸ hlogged.clean
  have hwhole : ∀ p ∈ whole, p.1.Clean := fun p hp => hrecords p (List.mem_append_left _ hp)
  have hnewline : Wal.newline ∉ torn := by
    rcases htorn with rfl | ⟨p, tail, rfl, hpre⟩
    · exact List.not_mem_nil
    · have hp := hrecords p (List.mem_append_right _ List.mem_cons_self)
      exact fun hmem => Wal.newline_not_mem_line hp p.2 (hpre.subset hmem)
  rw [hfile]
  constructor
  · intro h
    by_contra hcut
    have hne : torn ≠ [] := by
      rintro rfl
      refine hcut ?_
      rw [List.append_nil]
      cases whole using List.reverseRecOn with
      | nil => exact Or.inl rfl
      | append_singleton init p =>
        right
        rw [Wal.formatAll_append, Wal.formatAll_cons]
        simp [Wal.formatAll]
    obtain ⟨key, hkey, hlost⟩ := not_survivesRestart_of_torn hwhole hne hnewline
    refine hlost (h _ fun c hc p hp => ?_)
    rw [List.mem_singleton.mp hc] at hp
    rw [List.mem_singleton.mp hp]
    exact ⟨hkey, Wal.clean_nil⟩
  · intro hcut later hlater
    have hnil : torn = [] := by
      by_contra hne
      rcases hcut with hcut | hcut
      · exact hne (List.append_eq_nil_iff.mp hcut).2
      · rw [List.getLast?_append_of_ne_nil _ hne] at hcut
        exact hnewline (List.mem_of_getLast? hcut)
    rw [hnil, List.append_nil]
    exact survivesRestart_of_whole hwhole hlater

/-- After a crash between two records, a put survives. -/
theorem survivesRestart_at_boundary :
    SurvivesRestart (crashed [.put (ascii "user1") (ascii "alice") 17,
        .put (ascii "user2") (ascii "bob") 18] 19) [.put (ascii "user2") (ascii "bob") 19] :=
  (survivesRestart_iff (by decide) 19).mpr (Or.inr (by decide)) _ (by decide)

/-- A put after a crash inside a timestamp is lost at the next restart. -/
theorem put_after_torn_line_is_lost :
    (∀ c ∈ [Call.put (ascii "user1") (ascii "alice") 17], ∀ p ∈ c.pairs,
      Wal.Clean p.1 ∧ Wal.Clean p.2) ∧
    (∀ c ∈ [Call.put (ascii "user2") (ascii "bob") 19], ∀ p ∈ c.pairs,
      Wal.Clean p.1 ∧ Wal.Clean p.2) ∧
    ¬ SurvivesRestart (crashed [.put (ascii "user1") (ascii "alice") 17] 17)
      [.put (ascii "user2") (ascii "bob") 19] := by
  refine ⟨by decide, by decide, fun h => ?_⟩
  exact absurd (h (ascii "user2")) (by decide)

end DistributedDb
