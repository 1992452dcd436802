import DistributedDb.Storage.Wal

/-
Loading a batch of pairs into an engine.

A batch updates the map for all pairs and then appends a record for each, while
calling `put` pair by pair alternates the two.  Nothing reads the map and the log
together in between, so both leave the same map and the same records.  When the
pairs list another engine's map, the order of the list does not matter, because
no key is in it twice.
-/

namespace DistributedDb

open Getline

namespace StorageEngine

/-- `put` called on each pair in turn; `now i` is the clock at the `i`-th call. -/
def putEach (e : StorageEngine) : List (Bytes × Bytes) → (Nat → Int) → StorageEngine
  | [], _ => e
  | p :: rest, now => (e.put p.1 p.2 (now 0)).putEach rest fun i => now (i + 1)

theorem putBatch_cons (e : StorageEngine) (p : Bytes × Bytes) (rest : List (Bytes × Bytes))
    (now : Nat → Int) :
    e.putBatch (p :: rest) now = (e.put p.1 p.2 (now 0)).putBatch rest fun i => now (i + 1) := by
  rw [putBatch, putBatch, appendBatch, put]
  congr 1
  unfold appendWal
  split <;> rfl

/-- With the same clock readings the two leave the same engine. -/
theorem putEach_eq_putBatch (e : StorageEngine) (pairs : List (Bytes × Bytes))
    (now : Nat → Int) : e.putEach pairs now = e.putBatch pairs now := by
  induction pairs generalizing e now with
  | nil => rfl
  | cons p rest ih => rw [putEach, ih, putBatch_cons]

theorem putBatch_store (e : StorageEngine) (pairs : List (Bytes × Bytes)) (now : Nat → Int) :
    (e.putBatch pairs now).store = e.store.insertAll pairs :=
  appendBatch_store _ pairs now

theorem appendBatch_of_closed {e : StorageEngine} (he : e.isOpen = false)
    (pairs : List (Bytes × Bytes)) (now : Nat → Int) : e.appendBatch pairs now = e := by
  induction pairs generalizing now with
  | nil => rfl
  | cons p rest ih => rw [appendBatch, appendWal, he, if_neg (by simp), ih]

/-- The records of a batch, time stamps aside. -/
theorem map_fst_batchRecords (pairs : List (Bytes × Bytes)) (now : Nat → Int) :
    (Call.batchRecords pairs now).map Prod.fst =
      pairs.map fun p => { op := .put, key := p.1, value := p.2 } := by
  induction pairs generalizing now with
  | nil => rfl
  | cons p rest ih => rw [Call.batchRecords, List.map_cons, ih, List.map_cons]

/-- The log has grown by the same records, time stamps aside. -/
def SameRecords (e a b : StorageEngine) : Prop :=
  ∃ rs rs' : List (WalRecord × Int), a.log = e.log ++ Wal.formatAll rs ∧
    b.log = e.log ++ Wal.formatAll rs' ∧ rs.map Prod.fst = rs'.map Prod.fst

theorem sameRecords_putBatch (e : StorageEngine) (pairs : List (Bytes × Bytes))
    (now now' : Nat → Int) : SameRecords e (e.putBatch pairs now) (e.putEach pairs now') := by
  rw [putEach_eq_putBatch]
  cases he : e.isOpen with
  | false =>
    have hsame : ∀ t, (e.putBatch pairs t).log = e.log := by
      intro t
      rw [putBatch, appendBatch_of_closed (e := { e with store := e.store.insertAll pairs }) he]
    exact ⟨[], [], by simp [hsame, Wal.formatAll], by simp [hsame, Wal.formatAll], rfl⟩
  | true =>
    have hlog : ∀ t, (e.putBatch pairs t).log =
        e.log ++ Wal.formatAll (Call.batchRecords pairs t) := fun t =>
      (log_appendBatch (e := { e with store := e.store.insertAll pairs }) he pairs t).2
    exact ⟨_, _, hlog now, hlog now', by rw [map_fst_batchRecords, map_fst_batchRecords]⟩

/-! ## The pairs of another engine -/

theorem lookup_insertAll_of_not_mem {s : Store} {pairs : List (Bytes × Bytes)} {k : Bytes}
    (h : ∀ p ∈ pairs, p.1 ≠ k) : (s.insertAll pairs).lookup k = s.lookup k := by
  induction pairs generalizing s with
  | nil => rfl
  | cons p rest ih =>
    show (Store.insertAll (s.insert p.1 p.2) rest).lookup k = _
    rw [ih fun q hq => h q (List.mem_cons_of_mem p hq),
      AList.lookup_insert_ne (Ne.symm (h p List.mem_cons_self))]

/-- Loading the pairs of `peer`: a key that `peer` has gets its value there, and
the other keys stay. -/
theorem get_putBatch_pairs (e peer : StorageEngine) (now : Nat → Int) (k : Bytes) :
    (e.putBatch peer.getAllPairs now).get k = (peer.get k).or (e.get k) := by
  cases hk : peer.get k with
  | some v =>
    refine get_putBatch (mem_getAllPairs.mpr hk) (fun p hp hpk => ?_) now
    have hp' : peer.get p.1 = some p.2 := mem_getAllPairs.mp hp
    rw [hpk, hk] at hp'
    exact (Option.some.inj hp').symm
  | none =>
    rw [Option.none_or, get, putBatch_store, get]
    refine lookup_insertAll_of_not_mem fun p hp hpk => ?_
    have hp' : peer.get p.1 = some p.2 := mem_getAllPairs.mp hp
    rw [hpk, hk] at hp'
    exact absurd hp' (by simp)

/-! ## Restarts -/

/-- Every line of the file has been ended. -/
def Complete (file : Bytes) : Prop := file = [] ∨ ∃ init, file = init ++ [Wal.newline]

theorem getlines_append_of_complete {file : Bytes} (h : Complete file) (tail : Bytes) :
    getlines Wal.newline (file ++ tail) =
      getlines Wal.newline file ++ getlines Wal.newline tail := by
  rcases h with rfl | ⟨init, rfl⟩
  · rfl
  · exact getlines_append_of_ended Wal.newline init tail

theorem complete_append {a b : Bytes} (ha : Complete a) (hb : Complete b) : Complete (a ++ b) := by
  rcases hb with rfl | ⟨init, rfl⟩
  · rwa [List.append_nil]
  · exact Or.inr ⟨a ++ init, by rw [List.append_assoc]⟩

theorem complete_formatAll (rs : List (WalRecord × Int)) : Complete (Wal.formatAll rs) := by
  induction rs with
  | nil => exact Or.inl rfl
  | cons p rest ih =>
    refine complete_append (Or.inr ⟨Wal.line p.1 p.2, rfl⟩) ih

/-- Engines that a run reaches: opened on a log of complete lines, changed by
calls that put no separator, and opened again on the log they left. -/
inductive Reachable : StorageEngine → Prop
  | start {file : Bytes} (h : Complete file) : Reachable (start file true)
  | run {e : StorageEngine} (h : Reachable e) {c : Call}
      (hc : ∀ p ∈ c.pairs, Wal.Clean p.1 ∧ Wal.Clean p.2) : Reachable (c.run e)
  | restart {e : StorageEngine} (h : Reachable e) : Reachable (start e.log true)

/-- The log is complete and replays to the map. -/
structure Persisted (e : StorageEngine) : Prop where
  opened : e.isOpen = true
  complete : Complete e.log
  replays : Store.view (Wal.recover ∅ e.log) = Store.view e.store

theorem Persisted.cleanKeys {e : StorageEngine} (h : Persisted e) : e.CleanKeys := by
  intro key value hb
  have hview : Store.view (Wal.recover ∅ e.log) key = some value := by
    rw [h.replays]
    exact hb
  exact (Wal.clean_of_recover hview).1

/-- A call appends complete records, and they replay as the call changed the map. -/
theorem Persisted.run {e : StorageEngine} (h : Persisted e) {c : Call}
    (hc : ∀ p ∈ c.pairs, Wal.Clean p.1 ∧ Wal.Clean p.2) : Persisted (c.run e) := by
  obtain ⟨hopen, hlog⟩ := log_run h.opened c
  refine ⟨hopen, ?_, ?_⟩
  · rw [hlog]
    exact complete_append h.complete (complete_formatAll _)
  · rw [view_run, ← h.replays, Wal.view_recover, hlog, getlines_append_of_complete h.complete,
      List.filterMap_append, List.map_append, Write.applyAll_append, ← Wal.view_recover,
      Wal.records_formatAll (clean_records h.cleanKeys hc), List.map_map]
    rfl

theorem Reachable.persisted {e : StorageEngine} (h : Reachable e) : Persisted e := by
  induction h with
  | start hfile => exact ⟨rfl, hfile, rfl⟩
  | run _ hc ih => exact ih.run hc
  | restart _ ih => exact ⟨rfl, ih.complete, rfl⟩

/-- A restart after a batch of clean pairs gives the map the batch left. -/
theorem get_restart_putBatch {e : StorageEngine} (h : Reachable e) {pairs : List (Bytes × Bytes)}
    (hp : ∀ p ∈ pairs, Wal.Clean p.1 ∧ Wal.Clean p.2) (now : Nat → Int) (k : Bytes) :
    (start (e.putBatch pairs now).log true).get k = (e.putBatch pairs now).get k :=
  congrFun (h.persisted.run (c := .putBatch pairs now) hp).replays k

end StorageEngine
end DistributedDb
