import DistributedDb.Lib.Runs
import DistributedDb.Storage.Wal

/-
Threads that share one engine.

An operation updates the map in one critical section, under `rw_mutex_`, and
then appends its records in others, one at a time, under `wal_mutex_`.  Between
the two any other thread may run.  The state carries two histories beside the
engine, the records of the map updates and the records of the appends, each in
the order they happened.
-/

namespace DistributedDb
namespace Interleaving

inductive Op where
  | put (key value : Bytes)
  | del (key : Bytes)
  | putBatch (pairs : List (Bytes × Bytes))
  deriving DecidableEq, Repr

namespace Op

/-- The map update of an operation. -/
def update (s : Store) : Op → Store
  | .put key value => s.insert key value
  | .del key => s.erase key
  | .putBatch pairs => s.insertAll pairs

/-- The records the operation still has to append after its map update.  A
delete that found nothing appends nothing. -/
def records (s : Store) : Op → List WalRecord
  | .put key value => [{ op := .put, key := key, value := value }]
  | .del key =>
    match s.lookup key with
    | none => []
    | some _ => [{ op := .del, key := key, value := [] }]
  | .putBatch pairs => pairs.map fun p => { op := .put, key := p.1, value := p.2 }

theorem records_del_of_none {s : Store} {key : Bytes} (h : s.lookup key = none) :
    (Op.del key).records s = [] := by
  simp only [records, h]

theorem records_del_of_some {s : Store} {key value : Bytes} (h : s.lookup key = some value) :
    (Op.del key).records s = [{ op := .del, key := key, value := [] }] := by
  simp only [records, h]

/-- Keys and values free of the separators of the log. -/
def Clean : Op → Prop
  | .put key value => Wal.Clean key ∧ Wal.Clean value
  | .del key => Wal.Clean key
  | .putBatch pairs => ∀ p ∈ pairs, Wal.Clean p.1 ∧ Wal.Clean p.2

end Op

structure State where
  engine : StorageEngine
  /-- What each thread has yet to append. -/
  pending : Nat → List WalRecord
  /-- The records of the map updates so far. -/
  updated : List WalRecord
  /-- The records appended so far. -/
  appended : List WalRecord

def start : State :=
  { engine := StorageEngine.start [] true, pending := fun _ => [], updated := [], appended := [] }

inductive Action where
  | update (thread : Nat) (op : Op)
  | append (thread : Nat) (now : Int)
  deriving DecidableEq, Repr

/-- The critical section under `rw_mutex_`. -/
def State.update (s : State) (thread : Nat) (op : Op) : State :=
  { s with
    engine := { s.engine with store := op.update s.engine.store }
    pending := Function.update s.pending thread (op.records s.engine.store)
    updated := s.updated ++ op.records s.engine.store }

/-- The critical section under `wal_mutex_`, for the first pending record. -/
def State.append (s : State) (thread : Nat) (r : WalRecord) (rest : List WalRecord) (now : Int) :
    State :=
  { s with
    engine := s.engine.appendWal r now
    pending := Function.update s.pending thread rest
    appended := s.appended ++ [r] }

/-- A thread begins an operation only when it has finished the one before. -/
def step (s : State) : Action → Option State
  | .update thread op => if s.pending thread = [] then some (s.update thread op) else none
  | .append thread now =>
    match s.pending thread with
    | [] => none
    | r :: rest => some (s.append thread r rest now)

theorem State.pending_update (s : State) (thread : Nat) (op : Op) :
    (s.update thread op).pending =
      Function.update s.pending thread (op.records s.engine.store) := rfl

theorem State.pending_append (s : State) (thread : Nat) (r : WalRecord) (rest : List WalRecord)
    (now : Int) :
    (s.append thread r rest now).pending = Function.update s.pending thread rest := rfl

/-- No operation is in progress. -/
def Idle (s : State) : Prop := ∀ thread, s.pending thread = []

def Action.Clean : Action → Prop
  | .update _ op => op.Clean
  | .append _ _ => True

instance (op : Op) : Decidable op.Clean :=
  match op with
  | .put _ _ => inferInstanceAs (Decidable (_ ∧ _))
  | .del _ => inferInstanceAs (Decidable (Wal.Clean _))
  | .putBatch _ => inferInstanceAs (Decidable (∀ p ∈ _, _))

instance (a : Action) : Decidable a.Clean :=
  match a with
  | .update _ op => inferInstanceAs (Decidable op.Clean)
  | .append _ _ => inferInstanceAs (Decidable True)

/-- Replaying the log into an empty map gives the map. -/
def LogAgrees (s : State) : Prop :=
  ∀ key, (Wal.recover ∅ s.engine.log).lookup key = s.engine.store.lookup key

/-! ## One operation alone

Taken without interruption, the two halves are the functions of the engine. -/

theorem put_eq_update_append (e : StorageEngine) (key value : Bytes) (now : Int) :
    e.put key value now =
      { e with store := (Op.put key value).update e.store }.appendWal
        { op := .put, key := key, value := value } now := rfl

theorem erase_of_lookup_eq_none {s : Store} {key : Bytes} (h : s.lookup key = none) :
    s.erase key = s := by
  refine AList.ext ?_
  show s.entries.kerase key = s.entries
  exact List.kerase_of_notMem_keys (AList.lookup_eq_none.mp h)

theorem del_eq_update_append (e : StorageEngine) (key : Bytes) (now : Int) :
    (e.del key now).2 =
      ((Op.del key).records e.store).foldl (fun e r => e.appendWal r now)
        { e with store := (Op.del key).update e.store } := by
  cases hb : e.store.lookup key with
  | none =>
    rw [Op.records_del_of_none hb, List.foldl_nil, Op.update, erase_of_lookup_eq_none hb]
    simp only [StorageEngine.del, hb]
  | some value =>
    rw [Op.records_del_of_some hb]
    simp only [StorageEngine.del, hb]
    rfl

/-! ## Operations as calls

What a call does to the map and which records it logs does not depend on its
time stamps. -/

def Op.call : Op → Call
  | .put key value => .put key value 0
  | .del key => .del key 0
  | .putBatch pairs => .putBatch pairs fun _ => 0

theorem Op.records_call (op : Op) (e : StorageEngine) :
    (op.call.records e).map Prod.fst = op.records e.store := by
  cases op with
  | put key value => rfl
  | del key =>
    simp only [Op.call, Call.records, Op.records]
    cases e.store.lookup key <;> rfl
  | putBatch pairs => exact Call.map_fst_batchRecords pairs _

theorem Op.store_call (op : Op) (e : StorageEngine) :
    (op.call.run e).store = op.update e.store := by
  cases op with
  | put key value => exact StorageEngine.appendWal_store _ _ _
  | del key =>
    simp only [Op.call, Call.run, Op.update, StorageEngine.del]
    cases hb : e.store.lookup key with
    | none => exact (erase_of_lookup_eq_none hb).symm
    | some value => exact StorageEngine.appendWal_store _ _ _
  | putBatch pairs => exact StorageEngine.appendBatch_store _ _ _

/-! ## What every interleaving keeps -/

/-- The map update of an operation is the effect of its records. -/
theorem view_update (s : Store) (op : Op) :
    Store.view (op.update s) =
      Write.applyAll (Store.view s) ((op.records s).map WalRecord.write) := by
  have hview := StorageEngine.view_run { StorageEngine.start [] true with store := s } op.call
  rw [op.store_call] at hview
  rw [hview, ← op.records_call { StorageEngine.start [] true with store := s }, List.map_map]
  rfl

theorem clean_records {s : Store} {op : Op} (h : op.Clean) : ∀ r ∈ op.records s, r.Clean := by
  have hcall : ∀ q ∈ op.call.records { StorageEngine.start [] true with store := s },
      q.1.Clean := by
    apply StorageEngine.clean_records_of_del
    · intro key now value hdel _
      cases op with
      | del key' => exact (Call.del.inj hdel).1 ▸ h
      | _ => exact absurd hdel (by simp [Op.call])
    · intro p hp
      cases op with
      | put key value => exact List.mem_singleton.mp hp ▸ h
      | del key => exact absurd hp List.not_mem_nil
      | putBatch pairs => exact h p hp
  intro r hr
  rw [← op.records_call { StorageEngine.start [] true with store := s }] at hr
  obtain ⟨q, hq, rfl⟩ := List.mem_map.mp hr
  exact hcall q hq

structure Inv (s : State) : Prop where
  opened : s.engine.isOpen = true
  /-- The log is the appended records, each with its time stamp. -/
  log : ∃ rs : List (WalRecord × Int),
    s.engine.log = Wal.formatAll rs ∧ rs.map Prod.fst = s.appended
  /-- The map is what the map updates leave. -/
  store : Store.view s.engine.store =
    Write.applyAll (fun _ => none) (s.updated.map WalRecord.write)
  cleanAppended : ∀ r ∈ s.appended, r.Clean
  cleanPending : ∀ thread, ∀ r ∈ s.pending thread, r.Clean
  /-- Nothing is appended that was not updated before. -/
  appendedUpdated : ∀ r ∈ s.appended, r ∈ s.updated
  pendingUpdated : ∀ thread, ∀ r ∈ s.pending thread, r ∈ s.updated
  /-- Every map update has its record appended or still pending. -/
  accounted : ∀ r ∈ s.updated, r ∈ s.appended ∨ ∃ thread, r ∈ s.pending thread

theorem inv_start : Inv start where
  opened := rfl
  log := ⟨[], rfl, rfl⟩
  store := rfl
  cleanAppended := by simp [start]
  cleanPending := by simp [start]
  appendedUpdated := by simp [start]
  pendingUpdated := by simp [start]
  accounted := by simp [start]

theorem inv_update {s : State} (h : Inv s) {thread : Nat} {op : Op} (hop : op.Clean)
    (hidle : s.pending thread = []) :
    Inv (s.update thread op) where
  opened := h.opened
  log := h.log
  store := by
    show Store.view (op.update s.engine.store) =
      Write.applyAll _ ((s.updated ++ op.records s.engine.store).map WalRecord.write)
    rw [view_update, h.store, List.map_append, Write.applyAll_append]
  cleanAppended := h.cleanAppended
  cleanPending := by
    intro t r hr
    by_cases ht : t = thread
    · subst ht
      rw [State.pending_update, Function.update_self] at hr
      exact clean_records hop r hr
    · rw [State.pending_update, Function.update_of_ne ht] at hr
      exact h.cleanPending t r hr
  appendedUpdated := fun r hr => List.mem_append_left _ (h.appendedUpdated r hr)
  pendingUpdated := by
    intro t r hr
    by_cases ht : t = thread
    · subst ht
      rw [State.pending_update, Function.update_self] at hr
      exact List.mem_append_right _ hr
    · rw [State.pending_update, Function.update_of_ne ht] at hr
      exact List.mem_append_left _ (h.pendingUpdated t r hr)
  accounted := by
    intro r hr
    rcases List.mem_append.mp hr with hr | hr
    · rcases h.accounted r hr with hr | ⟨t, hr⟩
      · exact Or.inl hr
      · have ht : t ≠ thread := by
          intro e
          rw [e, hidle] at hr
          exact absurd hr List.not_mem_nil
        exact Or.inr ⟨t, by rwa [State.pending_update, Function.update_of_ne ht]⟩
    · exact Or.inr ⟨thread, by rwa [State.pending_update, Function.update_self]⟩

theorem inv_append {s : State} (h : Inv s) {thread : Nat} {r : WalRecord}
    {rest : List WalRecord} (hp : s.pending thread = r :: rest) (now : Int) :
    Inv (s.append thread r rest now) where
  opened := by
    simp [State.append, StorageEngine.appendWal, h.opened]
  log := by
    obtain ⟨rs, hlog, hrs⟩ := h.log
    refine ⟨rs ++ [(r, now)], ?_, by simp [State.append, hrs]⟩
    simp [State.append, StorageEngine.appendWal, h.opened, hlog, Wal.formatAll]
  store := by
    simp only [State.append, StorageEngine.appendWal, h.opened, if_true]
    exact h.store
  cleanAppended := by
    intro q hq
    rcases List.mem_append.mp hq with hq | hq
    · exact h.cleanAppended q hq
    · rw [List.mem_singleton.mp hq]
      exact h.cleanPending thread r (hp ▸ List.mem_cons_self)
  cleanPending := by
    intro t q hq
    by_cases ht : t = thread
    · subst ht
      rw [State.pending_append, Function.update_self] at hq
      exact h.cleanPending t q (hp ▸ List.mem_cons_of_mem r hq)
    · rw [State.pending_append, Function.update_of_ne ht] at hq
      exact h.cleanPending t q hq
  appendedUpdated := by
    intro q hq
    rcases List.mem_append.mp hq with hq | hq
    · exact h.appendedUpdated q hq
    · rw [List.mem_singleton.mp hq]
      exact h.pendingUpdated thread r (hp ▸ List.mem_cons_self)
  pendingUpdated := by
    intro t q hq
    by_cases ht : t = thread
    · subst ht
      rw [State.pending_append, Function.update_self] at hq
      exact h.pendingUpdated t q (hp ▸ List.mem_cons_of_mem r hq)
    · rw [State.pending_append, Function.update_of_ne ht] at hq
      exact h.pendingUpdated t q hq
  accounted := by
    intro q hq
    rcases h.accounted q hq with hq | ⟨t, ht'⟩
    · exact Or.inl (List.mem_append_left _ hq)
    · by_cases ht : t = thread
      · subst ht
        rw [hp] at ht'
        rcases List.mem_cons.mp ht' with rfl | ht'
        · exact Or.inl (List.mem_append_right _ (List.mem_singleton.mpr rfl))
        · exact Or.inr ⟨t, by rwa [State.pending_append, Function.update_self]⟩
      · exact Or.inr ⟨t, by rwa [State.pending_append, Function.update_of_ne ht]⟩

theorem inv_step (s : State) (a : Action) (s' : State) (ha : a.Clean) (h : Inv s)
    (hs : step s a = some s') : Inv s' := by
  cases a with
  | update thread op =>
    by_cases hidle : s.pending thread = []
    · rw [step, if_pos hidle] at hs
      rw [← Option.some.inj hs]
      exact inv_update h ha hidle
    · rw [step, if_neg hidle] at hs
      exact absurd hs (by simp)
  | append thread now =>
    cases hp : s.pending thread with
    | nil => simp [step, hp] at hs
    | cons r rest =>
      simp only [step, hp, Option.some.injEq] at hs
      rw [← hs]
      exact inv_append h hp now

theorem inv_exec {actions : List Action} {s : State} (hclean : ∀ a ∈ actions, a.Clean)
    (hrun : Runs.exec step start actions = some s) : Inv s :=
  Runs.exec_invariant inv_step inv_start hclean hrun

/-! ## When the log agrees with the map -/

theorem view_recover_log {s : State} (h : Inv s) :
    Store.view (Wal.recover ∅ s.engine.log) =
      Write.applyAll (fun _ => none) (s.appended.map WalRecord.write) := by
  obtain ⟨rs, hlog, hrs⟩ := h.log
  have hclean : ∀ p ∈ rs, p.1.Clean := by
    intro p hp
    exact h.cleanAppended p.1 (hrs ▸ List.mem_map_of_mem hp)
  rw [Wal.view_recover, hlog, Wal.records_formatAll hclean, hrs]
  rfl

/-- With nothing in progress, the keys that were updated are the keys that were
appended. -/
theorem last_eq_none_iff_of_idle {s : State} (h : Inv s) (hidle : Idle s) (key : Bytes) :
    Write.last key (s.updated.map WalRecord.write) = none ↔
      Write.last key (s.appended.map WalRecord.write) = none := by
  rw [Write.last_eq_none_iff, Write.last_eq_none_iff]
  constructor
  · intro hu w hw
    obtain ⟨r, hr, rfl⟩ := List.mem_map.mp hw
    exact hu _ (List.mem_map_of_mem (h.appendedUpdated r hr))
  · intro ha w hw
    obtain ⟨r, hr, rfl⟩ := List.mem_map.mp hw
    rcases h.accounted r hr with hr | ⟨t, hr⟩
    · exact ha _ (List.mem_map_of_mem hr)
    · rw [hidle t] at hr
      exact absurd hr List.not_mem_nil

theorem logAgrees_iff_last {s : State} (h : Inv s) (hidle : Idle s) :
    LogAgrees s ↔ ∀ key, Write.last key (s.updated.map WalRecord.write) =
      Write.last key (s.appended.map WalRecord.write) := by
  have hstore := h.store
  have hlog := view_recover_log h
  constructor
  · intro hagree key
    have hkey : Store.view (Wal.recover ∅ s.engine.log) key = Store.view s.engine.store key :=
      hagree key
    rw [hstore, hlog, Write.applyAll_eq_last, Write.applyAll_eq_last] at hkey
    have hnone := last_eq_none_iff_of_idle h hidle key
    cases hu : Write.last key (s.updated.map WalRecord.write) with
    | none => exact (hnone.mp hu).symm
    | some u =>
      cases ha : Write.last key (s.appended.map WalRecord.write) with
      | none => exact absurd (hnone.mpr ha) (by simp [hu])
      | some v =>
        rw [hu, ha, Option.getD_some, Option.getD_some] at hkey
        rw [hkey]
  · intro hlast key
    show Store.view (Wal.recover ∅ s.engine.log) key = Store.view s.engine.store key
    rw [hstore, hlog, Write.applyAll_eq_last, Write.applyAll_eq_last, hlast key]

/-- For each key, the records were appended in the order of their map updates. -/
def AppendedInOrder (s : State) : Prop :=
  ∀ key, s.updated.filter (fun r => decide (r.key = key)) =
    s.appended.filter (fun r => decide (r.key = key))

theorem last_map_write (key : Bytes) (rs : List WalRecord) :
    Write.last key (rs.map WalRecord.write) =
      ((rs.filter fun r => decide (r.key = key)).map fun r => r.write.value).getLast? := by
  rw [Write.last, List.filter_map, List.getLast?_map, List.getLast?_map, Option.map_map]
  have hkey : ((fun w : Write Bytes Bytes => decide (w.key = key)) ∘ WalRecord.write) =
      fun r => decide (r.key = key) := by
    funext r
    simp
  rw [hkey]
  rfl

/-- After any interleaving, once no operation is in progress, the log agrees with
the map exactly when for every key the record appended last does what the last
map update did; in particular it does when the records of each key were appended
in the order of their map updates. -/
theorem log_agrees_with_map_iff (actions : List Action) (s : State)
    (hclean : ∀ a ∈ actions, a.Clean) (hrun : Runs.exec step start actions = some s)
    (hidle : Idle s) :
    (LogAgrees s ↔ ∀ key, Write.last key (s.updated.map WalRecord.write) =
      Write.last key (s.appended.map WalRecord.write)) ∧
    (AppendedInOrder s → LogAgrees s) := by
  have hinv := inv_exec hclean hrun
  have hiff := logAgrees_iff_last hinv hidle
  refine ⟨hiff, fun horder => hiff.mpr fun key => ?_⟩
  rw [last_map_write, last_map_write, horder key]

/-- Two threads put one key and append in the order of their map updates. -/
def orderedAppends : List Action :=
  [.update 0 (.put (ascii "k") (ascii "a")), .append 0 1,
   .update 1 (.put (ascii "k") (ascii "b")), .append 1 2]

/-- The second thread appends between the two halves of the first. -/
def crossedAppends : List Action :=
  [.update 0 (.put (ascii "k") (ascii "a")), .update 1 (.put (ascii "k") (ascii "b")),
   .append 1 1, .append 0 2]

theorem idle_of_updates {f : Nat → List WalRecord} (h0 : f 0 = []) (h1 : f 1 = [])
    (h : ∀ t, t ≠ 0 → t ≠ 1 → f t = []) : ∀ t, f t = [] := by
  intro t
  by_cases ht0 : t = 0
  · rw [ht0, h0]
  · by_cases ht1 : t = 1
    · rw [ht1, h1]
    · exact h t ht0 ht1

theorem log_agrees_ordered_appends :
    ∃ s, Runs.exec step start orderedAppends = some s ∧ Idle s ∧ LogAgrees s := by
  have hidle : ∀ s, Runs.exec step start orderedAppends = some s → Idle s := by
    intro s hs thread
    rw [← Option.some.inj hs]
    simp [State.update, State.append, start]
  exact ⟨_, rfl, hidle _ rfl,
    (log_agrees_with_map_iff orderedAppends _ (by decide) rfl (hidle _ rfl)).2 fun _ => rfl⟩

theorem log_disagrees_crossed_appends :
    (∀ a ∈ crossedAppends, a.Clean) ∧
    ∃ s, Runs.exec step start crossedAppends = some s ∧ Idle s ∧ ¬ LogAgrees s := by
  refine ⟨by decide, _, rfl, ?idle, ?disagrees⟩
  case idle =>
    refine idle_of_updates rfl rfl fun t h0 h1 => ?_
    simp [State.update, State.append, Function.update, h0, h1, start]
  case disagrees =>
    intro h
    exact absurd (h (ascii "k")) (by decide)

end Interleaving
end DistributedDb
