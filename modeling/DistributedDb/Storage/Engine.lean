import DistributedDb.Types
import DistributedDb.Lib.Getline
import DistributedDb.Lib.LastWrite
import Mathlib.Data.List.AList

/-
The storage engine: an in-memory map and an append-only log.

Every mutation updates the map first and appends its record to the log in a
second critical section.  A record is one line, `OP|key|value|timestamp`, with
the key and the value written as they are.  Opening an engine replays the log
line by line into an empty map.
-/

namespace DistributedDb

open Getline

/-- `store_`.  The order of the entries is the iteration order of the hash map,
which nothing below depends on. -/
abbrev Store := AList fun _ : Bytes => Bytes

/-- `for (auto& [k, v] : pairs) store_[k] = v;` -/
def Store.insertAll (s : Store) (pairs : List (Bytes × Bytes)) : Store :=
  pairs.foldl (fun (s : Store) (p : Bytes × Bytes) => s.insert p.1 p.2) s

inductive WalOp where
  | put
  | del
  deriving DecidableEq, Repr

def WalOp.text : WalOp → Bytes
  | .put => ascii "PUT"
  | .del => ascii "DEL"

structure WalRecord where
  op : WalOp
  key : Bytes
  value : Bytes
  deriving DecidableEq, Repr

namespace Wal

/-- The field separator `|`. -/
def bar : UInt8 := 124

/-- The record separator. -/
def newline : UInt8 := 10

/-- One line of the log without its newline. -/
def line (r : WalRecord) (now : Int) : Bytes :=
  r.op.text ++ [bar] ++ r.key ++ [bar] ++ r.value ++ [bar] ++ ascii (toString now)

/-- What `append_wal` writes: `OP|key|value|timestamp_ms` and a newline. -/
def format (r : WalRecord) (now : Int) : Bytes := line r now ++ [newline]

/-- The three `getline` calls on a line and the test of the operation name.  A
line that is empty, runs out of fields or names no operation is skipped. -/
def parseLine (text : Bytes) : Option WalRecord :=
  if text = [] then none
  else
    match getline bar text with
    | none => none
    | some (op, text) =>
      match getline bar text with
      | none => none
      | some (key, text) =>
        match getline bar text with
        | none => none
        | some (value, _) =>
          if op = WalOp.put.text then some { op := .put, key := key, value := value }
          else if op = WalOp.del.text then some { op := .del, key := key, value := value }
          else none

def replay (s : Store) (r : WalRecord) : Store :=
  match r.op with
  | .put => s.insert r.key r.value
  | .del => s.erase r.key

def replayLine (s : Store) (text : Bytes) : Store :=
  match parseLine text with
  | none => s
  | some r => replay s r

/-- `recover()` on the bytes of the log file.  A file that does not exist reads
as an empty one. -/
def recover (s : Store) (file : Bytes) : Store := (getlines newline file).foldl replayLine s

end Wal

structure StorageEngine where
  store : Store
  /-- The bytes of the file at `wal_path_`; every append is flushed. -/
  log : Bytes
  /-- `wal_file_.is_open()`; an engine whose log cannot be opened runs without
  persistence. -/
  isOpen : Bool

namespace StorageEngine

/-- The constructor: replay the file, then open it for appending. -/
def start (file : Bytes) (opened : Bool) : StorageEngine :=
  { store := Wal.recover ∅ file, log := file, isOpen := opened }

def appendWal (e : StorageEngine) (r : WalRecord) (now : Int) : StorageEngine :=
  if e.isOpen then { e with log := e.log ++ Wal.format r now } else e

def put (e : StorageEngine) (key value : Bytes) (now : Int) : StorageEngine :=
  { e with store := e.store.insert key value }.appendWal
    { op := .put, key := key, value := value } now

def get (e : StorageEngine) (key : Bytes) : Option Bytes := e.store.lookup key

def del (e : StorageEngine) (key : Bytes) (now : Int) : Bool × StorageEngine :=
  match e.store.lookup key with
  | none => (false, e)
  | some _ =>
    (true, { e with store := e.store.erase key }.appendWal
      { op := .del, key := key, value := [] } now)

def getAllPairs (e : StorageEngine) : List (Bytes × Bytes) :=
  e.store.entries.map fun p : (_ : Bytes) × Bytes => (p.1, p.2)

/-- The loop of `put_batch` over the log; `now i` is the clock at its `i`-th
append. -/
def appendBatch (e : StorageEngine) : List (Bytes × Bytes) → (Nat → Int) → StorageEngine
  | [], _ => e
  | p :: rest, now =>
    (e.appendWal { op := .put, key := p.1, value := p.2 } (now 0)).appendBatch rest
      fun i => now (i + 1)

def putBatch (e : StorageEngine) (pairs : List (Bytes × Bytes)) (now : Nat → Int) :
    StorageEngine :=
  { e with store := e.store.insertAll pairs }.appendBatch pairs now

def size (e : StorageEngine) : Nat := e.store.entries.length

@[simp] theorem appendWal_store (e : StorageEngine) (r : WalRecord) (now : Int) :
    (e.appendWal r now).store = e.store := by
  unfold appendWal
  split <;> rfl

theorem get_put (e : StorageEngine) (key value : Bytes) (now : Int) (k : Bytes) :
    (e.put key value now).get k = if k = key then some value else e.get k := by
  rw [get, put, appendWal_store]
  by_cases h : k = key
  · subst h
    simp
  · rw [if_neg h, AList.lookup_insert_ne h, get]

theorem get_del (e : StorageEngine) (key : Bytes) (now : Int) (k : Bytes) :
    (e.del key now).2.get k = if k = key then none else e.get k := by
  rw [del]
  cases hl : e.store.lookup key with
  | none =>
    by_cases h : k = key
    · subst h
      simpa [get] using hl
    · rw [if_neg h]
  | some v =>
    rw [get, appendWal_store]
    by_cases h : k = key
    · subst h
      simp
    · rw [if_neg h, AList.lookup_erase_ne h, get]

theorem mem_getAllPairs {e : StorageEngine} {k v : Bytes} :
    (k, v) ∈ e.getAllPairs ↔ e.get k = some v := by
  have hlookup : e.get k = some v ↔ (⟨k, v⟩ : (_ : Bytes) × Bytes) ∈ e.store.entries :=
    AList.mem_lookup_iff
  rw [hlookup, getAllPairs, List.mem_map]
  constructor
  · intro h
    obtain ⟨⟨k', v'⟩, hmem, heq⟩ := h
    obtain ⟨rfl, rfl⟩ := Prod.mk.inj heq
    exact hmem
  · exact fun h => ⟨_, h, rfl⟩

@[simp] theorem appendBatch_store (e : StorageEngine) (pairs : List (Bytes × Bytes))
    (now : Nat → Int) : (e.appendBatch pairs now).store = e.store := by
  induction pairs generalizing e now with
  | nil => rfl
  | cons p rest ih => rw [appendBatch, ih, appendWal_store]

theorem lookup_insertAll {s : Store} {pairs : List (Bytes × Bytes)} {k v : Bytes}
    (honly : ∀ p ∈ pairs, p.1 = k → p.2 = v) (h : (k, v) ∈ pairs ∨ s.lookup k = some v) :
    (s.insertAll pairs).lookup k = some v := by
  induction pairs generalizing s with
  | nil => exact h.resolve_left List.not_mem_nil
  | cons p rest ih =>
    refine ih (fun q hq => honly q (List.mem_cons_of_mem p hq)) ?_
    by_cases hp : p.1 = k
    · right
      show (s.insert p.1 p.2).lookup k = some v
      rw [hp, honly p List.mem_cons_self hp]
      exact AList.lookup_insert s
    · rcases h with h | h
      · left
        rcases List.mem_cons.mp h with rfl | h
        · exact absurd rfl hp
        · exact h
      · right
        show (s.insert p.1 p.2).lookup k = some v
        rw [AList.lookup_insert_ne (Ne.symm hp)]
        exact h

theorem get_putBatch {e : StorageEngine} {pairs : List (Bytes × Bytes)} {k v : Bytes}
    (hmem : (k, v) ∈ pairs) (honly : ∀ p ∈ pairs, p.1 = k → p.2 = v) (now : Nat → Int) :
    (e.putBatch pairs now).get k = some v := by
  rw [get, putBatch, appendBatch_store]
  exact lookup_insertAll honly (Or.inl hmem)

end StorageEngine

/-! ## The map behind the store -/

/-- The contents of a store as a function. -/
def Store.view (s : Store) : Bytes → Option Bytes := fun k => s.lookup k

namespace WalRecord

/-- The effect of replaying a record. -/
def write (r : WalRecord) : Write Bytes Bytes :=
  match r.op with
  | .put => { key := r.key, value := some r.value }
  | .del => { key := r.key, value := none }

@[simp] theorem write_key (r : WalRecord) : r.write.key = r.key := by
  unfold write
  split <;> rfl

end WalRecord

theorem Store.view_insert (s : Store) (key value : Bytes) :
    Store.view (s.insert key value) = Write.applyTo (Store.view s) ⟨key, some value⟩ := by
  funext k
  by_cases h : k = key
  · subst h
    simp [Store.view, Write.applyTo]
  · simp [Store.view, Write.applyTo, Function.update_of_ne h, AList.lookup_insert_ne h]

theorem Store.view_erase (s : Store) (key : Bytes) :
    Store.view (s.erase key) = Write.applyTo (Store.view s) ⟨key, none⟩ := by
  funext k
  by_cases h : k = key
  · subst h
    simp [Store.view, Write.applyTo]
  · simp [Store.view, Write.applyTo, Function.update_of_ne h, AList.lookup_erase_ne h]

@[simp] theorem Store.view_empty : Store.view ∅ = fun _ => none := rfl

theorem Wal.view_replay (s : Store) (r : WalRecord) :
    Store.view (Wal.replay s r) = Write.applyTo (Store.view s) r.write := by
  cases hop : r.op with
  | put => simpa [Wal.replay, WalRecord.write, hop] using Store.view_insert s r.key r.value
  | del => simpa [Wal.replay, WalRecord.write, hop] using Store.view_erase s r.key

/-- Replaying a file applies the records of its lines in order. -/
theorem Wal.view_recover (s : Store) (file : Bytes) :
    Store.view (Wal.recover s file) =
      Write.applyAll (Store.view s)
        (((getlines Wal.newline file).filterMap Wal.parseLine).map WalRecord.write) := by
  unfold Wal.recover
  induction getlines Wal.newline file generalizing s with
  | nil => rfl
  | cons text rest ih =>
    rw [List.foldl_cons, ih, Wal.replayLine]
    cases hp : Wal.parseLine text with
    | none => rw [List.filterMap_cons_none hp]
    | some r =>
      rw [List.filterMap_cons_some hp, List.map_cons, Wal.view_replay]
      rfl

end DistributedDb
