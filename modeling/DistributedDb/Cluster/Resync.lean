import DistributedDb.Cluster.RejoinRuns

/-
The data exchange of a node that restarts.

The node asks a peer for its data.  The peer takes a snapshot of its store, and
the node puts every pair of it into its own, next to whatever it has recovered
from its log or written in the meantime.  Nothing in a snapshot says that a key
was deleted, and nothing in a pair says how old it is.
-/

namespace DistributedDb
namespace Resync

open Coordinator Rejoin Cluster

/-! ## Steps that touch a key -/

/-- The next call of the program puts a value under `k`. -/
def Puts (k : Bytes) : Prog → Prop
  | .storagePut key _ _ => key = k
  | .storagePutBatch pairs _ => ∃ v, (k, v) ∈ pairs
  | _ => False

/-- The next call of the program deletes `k`. -/
def Deletes (k : Bytes) : Prog → Prop
  | .storageDel key _ => key = k
  | _ => False

/-- The action puts a value under `k` at node `i`, or replaces its whole store. -/
def Stores (i : Int) (k : Bytes) (m : Machine) : Action → Prop
  | .run t => ∃ th, m.threads t = some th ∧ th.node = i ∧ Puts k th.prog
  | .restart self _ => self.id = i
  | _ => False

/-- The action deletes `k` at node `i`. -/
def Erases (i : Int) (k : Bytes) (m : Machine) : Action → Prop
  | .run t => ∃ th, m.threads t = some th ∧ th.node = i ∧ Deletes k th.prog
  | _ => False

theorem get_putBatch_of_lacks (e : StorageEngine) {pairs : List (Bytes × Bytes)} {k : Bytes}
    (h : ¬ ∃ v, (k, v) ∈ pairs) (now : Nat → Int) : (e.putBatch pairs now).get k = e.get k := by
  have hall : ∀ (pairs : List (Bytes × Bytes)) (s : Store), (¬ ∃ v, (k, v) ∈ pairs) →
      (s.insertAll pairs).lookup k = s.lookup k := by
    intro pairs
    induction pairs with
    | nil => exact fun s _ => rfl
    | cons p rest ih =>
      intro s h
      have hp : k ≠ p.1 := fun hp => h ⟨p.2, by rw [hp]; exact List.mem_cons_self⟩
      have hrest := ih (s.insert p.1 p.2) fun ⟨v, hv⟩ => h ⟨v, List.mem_cons_of_mem p hv⟩
      exact hrest.trans (AList.lookup_insert_ne hp)
  rw [StorageEngine.get, StorageEngine.putBatch, StorageEngine.appendBatch_store]
  exact hall pairs e.store h

/-- What one call does to the value of a key. -/
theorem get_perform {p rest : Prog} {me : Int} {n n' : Node} {sent : List Packet} {k : Bytes}
    (hp : p.perform me n = .continues n' rest sent) (hputs : ¬ Puts k p) :
    (Deletes k p ∧ n'.storage.get k = none) ∨
      (¬ Deletes k p ∧ n'.storage.get k = n.storage.get k) := by
  cases p with
  | done reply => simp [Prog.perform] at hp
  | sendMessage host port msg next => simp [Prog.perform] at hp
  | storagePut key value next =>
    simp only [Prog.perform, Outcome.continues.injEq] at hp
    have hne : k ≠ key := fun h => hputs h.symm
    refine Or.inr ⟨id, ?_⟩
    rw [← hp.1, StorageEngine.get_put, if_neg hne]
  | storageDel key next =>
    simp only [Prog.perform, Outcome.continues.injEq] at hp
    rw [← hp.1, StorageEngine.get_del]
    by_cases hkey : key = k
    · exact Or.inl ⟨hkey, if_pos hkey.symm⟩
    · exact Or.inr ⟨hkey, if_neg fun h => hkey h.symm⟩
  | storagePutBatch pairs next =>
    simp only [Prog.perform, Outcome.continues.injEq] at hp
    refine Or.inr ⟨id, ?_⟩
    rw [← hp.1]
    exact get_putBatch_of_lacks _ hputs _
  | _ =>
    simp only [Prog.perform, Outcome.continues.injEq] at hp
    exact Or.inr ⟨id, hp.1 ▸ rfl⟩

theorem not_erases_run {m : Machine} {t : Nat} {th : Thread} (ht : m.threads t = some th) {i : Int}
    {k : Bytes} (h : ¬ (th.node = i ∧ Deletes k th.prog)) : ¬ Erases i k m (.run t) := by
  intro herases
  obtain ⟨th', hth', hnode, hdel⟩ := herases
  obtain rfl := Option.some.inj (ht.symm.trans hth')
  exact h ⟨hnode, hdel⟩

/-- What one step does to the value of a key, when it does not put one. -/
theorem get_step {m m' : Machine} {a : Action} {i : Int} {k : Bytes}
    (hstep : m.step a = some m') (hstores : ¬ Stores i k m a) :
    (Erases i k m a ∧ (m'.cluster.node i).storage.get k = none) ∨
      (¬ Erases i k m a ∧
        (m'.cluster.node i).storage.get k = (m.cluster.node i).storage.get k) := by
  cases a with
  | run t =>
    obtain ⟨th, ht, rfl⟩ := Option.map_eq_some_iff.mp hstep
    unfold Machine.runThread
    cases hperf : th.prog.perform th.node (m.cluster.node th.node) with
    | finished reply =>
      refine Or.inr ⟨not_erases_run ht fun h => ?_, ?_⟩
      · rw [eq_done_of_perform hperf] at h
        exact h.2
      · cases th.callers with
        | nil => rfl
        | cons caller rest => rfl
    | calls host port msg next =>
      refine Or.inr ⟨not_erases_run ht fun h => ?_, ?_⟩
      · rw [eq_sendMessage_of_perform hperf] at h
        exact h.2
      · dsimp only
        cases m.cluster.listener host port with
        | none => rfl
        | some j => rfl
    | continues n rest sent =>
      show _ ∧ (((m.cluster.setNode th.node n).send sent).node i).storage.get k = none ∨
        _ ∧ (((m.cluster.setNode th.node n).send sent).node i).storage.get k = _
      rw [send_node]
      by_cases hi : i = th.node
      · subst hi
        rw [setNode_node_self]
        rcases get_perform hperf fun h => hstores ⟨th, ht, rfl, h⟩ with ⟨hdel, hget⟩ | ⟨hdel, hget⟩
        · exact Or.inl ⟨⟨th, ht, rfl, hdel⟩, hget⟩
        · exact Or.inr ⟨not_erases_run ht fun h => hdel h.2, hget⟩
      · rw [setNode_node_of_ne m.cluster n hi]
        exact Or.inr ⟨not_erases_run ht fun h => hi h.1.symm, rfl⟩
  | deliver packet again =>
    obtain ⟨-, _, _, -, -, rfl⟩ := Machine.exists_of_step_deliver hstep
    exact Or.inr ⟨id, rfl⟩
  | tick j now =>
    obtain rfl := Option.some.inj hstep
    refine Or.inr ⟨id, ?_⟩
    show ((m.cluster.setNode j _).node i).storage.get k = _
    by_cases hi : i = j
    · subst hi
      rw [setNode_node_self]
    · rw [setNode_node_of_ne m.cluster _ hi]
  | restart self peers =>
    obtain rfl := Option.some.inj hstep
    refine Or.inr ⟨id, ?_⟩
    show ((Machine.restartNode m.cluster self peers).node i).storage.get k = _
    rw [Machine.restartNode_node_of_ne m.cluster peers fun h => hstores h.symm]
  | invoke j msg =>
    obtain rfl := Option.some.inj hstep
    exact Or.inr ⟨id, rfl⟩
  | lose packet =>
    obtain rfl := Option.some.inj hstep
    exact Or.inr ⟨id, rfl⟩
  | send packet =>
    obtain rfl := Option.some.inj hstep
    exact Or.inr ⟨id, rfl⟩
  | sync j peer =>
    obtain rfl := Option.some.inj hstep
    exact Or.inr ⟨id, rfl⟩

/-- A run that puts nothing under `k` at node `i`. -/
theorem get_exec {m m' : Machine} {actions : List Action} {i : Int} {k : Bytes}
    (hquiet : Runs.Along Machine.step (fun s a => ¬ Stores i k s a) m actions)
    (hrun : Runs.exec Machine.step m actions = some m') :
    (¬ Runs.Along Machine.step (fun s a => ¬ Erases i k s a) m actions ∧
        (m'.cluster.node i).storage.get k = none) ∨
      (Runs.Along Machine.step (fun s a => ¬ Erases i k s a) m actions ∧
        (m'.cluster.node i).storage.get k = (m.cluster.node i).storage.get k) := by
  induction actions generalizing m with
  | nil =>
    obtain rfl := Option.some.inj hrun
    exact Or.inr ⟨trivial, rfl⟩
  | cons a rest ih =>
    obtain ⟨s, hs, hrest⟩ := Runs.exec_cons.mp hrun
    rw [Runs.along_cons hs] at hquiet ⊢
    rcases ih hquiet.2 hrest with ⟨hsome, hnone⟩ | ⟨hno, hget⟩
    · exact Or.inl ⟨fun h => hsome h.2, hnone⟩
    · rcases get_step hs hquiet.1 with ⟨herases, hnone⟩ | ⟨herases, hsame⟩
      · exact Or.inl ⟨fun h => h.1 herases, hget.trans hnone⟩
      · exact Or.inr ⟨⟨herases, hno⟩, hget.trans hsame⟩

/-! ## The thread of the exchange -/

/-- The request of `P` has arrived at node `j`. -/
def asked (P : NodeInfo) (j : Int) : Thread :=
  { origin := none
    node := j
    prog := onMessage j (syncMsg P)
    callers := [{ node := P.id, next := afterSync }] }

/-- Node `j` is about to take its snapshot. -/
def reading (P : NodeInfo) (j : Int) : Thread := { asked P j with prog := handle j (syncMsg P) }

/-- Node `j` has taken its snapshot. -/
def replying (P : NodeInfo) (j : Int) (pairs : List (Bytes × Bytes)) : Thread :=
  { asked P j with
    prog := .done { type := .syncData, nodeId := j, kvPairs := pairs, success := true } }

/-- `P` is about to load the snapshot. -/
def applying (P : NodeInfo) (pairs : List (Bytes × Bytes)) : Thread :=
  { origin := none, node := P.id, prog := .storagePutBatch pairs (.done {}), callers := [] }

/-- `sync_from_peer` has nothing left to do. -/
def finished (P : NodeInfo) : Thread :=
  { origin := none, node := P.id, prog := .done {}, callers := [] }

/-- The thread after the snapshot, which meets `ok`. -/
inductive Late (P : NodeInfo) (j : Int) (ok : List (Bytes × Bytes) → Prop) : Option Thread → Prop
  | replying {pairs : List (Bytes × Bytes)} (h : ok pairs) :
    Late P j ok (some (replying P j pairs))
  | applying {pairs : List (Bytes × Bytes)} (h : ok pairs) : Late P j ok (some (applying P pairs))
  | finished : Late P j ok (some (finished P))
  | gone : Late P j ok none

theorem ok_of_late_applying {P : NodeInfo} {j : Int} {ok : List (Bytes × Bytes) → Prop}
    {pairs : List (Bytes × Bytes)} (h : Late P j ok (some (applying P pairs))) : ok pairs := by
  generalize hth : applying P pairs = th at h
  have hprog : Prog.storagePutBatch pairs (.done {}) = th.prog := congrArg Thread.prog hth
  cases h with
  | applying hok =>
    simp only [applying, Prog.storagePutBatch.injEq, and_true] at hprog
    rw [hprog]
    exact hok
  | replying hok => simp [replying] at hprog
  | finished => simp [finished] at hprog

theorem threads_spawn (m : Machine) {t : Nat} (hfresh : t < m.next) (th : Thread) :
    (m.spawn th).threads t = m.threads t :=
  Function.update_of_ne (by omega : t ≠ m.next) ..

/-- A step of another thread, or of no thread, leaves a thread as it is. -/
theorem threads_step {m m' : Machine} {a : Action} {t : Nat} (hfresh : t < m.next)
    (hstep : m.step a = some m') :
    t < m'.next ∧ (a ≠ .run t → m'.threads t = m.threads t) := by
  cases a with
  | run u =>
    obtain ⟨th, ht, rfl⟩ := Option.map_eq_some_iff.mp hstep
    have hother : ∀ th', Action.run u ≠ .run t →
        Function.update m.threads u th' t = m.threads t :=
      fun th' hne => Function.update_of_ne (fun h => hne (by rw [h])) ..
    unfold Machine.runThread
    cases hperf : th.prog.perform th.node (m.cluster.node th.node) with
    | finished reply =>
      cases th.callers with
      | nil => exact ⟨hfresh, hother _⟩
      | cons caller rest => exact ⟨hfresh, hother _⟩
    | continues n rest sent => exact ⟨hfresh, hother _⟩
    | calls host port msg next =>
      dsimp only
      cases m.cluster.listener host port with
      | none => exact ⟨hfresh, hother _⟩
      | some j => exact ⟨hfresh, hother _⟩
  | deliver packet again =>
    obtain ⟨-, _, _, -, -, rfl⟩ := Machine.exists_of_step_deliver hstep
    exact ⟨Nat.lt_succ_of_lt hfresh, fun _ => threads_spawn m hfresh _⟩
  | invoke j msg =>
    obtain rfl := Option.some.inj hstep
    exact ⟨Nat.lt_succ_of_lt hfresh, fun _ => threads_spawn m hfresh _⟩
  | sync j peer =>
    obtain rfl := Option.some.inj hstep
    exact ⟨Nat.lt_succ_of_lt hfresh, fun _ => threads_spawn m hfresh _⟩
  | lose packet =>
    obtain rfl := Option.some.inj hstep
    exact ⟨hfresh, fun _ => rfl⟩
  | send packet =>
    obtain rfl := Option.some.inj hstep
    exact ⟨hfresh, fun _ => rfl⟩
  | tick j now =>
    obtain rfl := Option.some.inj hstep
    exact ⟨hfresh, fun _ => rfl⟩
  | restart self peers =>
    obtain rfl := Option.some.inj hstep
    exact ⟨hfresh, fun _ => rfl⟩

section Exchange

variable {P : NodeInfo} {j : Int} {t : Nat} {ok : List (Bytes × Bytes) → Prop} {m m' : Machine}

theorem run_eq {th : Thread} (ht : m.threads t = some th) (hstep : m.step (.run t) = some m') :
    m' = m.runThread t th := by
  rw [Machine.step, ht, Option.map_some, Option.some.injEq] at hstep
  exact hstep.symm

/-- The snapshot is what the store of `j` holds. -/
theorem threads_of_reading (ht : m.threads t = some (reading P j))
    (hstep : m.step (.run t) = some m') :
    m'.threads t = some (replying P j (m.cluster.node j).storage.getAllPairs) := by
  rw [run_eq ht hstep]
  exact Function.update_self ..

/-- An empty snapshot is not loaded. -/
theorem threads_of_replying {pairs : List (Bytes × Bytes)}
    (ht : m.threads t = some (replying P j pairs)) (hstep : m.step (.run t) = some m') :
    m'.threads t = some (if pairs = [] then finished P else applying P pairs) := by
  let next : Prog := if pairs = [] then .done {} else .storagePutBatch pairs (.done {})
  have hthread : m'.threads t = some { finished P with prog := next } := by
    rw [run_eq ht hstep]
    exact Function.update_self ..
  rw [hthread]
  by_cases hnil : pairs = []
  · simp only [next, if_pos hnil]
    rfl
  · simp only [next, if_neg hnil]
    rfl

theorem threads_of_applying {pairs : List (Bytes × Bytes)}
    (ht : m.threads t = some (applying P pairs)) (hstep : m.step (.run t) = some m') :
    m'.threads t = some (finished P) := by
  rw [run_eq ht hstep]
  exact Function.update_self ..

theorem threads_of_finished (ht : m.threads t = some (finished P))
    (hstep : m.step (.run t) = some m') : m'.threads t = none := by
  rw [run_eq ht hstep]
  exact Function.update_self ..

theorem late_of_reading (ht : m.threads t = some (reading P j))
    (hok : ok (m.cluster.node j).storage.getAllPairs) (hstep : m.step (.run t) = some m') :
    Late P j ok (m'.threads t) := by
  rw [threads_of_reading ht hstep]
  exact .replying hok

theorem late_run (h : Late P j ok (m.threads t)) (hstep : m.step (.run t) = some m') :
    Late P j ok (m'.threads t) := by
  generalize ht : m.threads t = o at h
  cases h with
  | gone => simp [Machine.step, ht] at hstep
  | finished =>
    rw [threads_of_finished ht hstep]
    exact .gone
  | applying hok =>
    rw [threads_of_applying ht hstep]
    exact .finished
  | replying hok =>
    rw [threads_of_replying ht hstep]
    split
    · exact .finished
    · exact .applying hok

theorem late_step (hfresh : t < m.next) (h : Late P j ok (m.threads t)) {a : Action}
    (hstep : m.step a = some m') : t < m'.next ∧ Late P j ok (m'.threads t) := by
  obtain ⟨hfresh', hsame⟩ := threads_step hfresh hstep
  refine ⟨hfresh', ?_⟩
  by_cases ha : a = .run t
  · subst ha
    exact late_run h hstep
  · rw [hsame ha]
    exact h

theorem late_exec (hfresh : t < m.next) (h : Late P j ok (m.threads t)) {actions : List Action}
    (hrun : Runs.exec Machine.step m actions = some m') : Late P j ok (m'.threads t) := by
  have hall : ∀ a ∈ actions, (fun _ : Action => True) a := fun _ _ => trivial
  have hinv : t < m'.next ∧ Late P j ok (m'.threads t) :=
    Runs.exec_invariant (P := fun s => t < s.next ∧ Late P j ok (s.threads t))
      (fun s a s' _ hs hstep => late_step hs.1 hs.2 hstep) ⟨hfresh, h⟩ hall hrun
  exact hinv.2

end Exchange

/-! ## Writes that the snapshot does not know -/

/-- What a write leaves under its key. -/
def effect (msg : Message) : Option Bytes := if msg.type = .put then some msg.value else none

/-- In the run, `P` executes the write `msg` as the primary, and nothing touches
the key at `P` after that. -/
def LatestWrite (P : NodeInfo) (msg : Message) (m : Machine) (actions : List Action) : Prop :=
  ∃ (front back : List Action) (u : Nat) (s s' : Machine), actions = front ++ .run u :: back ∧
    Runs.exec Machine.step m front = some s ∧
    (∃ th, s.threads u = some th ∧ th.node = P.id ∧ th.prog = execute P.id msg) ∧
    s.step (.run u) = some s' ∧
    Runs.Along Machine.step
      (fun s a => ¬ Stores P.id msg.key s a ∧ ¬ Erases P.id msg.key s a) s' back

/-- An exchange of `P` with node `j`: the request is sent, `j` takes its snapshot
in the state `snap`, and `P` loads it in the state `ready`. -/
structure Exchanges (P : NodeInfo) (j : Int) (t : Nat) (sent snap ready loaded : Machine)
    (early late : List Action) : Prop where
  fresh : t < sent.next
  arrived : sent.threads t = some (asked P j)
  before : Runs.exec Machine.step sent early = some snap
  snapshot : snap.threads t = some (reading P j)
  after : Runs.exec Machine.step snap (.run t :: late) = some ready
  waiting : ∃ pairs, ready.threads t = some (applying P pairs)
  loads : ready.step (.run t) = some loaded

theorem fresh_exec {m m' : Machine} {t : Nat} (hfresh : t < m.next) {actions : List Action}
    (hrun : Runs.exec Machine.step m actions = some m') : t < m'.next := by
  have hall : ∀ a ∈ actions, (fun _ : Action => True) a := fun _ _ => trivial
  exact Runs.exec_invariant (P := fun s => t < s.next)
    (fun s a s' _ hs hstep => (threads_step hs hstep).1) hfresh hall hrun

/-- A loaded snapshot wins over what the node has. -/
theorem get_load (e f : StorageEngine) (now : Nat → Int) (k : Bytes) :
    (e.putBatch f.getAllPairs now).get k = (f.get k).or (e.get k) := by
  cases hf : f.get k with
  | none =>
    refine get_putBatch_of_lacks e (fun ⟨v, hv⟩ => ?_) now
    rw [StorageEngine.mem_getAllPairs, hf] at hv
    exact absurd hv (by simp)
  | some v =>
    refine StorageEngine.get_putBatch (StorageEngine.mem_getAllPairs.mpr hf) ?_ now
    intro p hp hkey
    have hget := StorageEngine.mem_getAllPairs.mp (show (p.1, p.2) ∈ f.getAllPairs from hp)
    rw [hkey, hf] at hget
    exact (Option.some.inj hget).symm

theorem get_loaded {P : NodeInfo} {j : Int} {t : Nat} {sent snap ready loaded : Machine}
    {early late : List Action} (h : Exchanges P j t sent snap ready loaded early late) (k : Bytes) :
    (loaded.cluster.node P.id).storage.get k =
      ((snap.cluster.node j).storage.get k).or ((ready.cluster.node P.id).storage.get k) := by
  obtain ⟨s, hs, hlate⟩ := Runs.exec_cons.mp h.after
  have hfresh := fresh_exec h.fresh h.before
  have htaken : Late P j (fun pairs => pairs = (snap.cluster.node j).storage.getAllPairs)
      (s.threads t) := late_of_reading h.snapshot rfl hs
  have hcarried := late_exec (threads_step hfresh hs).1 htaken hlate
  obtain ⟨pairs, hready⟩ := h.waiting
  rw [hready] at hcarried
  obtain rfl := ok_of_late_applying hcarried
  have hnode : (loaded.cluster.node P.id).storage =
      (ready.cluster.node P.id).storage.putBatch (snap.cluster.node j).storage.getAllPairs
        fun _ => (ready.cluster.node P.id).clock := by
    rw [run_eq hready h.loads]
    exact congrArg Node.storage (setNode_node_self ..)
  rw [hnode, get_load]

theorem perform_execute {msg : Message} (hmsg : msg.type = .put ∨ msg.type = .del) (i : Int)
    (n : Node) : ∃ n' rest, (execute i msg).perform i n = .continues n' rest [] ∧
      n'.storage.get msg.key = effect msg := by
  rcases hmsg with htype | htype
  · have hexec : execute i msg = executePut i msg := by simp only [execute, htype]
    rw [hexec]
    refine ⟨_, _, rfl, ?_⟩
    rw [StorageEngine.get_put, if_pos rfl, effect, if_pos htype]
  · have hexec : execute i msg = executeDelete i msg := by simp only [execute, htype]
    rw [hexec]
    refine ⟨_, _, rfl, ?_⟩
    rw [StorageEngine.get_del, if_pos rfl, effect, htype]
    rfl

theorem get_of_latestWrite {P : NodeInfo} {msg : Message} (hmsg : msg.type = .put ∨ msg.type = .del)
    {m m' : Machine} {actions : List Action} (h : LatestWrite P msg m actions)
    (hrun : Runs.exec Machine.step m actions = some m') :
    (m'.cluster.node P.id).storage.get msg.key = effect msg := by
  obtain ⟨front, back, u, s, s', rfl, hfront, ⟨th, hth, hnode, hprog⟩, hstep, hquiet⟩ := h
  obtain ⟨s₁, hs₁, hback⟩ := Runs.exec_append.mp hrun
  obtain rfl := Option.some.inj (hfront.symm.trans hs₁)
  obtain ⟨s₂, hs₂, hback⟩ := Runs.exec_cons.mp hback
  obtain rfl := Option.some.inj (hstep.symm.trans hs₂)
  have hkept : (m'.cluster.node P.id).storage.get msg.key =
      (s'.cluster.node P.id).storage.get msg.key := by
    have hstores := Runs.along_mono (fun s a hsa => hsa.1) hquiet
    have herases := Runs.along_mono (fun s a hsa => hsa.2) hquiet
    rcases get_exec hstores hback with ⟨hsome, -⟩ | ⟨-, hget⟩
    · exact absurd herases hsome
    · exact hget
  have hdone : (s'.cluster.node P.id).storage.get msg.key = effect msg := by
    obtain ⟨n, rest, hperf, hget⟩ := perform_execute hmsg P.id (s.cluster.node P.id)
    rw [← hprog, ← hnode] at hperf
    obtain ⟨s₃, hs₃, -, hcluster, -⟩ := Machine.exists_run_continues hth hperf
    obtain rfl := Option.some.inj (hstep.symm.trans hs₃)
    rw [hcluster, ← hnode, send_node, setNode_node_self, hget]
  exact hkept.trans hdone

/-- After the snapshot was loaded, the latest write of `P` is still there exactly
when the peer had nothing under the key at its snapshot, or the same value. -/
theorem snapshot_keeps_write_iff {P : NodeInfo} {j : Int} {t : Nat}
    {start sent snap ready loaded : Machine} {ahead early late : List Action}
    (hahead : Runs.exec Machine.step start ahead = some sent)
    (hex : Exchanges P j t sent snap ready loaded early late) {msg : Message}
    (hmsg : msg.type = .put ∨ msg.type = .del)
    (hwrite : LatestWrite P msg start (ahead ++ (early ++ .run t :: late))) :
    (loaded.cluster.node P.id).storage.get msg.key = effect msg ↔
      (snap.cluster.node j).storage.get msg.key = none ∨
        (snap.cluster.node j).storage.get msg.key = effect msg := by
  have hrun : Runs.exec Machine.step start (ahead ++ (early ++ .run t :: late)) = some ready :=
    Runs.exec_append.mpr ⟨sent, hahead, Runs.exec_append.mpr ⟨snap, hex.before, hex.after⟩⟩
  rw [get_loaded hex, get_of_latestWrite hmsg hwrite hrun]
  cases (snap.cluster.node j).storage.get msg.key with
  | none => simp
  | some v => simp

/-! ## Deletions that the snapshot does not show -/

/-- Node `i` has no value under `k`, and a `GET` that it executes says so. -/
def Absent (c : Cluster) (i : Int) (k : Bytes) : Prop :=
  (c.node i).storage.get k = none ∧
    ∀ (callee : Cluster → Int → Message → Option (Cluster × Message)) (msg : Message),
      msg.key = k → runWith callee i (executeGet i msg) c =
        some (c, makeError i (ascii "Key not found: " ++ k))

theorem absent_iff (c : Cluster) (i : Int) (k : Bytes) :
    Absent c i k ↔ (c.node i).storage.get k = none := by
  refine ⟨fun h => h.1, fun h => ⟨h, fun callee msg hkey => ?_⟩⟩
  rw [runWith_executeGet, hkey, h]

/-- From `m` to `m'`, node `j` executes a `DELETE` of a key that it holds, which
is answered with success. -/
structure DeletedAt (j : Int) (k : Bytes) (m m' : Machine) : Prop where
  held : (m.cluster.node j).storage.get k ≠ none
  executes : ∃ (u : Nat) (th : Thread) (msg : Message), m.threads u = some th ∧ th.node = j ∧
    msg.type = .del ∧ msg.key = k ∧ th.prog = execute j msg ∧ m.step (.run u) = some m'

theorem DeletedAt.get {j : Int} {k : Bytes} {m m' : Machine} (h : DeletedAt j k m m') :
    (m'.cluster.node j).storage.get k = none := by
  obtain ⟨u, th, msg, hth, rfl, htype, rfl, hprog, hstep⟩ := h.executes
  obtain ⟨n, rest, hperf, hget⟩ :=
    perform_execute (Or.inr htype) th.node (m.cluster.node th.node)
  rw [← hprog] at hperf
  obtain ⟨s, hs, -, hcluster, -⟩ := Machine.exists_run_continues hth hperf
  obtain rfl := Option.some.inj (hstep.symm.trans hs)
  rw [hcluster, send_node, setNode_node_self, hget, effect, htype]
  rfl

/-- `P` restarts after the deletion, asks node `j` for its data and loads the
reply.  Meanwhile nobody puts a value under `k`. -/
structure Resyncs (P : NodeInfo) (peers : List NodeInfo) (j : Int) (t : Nat) (k : Bytes)
    (deleted down up sent ended : Machine) (outage wait exchange : List Action) : Prop where
  ne : P.id ≠ j
  stops : Runs.exec Machine.step deleted outage = some down
  stopsQuiet : Runs.Along Machine.step (fun s a => ¬ Stores j k s a) deleted outage
  restarts : down.step (.restart P peers) = some up
  waits : Runs.exec Machine.step up wait = some sent
  waitsQuiet : Runs.Along Machine.step (fun s a => ¬ Stores j k s a ∧ ¬ Stores P.id k s a) up wait
  fresh : t < sent.next
  arrived : sent.threads t = some (asked P j)
  syncs : Runs.exec Machine.step sent exchange = some ended
  syncsQuiet : Runs.Along Machine.step
    (fun s a => ¬ Stores j k s a ∧ (a = .run t ∨ ¬ Stores P.id k s a)) sent exchange
  /-- `sync_from_peer` has returned. -/
  returned : ended.threads t = none

/-- The peer has no value under `k`, and the snapshot that it has taken, if it
has, neither. -/
structure Cleared (P : NodeInfo) (j : Int) (t : Nat) (k : Bytes) (m : Machine) : Prop where
  fresh : t < m.next
  peer : (m.cluster.node j).storage.get k = none
  thread : m.threads t = some (asked P j) ∨ m.threads t = some (reading P j) ∨
    Late P j (fun pairs => ¬ ∃ v, (k, v) ∈ pairs) (m.threads t)

section Cleared

variable {P : NodeInfo} {j : Int} {t : Nat} {k : Bytes} {m m' : Machine}

/-- The exchange itself does not put a value under `k`. -/
theorem Cleared.not_stores (h : Cleared P j t k m) (i : Int) : ¬ Stores i k m (.run t) := by
  intro hstores
  obtain ⟨th, hth, -, hputs⟩ := hstores
  have hthread := h.thread
  rw [hth, Option.some.injEq, Option.some.injEq] at hthread
  rcases hthread with rfl | rfl | hlate
  · exact hputs
  · exact hputs
  · generalize ho : some th = o at hlate
    cases hlate with
    | gone => exact absurd ho (by simp)
    | finished =>
      obtain rfl := Option.some.inj ho
      exact hputs
    | replying hok =>
      obtain rfl := Option.some.inj ho
      exact hputs
    | applying hok =>
      obtain rfl := Option.some.inj ho
      exact hok hputs

theorem Cleared.step (h : Cleared P j t k m) {a : Action} (hquiet : ¬ Stores j k m a)
    (hstep : m.step a = some m') : Cleared P j t k m' := by
  obtain ⟨hfresh, hsame⟩ := threads_step h.fresh hstep
  refine ⟨hfresh, ?_, ?_⟩
  · rcases get_step hstep hquiet with ⟨-, hnone⟩ | ⟨-, hget⟩
    · exact hnone
    · exact hget.trans h.peer
  by_cases ha : a = .run t
  · subst ha
    rcases h.thread with hasked | hreading | hlate
    · right
      left
      rw [run_eq hasked hstep]
      exact Function.update_self ..
    · right
      right
      refine late_of_reading hreading (fun ⟨v, hv⟩ => ?_) hstep
      rw [StorageEngine.mem_getAllPairs, h.peer] at hv
      exact absurd hv (by simp)
    · exact Or.inr (Or.inr (late_run hlate hstep))
  · rw [hsame ha]
    exact h.thread

theorem Cleared.along (h : Cleared P j t k m) {actions : List Action}
    (hquiet : Runs.Along Machine.step
      (fun s a => ¬ Stores j k s a ∧ (a = .run t ∨ ¬ Stores P.id k s a)) m actions) :
    Runs.Along Machine.step (fun s a => ¬ Stores P.id k s a) m actions := by
  induction actions generalizing m with
  | nil => trivial
  | cons a rest ih =>
    obtain ⟨⟨hpeer, hown⟩, hrest⟩ := hquiet
    constructor
    · rcases hown with rfl | hown
      · exact h.not_stores P.id
      · exact hown
    · cases hs : m.step a with
      | none => trivial
      | some s =>
        rw [hs] at hrest
        exact ih (h.step hpeer hs) hrest

end Cleared

theorem get_of_none {m m' : Machine} {actions : List Action} {i : Int} {k : Bytes}
    (hquiet : Runs.Along Machine.step (fun s a => ¬ Stores i k s a) m actions)
    (hrun : Runs.exec Machine.step m actions = some m')
    (hnone : (m.cluster.node i).storage.get k = none) :
    (m'.cluster.node i).storage.get k = none := by
  rcases get_exec hquiet hrun with ⟨-, hget⟩ | ⟨-, hget⟩
  · exact hget
  · exact hget.trans hnone

/-- After the exchange `P` has what it recovered from its own log, unless the key
was deleted at `P` itself. -/
theorem get_after_sync {P : NodeInfo} {peers : List NodeInfo} {j : Int} {t : Nat} {k : Bytes}
    {held deleted down up sent ended : Machine} {outage wait exchange : List Action}
    (hdel : DeletedAt j k held deleted)
    (h : Resyncs P peers j t k deleted down up sent ended outage wait exchange) :
    (¬ Runs.Along Machine.step (fun s a => ¬ Erases P.id k s a) up (wait ++ exchange) ∧
        (ended.cluster.node P.id).storage.get k = none) ∨
      (Runs.Along Machine.step (fun s a => ¬ Erases P.id k s a) up (wait ++ exchange) ∧
        (ended.cluster.node P.id).storage.get k =
          (StorageEngine.start (down.cluster.node P.id).storage.log true).get k) := by
  have hdown := get_of_none h.stopsQuiet h.stops hdel.get
  have hup : (up.cluster.node j).storage.get k = none := by
    rcases get_step h.restarts h.ne with ⟨-, hget⟩ | ⟨-, hget⟩
    · exact hget
    · exact hget.trans hdown
  have hsent := get_of_none (Runs.along_mono (fun s a hsa => hsa.1) h.waitsQuiet) h.waits hup
  have hcleared : Cleared P j t k sent := ⟨h.fresh, hsent, Or.inl h.arrived⟩
  have hquiet : Runs.Along Machine.step (fun s a => ¬ Stores P.id k s a) up (wait ++ exchange) :=
    (Runs.along_append h.waits).mpr
      ⟨Runs.along_mono (fun s a hsa => hsa.2) h.waitsQuiet, hcleared.along h.syncsQuiet⟩
  have hrecovered : (up.cluster.node P.id).storage =
      StorageEngine.start (down.cluster.node P.id).storage.log true := by
    rw [← Option.some.inj h.restarts]
    exact congrArg Node.storage (Machine.restartNode_node ..)
  rw [← hrecovered]
  exact get_exec hquiet (Runs.exec_append.mpr ⟨sent, h.waits, h.syncs⟩)

/-- A key that the peer deleted while `P` was down is absent at `P` after its
exchange exactly when `P` did not recover it from its own log, or a late copy of
the deletion has reached `P` as well. -/
theorem absent_after_sync_iff {P : NodeInfo} {peers : List NodeInfo} {j : Int} {t : Nat} {k : Bytes}
    {held deleted down up sent ended : Machine} {outage wait exchange : List Action}
    (hdel : DeletedAt j k held deleted)
    (h : Resyncs P peers j t k deleted down up sent ended outage wait exchange) :
    Absent ended.cluster P.id k ↔
      (StorageEngine.start (down.cluster.node P.id).storage.log true).get k = none ∨
        ¬ Runs.Along Machine.step (fun s a => ¬ Erases P.id k s a) up (wait ++ exchange) := by
  rw [absent_iff]
  rcases get_after_sync hdel h with ⟨herased, hnone⟩ | ⟨hkept, hget⟩
  · exact ⟨fun _ => Or.inr herased, fun _ => hnone⟩
  · rw [hget]
    exact ⟨Or.inl, fun hor => hor.resolve_right fun hno => hno hkept⟩

/-! ## Runs of the launched cluster -/

section Example

open HashRing

variable {m : Machine} {t : Nat} {th : Thread}

theorem not_stores_run (ht : m.threads t = some th) {i : Int} {k : Bytes}
    (h : ¬ Puts k th.prog) : ¬ Stores i k m (.run t) := by
  intro hstores
  obtain ⟨th', hth', -, hputs⟩ := hstores
  obtain rfl := Option.some.inj (ht.symm.trans hth')
  exact h hputs

/-- The action touches no key of any store. -/
def Quiet (m : Machine) (a : Action) : Prop := ∀ i k, ¬ Stores i k m a ∧ ¬ Erases i k m a

theorem quiet_run (ht : m.threads t = some th)
    (hprog : ∀ k, ¬ Puts k th.prog ∧ ¬ Deletes k th.prog) : Quiet m (.run t) :=
  fun _ k => ⟨not_stores_run ht (hprog k).1, not_erases_run ht fun hdel => (hprog k).2 hdel.2⟩

/-- When only thread `t` runs, it gets to a state where `last` holds, and all of
its steps meet `ok`. -/
def Gets (t : Nat) (ok : Machine → Action → Prop) (m : Machine) (last : Machine → Prop) : Prop :=
  ∃ n m', Runs.exec Machine.step m (List.replicate n (.run t)) = some m' ∧ last m' ∧
    Runs.Along Machine.step ok m (List.replicate n (.run t))

theorem gets_here {ok : Machine → Action → Prop} {last : Machine → Prop} (h : last m) :
    Gets t ok m last := ⟨0, m, rfl, h, trivial⟩

theorem gets_step {ok : Machine → Action → Prop} {last : Machine → Prop} {m' : Machine}
    (hok : ok m (.run t)) (hstep : m.step (.run t) = some m') (h : Gets t ok m' last) :
    Gets t ok m last := by
  obtain ⟨n, m'', hrun, hlast, halong⟩ := h
  exact ⟨n + 1, m'', Runs.exec_cons.mpr ⟨m', hstep, hrun⟩, hlast,
    (Runs.along_cons hstep).mpr ⟨hok, halong⟩⟩

/-- What a thread at node `i` leaves as it is. -/
structure Keeps (t : Nat) (i : Int) (m m' : Machine) : Prop where
  next : m'.next = m.next
  listener : m'.cluster.listener = m.cluster.listener
  node : ∀ x, x ≠ i → m'.cluster.node x = m.cluster.node x
  threads : ∀ u, u ≠ t → m'.threads u = m.threads u

theorem Keeps.trans {i : Int} {m' m'' : Machine} (h : Keeps t i m m') (h' : Keeps t i m' m'') :
    Keeps t i m m'' where
  next := h'.next.trans h.next
  listener := h'.listener.trans h.listener
  node x hx := (h'.node x hx).trans (h.node x hx)
  threads u hu := (h'.threads u hu).trans (h.threads u hu)

theorem keeps_run {m' : Machine} (ht : m.threads t = some th)
    (hstep : m.step (.run t) = some m') : Keeps t th.node m m' := by
  have hothers : ∀ th' u, u ≠ t → Function.update m.threads t th' u = m.threads u :=
    fun th' u hu => Function.update_of_ne hu ..
  rw [run_eq ht hstep]
  unfold Machine.runThread
  cases th.prog.perform th.node (m.cluster.node th.node) with
  | finished reply =>
    cases th.callers with
    | nil => exact ⟨rfl, rfl, fun _ _ => rfl, hothers _⟩
    | cons caller rest => exact ⟨rfl, rfl, fun _ _ => rfl, hothers _⟩
  | continues n rest sent =>
    exact ⟨rfl, rfl, fun x hx => setNode_node_of_ne m.cluster n hx, hothers _⟩
  | calls host port msg next =>
    dsimp only
    cases m.cluster.listener host port with
    | none => exact ⟨rfl, rfl, fun _ _ => rfl, hothers _⟩
    | some j => exact ⟨rfl, rfl, fun _ _ => rfl, hothers _⟩

section Writes

variable {base : Machine} {i : Int} {msg reply : Message}

/-- The copies of a write are sent, and the client gets its reply. -/
theorem gets_sendAll {repl : Message} (replicas : List NodeInfo) (ht : m.threads t = some th)
    (hnode : th.node = i) (horigin : th.origin = some msg) (hcallers : th.callers = [])
    (hprog : th.prog = Replication.sendAll i repl (.done reply) replicas)
    (hkeeps : Keeps t i base m) :
    Gets t Quiet m fun m' => .respond t msg reply ∈ m'.trace ∧ Keeps t i base m' := by
  induction replicas generalizing m th with
  | nil =>
    rw [Replication.sendAll] at hprog
    obtain ⟨m', hstep, hmem⟩ := exists_run_done ht hprog hcallers horigin
    have hkeeps' := hkeeps.trans (hnode ▸ keeps_run ht hstep)
    exact gets_step (quiet_run ht fun k => by rw [hprog]; exact ⟨id, id⟩) hstep
      (gets_here ⟨hmem, hkeeps'⟩)
  | cons r rest ih =>
    rw [Replication.sendAll] at hprog
    by_cases hr : r.id = i
    · rw [if_pos hr] at hprog
      exact ih ht hnode horigin hcallers hprog hkeeps
    · rw [if_neg hr] at hprog
      obtain ⟨m', hstep, ht', -⟩ := Machine.exists_run_continues ht (by rw [hprog]; rfl)
      have hkeeps' := hkeeps.trans (hnode ▸ keeps_run ht hstep)
      exact gets_step (quiet_run ht fun k => by rw [hprog]; exact ⟨id, id⟩) hstep
        (ih ht' hnode horigin hcallers rfl hkeeps')

theorem gets_replicate {key value : Bytes} {op : MsgType} {rf : Int} (ht : m.threads t = some th)
    (hnode : th.node = i) (horigin : th.origin = some msg) (hcallers : th.callers = [])
    (hprog : th.prog = .getReplicas key rf fun replicas =>
      Replication.replicate i key value op replicas (.done reply))
    (hkeeps : Keeps t i base m) :
    Gets t Quiet m fun m' => .respond t msg reply ∈ m'.trace ∧ Keeps t i base m' := by
  obtain ⟨m₁, hstep₁, ht₁, -⟩ := Machine.exists_run_continues ht (by rw [hprog]; rfl)
  obtain ⟨m₂, hstep₂, ht₂, -⟩ := Machine.exists_run_continues ht₁ rfl
  have hkeeps₁ := hkeeps.trans (hnode ▸ keeps_run ht hstep₁)
  have hkeeps₂ := hkeeps₁.trans (hnode ▸ keeps_run ht₁ hstep₂)
  refine gets_step (quiet_run ht fun k => by rw [hprog]; exact ⟨id, id⟩) hstep₁ ?_
  refine gets_step (quiet_run ht₁ fun k => ⟨id, id⟩) hstep₂ ?_
  exact gets_sendAll _ ht₂ hnode horigin hcallers rfl hkeeps₂

/-- The store call of a write is followed by its copies. -/
theorem perform_execute_copies (hmsg : msg.type = .put ∨ msg.type = .del) (i : Int) {n : Node}
    (hheld : n.storage.get msg.key ≠ none) :
    ∃ n' value op, (execute i msg).perform i n =
      .continues n' (.getReplicas msg.key replicationFactor fun replicas =>
        Replication.replicate i msg.key value op replicas (.done (makeAck i true []))) [] := by
  rcases hmsg with htype | htype
  · have hexec : execute i msg = executePut i msg := by simp only [execute, htype]
    rw [hexec]
    exact ⟨_, _, _, rfl⟩
  · have hexec : execute i msg = executeDelete i msg := by simp only [execute, htype]
    obtain ⟨v, hv⟩ := Option.ne_none_iff_exists'.mp hheld
    have hremoved : (n.storage.del msg.key n.clock).1 = true := by
      rw [StorageEngine.del, show n.storage.store.lookup msg.key = some v from hv]
    refine ⟨{ n with storage := (n.storage.del msg.key n.clock).2 }, [], .del, ?_⟩
    rw [hexec]
    simp only [executeDelete, Prog.perform, hremoved, if_true]

/-- A client connection to node `i`. -/
def connection (i : Int) (msg : Message) : Thread :=
  { origin := some msg, node := i, prog := onMessage i msg, callers := [] }

/-- A write at its primary: the node is about to execute it in the state `s`, and
acknowledges it after that. -/
theorem exists_write {p : NodeInfo} (ht : m.threads t = some (connection i msg))
    (hmsg : msg.type = .put ∨ msg.type = .del)
    (hheld : (m.cluster.node i).storage.get msg.key ≠ none)
    (hprim : ((m.cluster.node i).markAlive msg.nodeId).ring.getPrimary msg.key = some p)
    (hp : p.id = i) :
    ∃ s s', Runs.exec Machine.step m [.run t, .run t] = some s ∧
      s.threads t = some { connection i msg with prog := execute i msg } ∧
      (s.cluster.node i).storage = (m.cluster.node i).storage ∧ s.step (.run t) = some s' ∧
      Gets t Quiet s' fun m' =>
        .respond t msg (makeAck i true []) ∈ m'.trace ∧ Keeps t i m m' := by
  obtain ⟨m₁, hstep₁, ht₁, hc₁, -⟩ := Machine.exists_run_continues ht rfl
  have hnode₁ : m₁.cluster.node i = (m.cluster.node i).markAlive msg.nodeId := by
    rw [hc₁, send_node]
    exact setNode_node_self ..
  have hroute : (handle i msg).perform i (m₁.cluster.node i) =
      .continues (m₁.cluster.node i) (execute i msg) [] := by
    have hreq : msg.IsRequest := hmsg.elim Or.inl fun h => Or.inr (Or.inr h)
    rw [handle_of_isRequest hreq, route, Prog.perform, hnode₁, hprim]
    exact congrArg (fun q => Outcome.continues _ q []) (if_pos hp)
  obtain ⟨s, hs, hts, hcs, -⟩ := Machine.exists_run_continues ht₁ hroute
  have hstorage : (s.cluster.node i).storage = (m.cluster.node i).storage := by
    rw [hcs, send_node]
    refine (congrArg Node.storage (setNode_node_self ..)).trans ?_
    rw [hnode₁]
    rfl
  have hkeeps₁ : Keeps t i m m₁ := keeps_run ht hstep₁
  have hkeeps₂ : Keeps t i m₁ s := keeps_run ht₁ hs
  have hrun : Runs.exec Machine.step m [.run t, .run t] = some s :=
    Runs.exec_cons.mpr ⟨m₁, hstep₁, Runs.exec_cons.mpr ⟨s, hs, rfl⟩⟩
  obtain ⟨n, value, op, hperf⟩ := perform_execute_copies hmsg i (hstorage ▸ hheld)
  obtain ⟨s', hs', ht', -⟩ := Machine.exists_run_continues hts hperf
  have hkeeps₃ : Keeps t i s s' := keeps_run hts hs'
  refine ⟨s, s', hrun, hts, hstorage, hs', ?_⟩
  exact gets_replicate ht' rfl rfl rfl rfl ((hkeeps₁.trans hkeeps₂).trans hkeeps₃)

end Writes

/-- The exchange comes to its end. -/
theorem gets_exchange {P : NodeInfo} {j : Int} (ht : m.threads t = some (asked P j)) :
    Gets t (fun s a => ∀ i k, ¬ Erases i k s a) m fun m' => m'.threads t = none := by
  have hgo : ∀ {m : Machine} {th : Thread}, m.threads t = some th → (∀ k, ¬ Deletes k th.prog) →
      (∀ m', m.step (.run t) = some m' →
        Gets t (fun s a => ∀ i k, ¬ Erases i k s a) m' fun m' => m'.threads t = none) →
      Gets t (fun s a => ∀ i k, ¬ Erases i k s a) m fun m' => m'.threads t = none := by
    intro m th ht hdel hnext
    have hstep : m.step (.run t) = some (m.runThread t th) := by rw [Machine.step, ht]; rfl
    exact gets_step (fun i k => not_erases_run ht fun h => hdel k h.2) hstep (hnext _ hstep)
  have hfinished : ∀ {m : Machine}, m.threads t = some (finished P) →
      Gets t (fun s a => ∀ i k, ¬ Erases i k s a) m fun m' => m'.threads t = none :=
    fun ht => hgo ht (fun _ => id) fun m' hstep => gets_here (threads_of_finished ht hstep)
  refine hgo ht (fun _ => id) fun m₁ hstep₁ => ?_
  have ht₁ : m₁.threads t = some (reading P j) := by
    rw [run_eq ht hstep₁]
    exact Function.update_self ..
  refine hgo ht₁ (fun _ => id) fun m₂ hstep₂ => ?_
  have ht₂ := threads_of_reading ht₁ hstep₂
  refine hgo ht₂ (fun _ => id) fun m₃ hstep₃ => ?_
  have ht₃ := threads_of_replying ht₂ hstep₃
  by_cases hnil : (m₁.cluster.node j).storage.getAllPairs = []
  · rw [if_pos hnil] at ht₃
    exact hfinished ht₃
  · rw [if_neg hnil] at ht₃
    exact hgo ht₃ (fun _ => id) fun m₄ hstep₄ => hfinished (threads_of_applying ht₃ hstep₄)

/-- Nodes 2 and 3 hold what is in the log of node 1, which is down. -/
def stocked : Cluster :=
  degraded.withStorage fun _ =>
    StorageEngine.start (ascii "PUT|user1|old|0\nPUT|user2|kept|0\n") true

theorem get_stocked (i : Int) :
    (stocked.node i).storage.get (ascii "user1") = some (ascii "old") := by
  have hget : (StorageEngine.start (ascii "PUT|user1|old|0\nPUT|user2|kept|0\n") true).get
      (ascii "user1") = some (ascii "old") := by decide
  exact hget

/-- The steps of the exchange are allowed. -/
theorem Cleared.along_replicate {P : NodeInfo} {j : Int} {k : Bytes} (h : Cleared P j t k m)
    (n : Nat) : Runs.Along Machine.step
      (fun s a => ¬ Stores j k s a ∧ (a = .run t ∨ ¬ Stores P.id k s a)) m
      (List.replicate n (.run t)) := by
  induction n generalizing m with
  | zero => trivial
  | succ n ih =>
    rw [List.replicate_succ]
    refine ⟨⟨h.not_stores j, Or.inl rfl⟩, ?_⟩
    cases hs : m.step (.run t) with
    | none => trivial
    | some m' => exact ih (h.step (h.not_stores j) hs)

/-- The thread of the exchange starts, and its request arrives. -/
theorem exists_asked (P : NodeInfo) {peer : NodeInfo} {j : Int}
    (hl : m.cluster.listener peer.host peer.port = some j) :
    ∃ m', Runs.exec Machine.step m [.sync P.id peer, .run m.next] = some m' ∧
      m'.next = m.next + 1 ∧ m'.cluster = m.cluster ∧ m'.threads m.next = some (asked P j) ∧
      Runs.Along Machine.step Quiet m [.sync P.id peer, .run m.next] := by
  let th : Thread :=
    { origin := none, node := P.id, prog := Replication.syncFromPeer P.id peer, callers := [] }
  have ht : (m.spawn th).threads m.next = some th := Function.update_self ..
  have hspawn : m.step (.sync P.id peer) = some (m.spawn th) := rfl
  obtain ⟨m', hstep, ht', hc, hnext⟩ := Machine.exists_run_calls ht rfl hl
  refine ⟨m', Runs.exec_cons.mpr ⟨_, hspawn, Runs.exec_cons.mpr ⟨m', hstep, rfl⟩⟩, hnext, hc, ht',
    ?_⟩
  refine (Runs.along_cons hspawn).mpr ⟨fun _ _ => ⟨id, id⟩, ?_⟩
  exact (Runs.along_cons hstep).mpr ⟨quiet_run ht fun _ => ⟨id, id⟩, trivial⟩

/-- Node 2 deletes a key that is also in the log of node 1.  Node 1 restarts and
loads the data of node 2. -/
structure Resynced (held deleted down up sent ended : Machine)
    (outage wait exchange : List Action) : Prop where
  starts : Runs.exec Machine.step (Machine.idle stocked) [.invoke 2 delMsg, .run 0, .run 0] =
    some held
  deletes : DeletedAt 2 (ascii "user1") held deleted
  acknowledged : .respond 0 delMsg (makeAck 2 true []) ∈ down.trace
  resyncs : Resyncs (launchNode 1) peers 2 1 (ascii "user1") deleted down up sent ended outage wait
    exchange
  log : (down.cluster.node 1).storage = (stocked.node 1).storage
  kept : Runs.Along Machine.step (fun s a => ¬ Erases 1 (ascii "user1") s a) up (wait ++ exchange)

set_option maxRecDepth 8000 in
theorem exists_resynced : ∃ held deleted down up sent ended outage wait exchange,
    Resynced held deleted down up sent ended outage wait exchange := by
  let invoked : Machine := { (Machine.idle stocked).spawn (connection 2 delMsg) with
    trace := [.invoke 0 delMsg] }
  have hring : ((stocked.node 2).markAlive 0).ring = launchRing.markDead [1] := rfl
  have hprim : ((stocked.node 2).markAlive 0).ring.getPrimary delMsg.key = some (launchNode 2) := by
    rw [hring]
    exact getPrimary_markDead
  have hheld : (stocked.node 2).storage.get delMsg.key ≠ none := by
    rw [show delMsg.key = ascii "user1" from rfl, get_stocked]
    simp
  obtain ⟨held, deleted, hheldrun, hthread, hstorage, hstep, n, down, hdown, ⟨hack, hkeeps⟩,
    hquiet⟩ :=
    exists_write (m := invoked) (t := 0) (i := 2) rfl (Or.inr rfl) hheld hprim rfl
  have hdeletes : DeletedAt 2 (ascii "user1") held deleted := by
    refine ⟨?_, 0, _, delMsg, hthread, rfl, rfl, rfl, rfl, hstep⟩
    rw [hstorage]
    exact hheld
  have hlog : (down.cluster.node 1).storage = (stocked.node 1).storage :=
    congrArg Node.storage (hkeeps.node 1 (by decide))
  let up : Machine := { down with
    cluster := Machine.restartNode down.cluster (launchNode 1) peers }
  have hl : up.cluster.listener (launchNode 2).host (launchNode 2).port = some 2 := by
    show (Machine.restartNode down.cluster (launchNode 1) peers).listener _ _ = _
    rw [Machine.restartNode_listener_of_ne _ _ (by decide), hkeeps.listener]
    rfl
  obtain ⟨sent, hwait, hnext, hcluster, hasked, hwaitquiet⟩ := exists_asked (launchNode 1) hl
  have hupnext : up.next = 1 := hkeeps.next
  rw [hupnext] at hwait hasked hwaitquiet hnext
  obtain ⟨n', ended, hended, hgone, hkept⟩ := gets_exchange hasked
  have hstopsquiet := Runs.along_mono (fun s a hq => (hq 2 (ascii "user1")).1) hquiet
  have hpeer : (sent.cluster.node 2).storage.get (ascii "user1") = none := by
    rw [hcluster]
    show ((Machine.restartNode down.cluster (launchNode 1) peers).node 2).storage.get _ = none
    rw [Machine.restartNode_node_of_ne _ _ (by decide)]
    exact get_of_none hstopsquiet hdown hdeletes.get
  have hcleared : Cleared (launchNode 1) 2 1 (ascii "user1") sent :=
    ⟨by omega, hpeer, Or.inl hasked⟩
  refine ⟨held, deleted, down, up, sent, ended, List.replicate n (.run 0),
    [.sync 1 (launchNode 2), .run 1], List.replicate n' (.run 1), ?_, hdeletes, hack, ?_, hlog, ?_⟩
  · exact Runs.exec_cons.mpr ⟨invoked, rfl, hheldrun⟩
  · exact
      { ne := by decide
        stops := hdown
        stopsQuiet := hstopsquiet
        restarts := rfl
        waits := hwait
        waitsQuiet := Runs.along_mono (fun s a hq => ⟨(hq _ _).1, (hq _ _).1⟩) hwaitquiet
        fresh := hcleared.fresh
        arrived := hasked
        syncs := hended
        syncsQuiet := hcleared.along_replicate n'
        returned := hgone }
  · refine (Runs.along_append hwait).mpr ⟨?_, ?_⟩
    · exact Runs.along_mono (fun s a hq => (hq _ _).2) hwaitquiet
    · exact Runs.along_mono (fun s a hno => hno _ _) hkept

theorem absent_after_sync_launch : ∃ held deleted down up sent ended outage wait exchange,
    Resynced held deleted down up sent ended outage wait exchange ∧
      (Absent ended.cluster 1 (ascii "user1") ↔
        (StorageEngine.start (down.cluster.node 1).storage.log true).get (ascii "user1") = none ∨
          ¬ Runs.Along Machine.step (fun s a => ¬ Erases 1 (ascii "user1") s a) up
            (wait ++ exchange)) := by
  obtain ⟨held, deleted, down, up, sent, ended, outage, wait, exchange, h⟩ := exists_resynced
  exact ⟨held, deleted, down, up, sent, ended, outage, wait, exchange, h,
    absent_after_sync_iff h.deletes h.resyncs⟩

/-- After its exchange node 1 still has the key that node 2 has deleted, and a
`GET` that it executes returns the deleted value. -/
theorem deleted_key_comes_back : ∃ held deleted down up sent ended outage wait exchange,
    Resynced held deleted down up sent ended outage wait exchange ∧
      (ended.cluster.node 1).storage.get (ascii "user1") = some (ascii "old") ∧
      ¬ Absent ended.cluster 1 (ascii "user1") ∧
      ∀ callee, runWith callee 1 (executeGet 1 getMsg) ended.cluster =
        some (ended.cluster, makeAck 1 true (ascii "old")) := by
  obtain ⟨held, deleted, down, up, sent, ended, outage, wait, exchange, h⟩ := exists_resynced
  have hget : (ended.cluster.node 1).storage.get (ascii "user1") = some (ascii "old") := by
    rcases get_after_sync h.deletes h.resyncs with ⟨herased, -⟩ | ⟨-, hget⟩
    · exact absurd h.kept herased
    · refine hget.trans ?_
      show (StorageEngine.start (down.cluster.node 1).storage.log true).get (ascii "user1") = _
      rw [h.log]
      exact get_stocked 1
  refine ⟨held, deleted, down, up, sent, ended, outage, wait, exchange, h, hget, ?_, ?_⟩
  · rw [absent_iff, hget]
    simp
  · intro callee
    rw [runWith_executeGet, show getMsg.key = ascii "user1" from rfl, hget]

/-- Node 1 restarts and asks node 2 for its data.  A client writes at node 1 after
node 2 has taken its snapshot. -/
structure Overtaken (sent snap ready loaded : Machine) (early late : List Action) : Prop where
  starts : Runs.exec Machine.step (Machine.idle stocked)
    [.restart (launchNode 1) peers, .sync 1 (launchNode 2), .run 0] = some sent
  exchanges : Exchanges (launchNode 1) 2 0 sent snap ready loaded early late
  latest : LatestWrite (launchNode 1) (putMsg "new") sent (early ++ .run 0 :: late)
  acknowledged : .respond 1 (putMsg "new") (makeAck 1 true []) ∈ ready.trace
  old : (snap.cluster.node 2).storage.get (putMsg "new").key = some (ascii "old")

theorem exists_overtaken : ∃ sent snap ready loaded early late,
    Overtaken sent snap ready loaded early late := by
  let up : Machine := { Machine.idle stocked with
    cluster := Machine.restartNode stocked (launchNode 1) peers }
  have hl : up.cluster.listener (launchNode 2).host (launchNode 2).port = some 2 := by
    show (Machine.restartNode stocked (launchNode 1) peers).listener _ _ = _
    rw [Machine.restartNode_listener_of_ne _ _ (by decide)]
    rfl
  have hpeer : up.cluster.node 2 = stocked.node 2 :=
    Machine.restartNode_node_of_ne stocked peers (by decide)
  obtain ⟨sent, hsent, hnext, hcluster, hasked, -⟩ := exists_asked (launchNode 1) hl
  obtain ⟨snap, hsnap, htsnap, hcsnap, -⟩ := Machine.exists_run_continues hasked rfl
  have hsnapstore : (snap.cluster.node 2).storage = (stocked.node 2).storage := by
    rw [hcsnap, send_node]
    refine (congrArg Node.storage (setNode_node_self ..)).trans ?_
    show (sent.cluster.node 2).storage = _
    rw [hcluster, hpeer]
  have hold : (snap.cluster.node 2).storage.get (putMsg "new").key = some (ascii "old") := by
    rw [hsnapstore]
    exact get_stocked 2
  have hpairs : (snap.cluster.node 2).storage.getAllPairs ≠ [] :=
    List.ne_nil_of_mem (StorageEngine.mem_getAllPairs.mpr hold)
  obtain ⟨taken, htaken, httaken, -⟩ := Machine.exists_run_continues htsnap rfl
  obtain ⟨back, hback, -⟩ := Machine.exists_run_returns httaken rfl rfl
  have htback := threads_of_replying (threads_of_reading htsnap htaken) hback
  rw [if_neg hpairs] at htback
  -- Everything so far happened at node 2.
  have hkeeps₁ : Keeps 0 2 sent snap := keeps_run hasked hsnap
  have hkeeps₂ : Keeps 0 2 snap taken := keeps_run htsnap htaken
  have hkeeps₃ : Keeps 0 2 taken back := keeps_run httaken hback
  have hkeeps := (hkeeps₁.trans hkeeps₂).trans hkeeps₃
  have hbacknext : back.next = 1 := hkeeps.next.trans hnext
  have hnode : back.cluster.node 1 =
      Node.start (launchNode 1) peers (stocked.node 1).storage.log (stocked.node 1).clock := by
    rw [hkeeps.node 1 (by decide), hcluster]
    exact Machine.restartNode_node stocked (launchNode 1) peers
  let invoked : Machine := { back.spawn (connection 1 (putMsg "new")) with
    trace := back.trace ++ [.invoke back.next (putMsg "new")] }
  have hthread : invoked.threads 1 = some (connection 1 (putMsg "new")) := by
    rw [← hbacknext]
    exact Function.update_self ..
  have hheld : (invoked.cluster.node 1).storage.get (putMsg "new").key ≠ none := by
    show (back.cluster.node 1).storage.get (putMsg "new").key ≠ none
    rw [hnode, show (Node.start (launchNode 1) peers (stocked.node 1).storage.log
      (stocked.node 1).clock).storage.get (putMsg "new").key = some (ascii "old") from
        get_stocked 1]
    simp
  have hring : (invoked.cluster.node 1).ring.ring.entries = launchRing.ring.entries := by
    show (back.cluster.node 1).ring.ring.entries = _
    rw [hnode]
    rfl
  obtain ⟨s, s', hs, hts, -, hstep, n, ready, hready, ⟨hack, hkeeps'⟩, hquiet⟩ :=
    exists_write hthread (Or.inl rfl) hheld (getPrimary_markAlive hring (putMsg "new").nodeId) rfl
  have htready : ready.threads 0 =
      some (applying (launchNode 1) (snap.cluster.node 2).storage.getAllPairs) := by
    rw [hkeeps'.threads 0 (by decide)]
    exact (threads_spawn back (by omega) _).trans htback
  have hload : ∃ loaded, ready.step (.run 0) = some loaded := by
    rw [Machine.step, htready]
    exact ⟨_, rfl⟩
  obtain ⟨loaded, hload⟩ := hload
  refine ⟨sent, snap, ready, loaded, [.run 0],
    [.run 0, .invoke 1 (putMsg "new"), .run 1, .run 1, .run 1] ++ List.replicate n (.run 1), ?_⟩
  have hrest : Runs.exec Machine.step s (.run 1 :: List.replicate n (.run 1)) = some ready :=
    Runs.exec_cons.mpr ⟨s', hstep, hready⟩
  have hfront : Runs.exec Machine.step snap
      [.run 0, .run 0, .invoke 1 (putMsg "new"), .run 1, .run 1] = some s :=
    Runs.exec_cons.mpr ⟨taken, htaken, Runs.exec_cons.mpr ⟨back, hback,
      Runs.exec_cons.mpr ⟨invoked, rfl, hs⟩⟩⟩
  have hearly : Runs.exec Machine.step sent [.run 0] = some snap :=
    Runs.exec_cons.mpr ⟨snap, hsnap, rfl⟩
  exact
    { starts := Runs.exec_cons.mpr ⟨up, rfl, hsent⟩
      exchanges :=
        { fresh := by omega
          arrived := hasked
          before := hearly
          snapshot := htsnap
          after := Runs.exec_append.mpr ⟨s, hfront, hrest⟩
          waiting := ⟨_, htready⟩
          loads := hload }
      latest := ⟨[.run 0] ++ [.run 0, .run 0, .invoke 1 (putMsg "new"), .run 1, .run 1],
        List.replicate n (.run 1), 1, s, s', rfl, Runs.exec_append.mpr ⟨snap, hearly, hfront⟩,
        ⟨_, hts, rfl, rfl⟩, hstep, Runs.along_mono (fun s a hq => hq _ _) hquiet⟩
      acknowledged := hack
      old := hold }

theorem snapshot_keeps_write_launch : ∃ sent snap ready loaded early late,
    Overtaken sent snap ready loaded early late ∧
      ((loaded.cluster.node 1).storage.get (putMsg "new").key = effect (putMsg "new") ↔
        (snap.cluster.node 2).storage.get (putMsg "new").key = none ∨
          (snap.cluster.node 2).storage.get (putMsg "new").key = effect (putMsg "new")) := by
  obtain ⟨sent, snap, ready, loaded, early, late, h⟩ := exists_overtaken
  have hahead : Runs.exec Machine.step sent [] = some sent := rfl
  exact ⟨sent, snap, ready, loaded, early, late, h,
    snapshot_keeps_write_iff hahead h.exchanges (Or.inl rfl) h.latest⟩

/-- The snapshot of node 2 undoes the write that node 1 has acknowledged. -/
theorem snapshot_undoes_write : ∃ sent snap ready loaded early late,
    Overtaken sent snap ready loaded early late ∧
      (loaded.cluster.node 1).storage.get (putMsg "new").key = some (ascii "old") ∧
      effect (putMsg "new") = some (ascii "new") ∧
      (loaded.cluster.node 1).storage.get (putMsg "new").key ≠ effect (putMsg "new") := by
  obtain ⟨sent, snap, ready, loaded, early, late, h⟩ := exists_overtaken
  have hget : (loaded.cluster.node 1).storage.get (putMsg "new").key = some (ascii "old") := by
    refine (get_loaded h.exchanges (putMsg "new").key).trans ?_
    rw [h.old]
    rfl
  refine ⟨sent, snap, ready, loaded, early, late, h, hget, rfl, ?_⟩
  rw [hget]
  decide

end Example

end Resync
end DistributedDb
