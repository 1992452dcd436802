import DistributedDb.HashRing.Lookup

/-
The representation invariant of the ring.

A node description is stored once in the registry and again in every ring entry
of the node.  `WellFormed` says that the copies agree and that an entry stands
at one of the positions of its owner; every operation keeps it, also when a
virtual node lands on a position that another node holds.  `latest` reads the
current description of a node off a history of operations, and the registry
always holds it, so a lookup can only return what the history says last.
-/

namespace DistributedDb
namespace HashRing

structure WellFormed (r : HashRing) : Prop where
  /-- A ring entry is a copy of the registered description of its owner. -/
  registered : ∀ e ∈ r.ring.entries, r.nodesById.find? e.2.id = some e.2
  /-- A ring entry stands at a virtual-node position of its owner. -/
  position : ∀ e ∈ r.ring.entries, ∃ i, i < virtualNodes ∧ e.1 = vnodeHash e.2.id i
  /-- The registry files every description under its own id. -/
  keyed : ∀ id n, r.nodesById.find? id = some n → n.id = id

theorem wellFormed_empty : WellFormed empty where
  registered := by simp [empty]
  position := by simp [empty]
  keyed := by simp [empty]

theorem wellFormed_addNode {r : HashRing} (h : WellFormed r) (node : NodeInfo) :
    WellFormed (r.addNode node) where
  registered := by
    intro e he
    rcases (mem_addNode r node e).mp he with ⟨i, _, rfl⟩ | ⟨he, hpos⟩
    · exact OrderedMap.find?_insert_self _ _ _
    · -- An entry that survives stands at no position of `node`, so it is not a
      -- copy of an older description of `node`.
      have hid : e.2.id ≠ node.id := by
        intro hid
        obtain ⟨i, hi, hei⟩ := h.position e he
        exact hpos i hi (hid ▸ hei)
      exact (OrderedMap.find?_insert_of_ne _ _ hid).trans (h.registered e he)
  position := by
    intro e he
    rcases (mem_addNode r node e).mp he with ⟨i, hi, rfl⟩ | ⟨he, _⟩
    · exact ⟨i, hi, rfl⟩
    · exact h.position e he
  keyed := by
    intro id n hn
    by_cases hid : id = node.id
    · subst hid
      have hself := OrderedMap.find?_insert_self r.nodesById node.id node
      rw [show (r.addNode node).nodesById = r.nodesById.insert node.id node from rfl, hself] at hn
      rw [← Option.some.inj hn]
    · exact h.keyed id n ((OrderedMap.find?_insert_of_ne _ _ hid).symm.trans hn)

theorem wellFormed_removeNode {r : HashRing} (h : WellFormed r) (nodeId : Int) :
    WellFormed (r.removeNode nodeId) where
  registered := by
    intro e he
    obtain ⟨he, hid⟩ := (mem_removeNode r nodeId e).mp he
    exact (OrderedMap.find?_erase_of_ne _ hid).trans (h.registered e he)
  position := by
    intro e he
    exact h.position e ((mem_removeNode r nodeId e).mp he).1
  keyed := by
    intro id n hn
    by_cases hid : id = nodeId
    · subst hid
      rw [show (r.removeNode id).nodesById = r.nodesById.erase id from rfl,
        OrderedMap.find?_erase_self] at hn
      exact absurd hn (by simp)
    · exact h.keyed id n ((OrderedMap.find?_erase_of_ne _ hid).symm.trans hn)

theorem wellFormed_updateNodeStatus {r : HashRing} (h : WellFormed r) (nodeId : Int)
    (alive : Bool) : WellFormed (r.updateNodeStatus nodeId alive) := by
  by_cases hknown : r.nodesById.find? nodeId = none
  · rw [updateNodeStatus_of_unknown r alive hknown]
    exact h
  · have hentries := entries_updateNodeStatus r alive hknown
    refine ⟨fun e he => ?_, fun e he => ?_, fun id n hn => ?_⟩
    · rw [hentries] at he
      obtain ⟨d, hd, rfl⟩ := List.mem_map.mp he
      have hreg := h.registered d hd
      rw [find?_updateNodeStatus, setAlive_id, hreg]
      by_cases hid : d.2.id = nodeId <;> simp [setAlive, hid]
    · rw [hentries] at he
      obtain ⟨d, hd, rfl⟩ := List.mem_map.mp he
      simpa using h.position d hd
    · rw [find?_updateNodeStatus] at hn
      by_cases hid : id = nodeId
      · rw [if_pos hid] at hn
        obtain ⟨m, hm, rfl⟩ := Option.map_eq_some_iff.mp hn
        exact h.keyed id m hm
      · rw [if_neg hid] at hn
        exact h.keyed id n hn

theorem wellFormed_apply {r : HashRing} (h : WellFormed r) (op : RingOp) :
    WellFormed (r.apply op) := by
  cases op with
  | add node => exact wellFormed_addNode h node
  | remove nodeId => exact wellFormed_removeNode h nodeId
  | status nodeId alive => exact wellFormed_updateNodeStatus h nodeId alive

theorem wellFormed_applyAll {r : HashRing} (h : WellFormed r) (ops : List RingOp) :
    WellFormed (r.applyAll ops) := by
  induction ops generalizing r with
  | nil => exact h
  | cons op rest ih => exact ih (wellFormed_apply h op)

theorem wellFormed_build (ops : List RingOp) : WellFormed (build ops) :=
  wellFormed_applyAll wellFormed_empty ops

/-! ## Lookups return the latest description -/

/-- What one operation says about the node `id`. -/
def note (id : Int) (current : Option NodeInfo) : RingOp → Option NodeInfo
  | .add node => if node.id = id then some node else current
  | .remove nodeId => if nodeId = id then none else current
  | .status nodeId alive =>
    if nodeId = id then current.map (fun n => { n with alive := alive }) else current

/-- The description of `id` after a history: that of the last `add` not followed
by a removal, with the status set last. -/
def latest (ops : List RingOp) (id : Int) : Option NodeInfo := ops.foldl (note id) none

theorem find?_apply (r : HashRing) (op : RingOp) (id : Int) :
    (r.apply op).nodesById.find? id = note id (r.nodesById.find? id) op := by
  cases op with
  | add node =>
    by_cases h : node.id = id
    · subst h
      simpa [HashRing.apply, addNode, note] using
        OrderedMap.find?_insert_self r.nodesById node.id node
    · simpa [HashRing.apply, addNode, note, h] using
        OrderedMap.find?_insert_of_ne r.nodesById node (Ne.symm h)
  | remove nodeId =>
    by_cases h : nodeId = id
    · subst h
      simpa [HashRing.apply, removeNode, note] using OrderedMap.find?_erase_self r.nodesById nodeId
    · simpa [HashRing.apply, removeNode, note, h] using
        OrderedMap.find?_erase_of_ne r.nodesById (Ne.symm h)
  | status nodeId alive =>
    rw [HashRing.apply, find?_updateNodeStatus, note]
    by_cases h : nodeId = id
    · rw [if_pos h.symm, if_pos h]
    · rw [if_neg (Ne.symm h), if_neg h]

theorem find?_applyAll (r : HashRing) (ops : List RingOp) (id : Int) :
    (r.applyAll ops).nodesById.find? id = ops.foldl (note id) (r.nodesById.find? id) := by
  induction ops generalizing r with
  | nil => rfl
  | cons op rest ih =>
    rw [List.foldl_cons, ← find?_apply]
    exact ih (r.apply op)

theorem find?_build (ops : List RingOp) (id : Int) :
    (build ops).nodesById.find? id = latest ops id :=
  find?_applyAll empty ops id

/-- Whatever `rf` is, a replica is an alive ring entry. -/
theorem mem_foldUntil_replicaBody {rf : Int} {l : List (UInt32 × NodeInfo)} {s : ReplicaState}
    {n : NodeInfo} (h : n ∈ (CircularWalk.foldUntil (replicaBody rf) l s).result) :
    n ∈ s.result ∨ (n.alive = true ∧ ∃ e ∈ l, e.2 = n) := by
  induction l generalizing s with
  | nil => exact Or.inl h
  | cons e rest ih =>
    have hnew : ∀ s' : ReplicaState, s' = (replicaBody rf s e).1 → n ∈ s'.result →
        n ∈ s.result ∨ (n.alive = true ∧ e.2 = n) := by
      intro s' hs' hn
      by_cases hc : (e.2.alive && decide (e.2.id ∉ s.seenIds)) = true
      · rw [replicaBody, if_pos hc] at hs'
        subst hs'
        rcases List.mem_append.mp hn with hn | hn
        · exact Or.inl hn
        · have hen := List.mem_singleton.mp hn
          rw [Bool.and_eq_true] at hc
          exact Or.inr ⟨hen ▸ hc.1, hen.symm⟩
      · rw [replicaBody, if_neg hc] at hs'
        have hsame : s' = s := hs'
        exact Or.inl (hsame ▸ hn)
    have hcases : n ∈ (replicaBody rf s e).1.result ∨
        (n.alive = true ∧ ∃ d ∈ rest, d.2 = n) := by
      rw [CircularWalk.foldUntil] at h
      cases hb : replicaBody rf s e with
      | mk s' stop =>
        rw [hb] at h
        cases stop with
        | true => exact Or.inl h
        | false => exact ih h
    rcases hcases with hn | ⟨ha, d, hd, hdn⟩
    · rcases hnew _ rfl hn with hn | ⟨ha, hen⟩
      · exact Or.inl hn
      · exact Or.inr ⟨ha, e, List.mem_cons_self, hen⟩
    · exact Or.inr ⟨ha, d, List.mem_cons_of_mem _ hd, hdn⟩

theorem entry_of_mem_getReplicas {r : HashRing} {key : Bytes} {rf : Int} {n : NodeInfo}
    (h : n ∈ r.getReplicas key rf) : n.alive = true ∧ ∃ e ∈ r.ring.entries, e.2 = n := by
  by_cases hne : r.ring.entries = []
  · simp [getReplicas, hne] at h
  · rw [getReplicas, if_neg hne] at h
    simp only [CircularWalk.walk_eq_foldUntil (replicaBody rf) _ (r.seek_lt (murmur3 key) hne)] at h
    rw [drop_seek_append_take] at h
    rcases mem_foldUntil_replicaBody h with h | ⟨ha, e, he, hen⟩
    · exact absurd h List.not_mem_nil
    · exact ⟨ha, e, (mem_entriesFrom r _ e).mp he, hen⟩

theorem entry_of_getPrimary {r : HashRing} {key : Bytes} {n : NodeInfo}
    (h : r.getPrimary key = some n) : n.alive = true ∧ ∃ e ∈ r.ring.entries, e.2 = n := by
  have hmem := mem_preference_of_getPrimary h
  obtain ⟨pos, hpos⟩ := exists_entry_of_mem_preference hmem
  exact ⟨alive_of_mem_preference hmem, (pos, n), hpos, rfl⟩

/-- The ring representation invariant holds after every history of operations,
and a lookup returns only nodes that the history leaves registered and alive,
with the address it gave them last. -/
theorem ring_representation (ops : List RingOp) :
    (∀ h n, (h, n) ∈ (build ops).ring.entries →
      (∃ i, i < virtualNodes ∧ h = vnodeHash n.id i) ∧
      ∃ m, (build ops).nodesById.find? n.id = some m ∧
        n.host = m.host ∧ n.port = m.port ∧ n.alive = m.alive) ∧
    (∀ key n, (build ops).getPrimary key = some n →
      latest ops n.id = some n ∧ n.alive = true) ∧
    (∀ key rf n, n ∈ (build ops).getReplicas key rf →
      latest ops n.id = some n ∧ n.alive = true) := by
  have hwf := wellFormed_build ops
  have hlatest : ∀ n : NodeInfo, n.alive = true ∧ (∃ e ∈ (build ops).ring.entries, e.2 = n) →
      latest ops n.id = some n ∧ n.alive = true := by
    rintro n ⟨ha, e, he, rfl⟩
    exact ⟨(find?_build ops e.2.id).symm.trans (hwf.registered e he), ha⟩
  refine ⟨fun h n hn => ⟨hwf.position (h, n) hn, n, hwf.registered (h, n) hn, rfl, rfl, rfl⟩,
    fun key n hn => hlatest n (entry_of_getPrimary hn),
    fun key rf n hn => hlatest n (entry_of_mem_getReplicas hn)⟩

end HashRing
end DistributedDb
