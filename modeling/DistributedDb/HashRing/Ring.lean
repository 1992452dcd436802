import DistributedDb.Lib.OrderedMap
import DistributedDb.Lib.CircularWalk
import DistributedDb.HashRing.Murmur3

/-
The consistent hash ring.

`ring` maps a 32-bit position to the node that owns it and `nodesById` is the
registry of the physical nodes.  A node description is copied into each of its
ring entries, so an update of a node touches up to `virtualNodes` entries and
the registry.  Both lookups start at the first position at or after the hash of
the key and go once around.
-/

namespace DistributedDb

structure HashRing where
  ring : OrderedMap UInt32 NodeInfo
  nodesById : OrderedMap Int NodeInfo

namespace HashRing

def virtualNodes : Nat := 150

def empty : HashRing := { ring := OrderedMap.empty, nodesById := OrderedMap.empty }

def addNode (r : HashRing) (node : NodeInfo) : HashRing :=
  { nodesById := r.nodesById.insert node.id node
    ring := (List.range virtualNodes).foldl
      (fun m i => m.insert (vnodeHash node.id i) node) r.ring }

def removeNode (r : HashRing) (nodeId : Int) : HashRing :=
  { nodesById := r.nodesById.erase nodeId
    ring := r.ring.eraseIf fun e => decide (e.2.id = nodeId) }

/-- An id that is not registered is ignored, ring entries included. -/
def updateNodeStatus (r : HashRing) (nodeId : Int) (alive : Bool) : HashRing :=
  match r.nodesById.find? nodeId with
  | none => r
  | some n =>
    { nodesById := r.nodesById.insert nodeId { n with alive := alive }
      ring := r.ring.mapValues fun e =>
        if e.2.id = nodeId then { e.2 with alive := alive } else e.2 }

/-- `lower_bound` of a hash, wrapped to the first entry when it is the end. -/
def seek (r : HashRing) (h : UInt32) : Nat :=
  if r.ring.lowerBound h = r.ring.entries.length then 0 else r.ring.lowerBound h

/-- The body of the primary loop: leave at the first entry that is alive. -/
def primaryBody (found : Option NodeInfo) (e : UInt32 × NodeInfo) : Option NodeInfo × Bool :=
  if e.2.alive then (some e.2, true) else (found, false)

def getPrimary (r : HashRing) (key : Bytes) : Option NodeInfo :=
  if r.ring.entries = [] then none
  else
    let start := r.seek (murmur3 key)
    (CircularWalk.walk primaryBody r.ring.entries start r.ring.entries.length start none).getD none

/-- `result` and `seen_ids` of the replica loop. -/
structure ReplicaState where
  result : List NodeInfo
  seenIds : List Int

/-- The body of the replica loop: an alive entry with an id not seen yet is
appended, and the loop breaks when the result has reached `rf` elements. -/
def replicaBody (rf : Int) (s : ReplicaState) (e : UInt32 × NodeInfo) : ReplicaState × Bool :=
  if e.2.alive && decide (e.2.id ∉ s.seenIds) then
    let s' : ReplicaState := { result := s.result ++ [e.2], seenIds := e.2.id :: s.seenIds }
    (s', decide ((s'.result.length : Int) = rf))
  else (s, false)

def getReplicas (r : HashRing) (key : Bytes) (rf : Int) : List NodeInfo :=
  if r.ring.entries = [] then []
  else
    let start := r.seek (murmur3 key)
    match CircularWalk.walk (replicaBody rf) r.ring.entries start r.ring.entries.length start
        { result := [], seenIds := [] } with
    | none => []
    | some s => s.result

/-! ## Sequences of operations -/

inductive RingOp where
  | add (node : NodeInfo)
  | remove (nodeId : Int)
  | status (nodeId : Int) (alive : Bool)
  deriving DecidableEq, Repr

def apply (r : HashRing) : RingOp → HashRing
  | .add node => r.addNode node
  | .remove nodeId => r.removeNode nodeId
  | .status nodeId alive => r.updateNodeStatus nodeId alive

def applyAll (r : HashRing) (ops : List RingOp) : HashRing := ops.foldl apply r

/-- The ring a history of operations leaves, starting from an empty ring. -/
def build (ops : List RingOp) : HashRing := applyAll empty ops

/-! ## What the entries are after each operation -/

/-- Entries of the ring after the vnode loop over the indices below `n`: the
node's own positions carry it, every other position is as before. -/
theorem mem_foldl_insert (node : NodeInfo) (pos : Nat → UInt32) (m : OrderedMap UInt32 NodeInfo)
    (n : Nat) (e : UInt32 × NodeInfo) :
    e ∈ ((List.range n).foldl (fun m i => m.insert (pos i) node) m).entries ↔
      (∃ i, i < n ∧ e = (pos i, node)) ∨ (e ∈ m.entries ∧ ∀ i, i < n → e.1 ≠ pos i) := by
  induction n with
  | zero => simp
  | succ n ih =>
    rw [List.range_succ, List.foldl_append, List.foldl_cons, List.foldl_nil,
      OrderedMap.mem_insert, ih]
    constructor
    · rintro (rfl | ⟨⟨i, hi, he⟩ | ⟨he, hne⟩, hk⟩)
      · exact Or.inl ⟨n, by omega, rfl⟩
      · exact Or.inl ⟨i, by omega, he⟩
      · refine Or.inr ⟨he, fun i hi => ?_⟩
        by_cases hin : i = n
        · exact hin ▸ hk
        · exact hne i (by omega)
    · rintro (⟨i, hi, he⟩ | ⟨he, hne⟩)
      · by_cases hp : pos i = pos n
        · exact Or.inl (by rw [he, hp])
        · have hin : i ≠ n := fun h => hp (by rw [h])
          exact Or.inr ⟨Or.inl ⟨i, by omega, he⟩, by rw [he]; exact hp⟩
      · exact Or.inr ⟨Or.inr ⟨he, fun i hi => hne i (by omega)⟩, hne n (by omega)⟩

theorem mem_addNode (r : HashRing) (node : NodeInfo) (e : UInt32 × NodeInfo) :
    e ∈ (r.addNode node).ring.entries ↔
      (∃ i, i < virtualNodes ∧ e = (vnodeHash node.id i, node)) ∨
        (e ∈ r.ring.entries ∧ ∀ i, i < virtualNodes → e.1 ≠ vnodeHash node.id i) :=
  mem_foldl_insert node (vnodeHash node.id) r.ring virtualNodes e

theorem mem_removeNode (r : HashRing) (nodeId : Int) (e : UInt32 × NodeInfo) :
    e ∈ (r.removeNode nodeId).ring.entries ↔ e ∈ r.ring.entries ∧ e.2.id ≠ nodeId := by
  rw [removeNode, OrderedMap.mem_eraseIf, decide_eq_false_iff_not]

/-- The flag a status update leaves on a node description. -/
def setAlive (nodeId : Int) (alive : Bool) (n : NodeInfo) : NodeInfo :=
  if n.id = nodeId then { n with alive := alive } else n

@[simp] theorem setAlive_id (nodeId : Int) (alive : Bool) (n : NodeInfo) :
    (setAlive nodeId alive n).id = n.id := by
  unfold setAlive
  split <;> rfl

theorem entries_updateNodeStatus (r : HashRing) {nodeId : Int} (alive : Bool)
    (h : r.nodesById.find? nodeId ≠ none) :
    (r.updateNodeStatus nodeId alive).ring.entries =
      r.ring.entries.map fun e => (e.1, setAlive nodeId alive e.2) := by
  cases hf : r.nodesById.find? nodeId with
  | none => exact absurd hf h
  | some n => simp only [updateNodeStatus, hf, OrderedMap.mapValues, setAlive]

theorem updateNodeStatus_of_unknown (r : HashRing) {nodeId : Int} (alive : Bool)
    (h : r.nodesById.find? nodeId = none) : r.updateNodeStatus nodeId alive = r := by
  simp only [updateNodeStatus, h]

theorem find?_updateNodeStatus (r : HashRing) (nodeId : Int) (alive : Bool) (id : Int) :
    (r.updateNodeStatus nodeId alive).nodesById.find? id =
      if id = nodeId then (r.nodesById.find? id).map (fun n => { n with alive := alive })
      else r.nodesById.find? id := by
  by_cases hid : id = nodeId
  · subst hid
    cases hf : r.nodesById.find? id with
    | none => simp [updateNodeStatus_of_unknown r alive hf, hf]
    | some n => simp [updateNodeStatus, hf, OrderedMap.find?_insert_self]
  · cases hf : r.nodesById.find? nodeId with
    | none => simp [updateNodeStatus_of_unknown r alive hf, hid]
    | some n => simp [updateNodeStatus, hf, OrderedMap.find?_insert_of_ne _ _ hid, hid]

end HashRing
end DistributedDb
