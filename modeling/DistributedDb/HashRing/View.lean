import DistributedDb.HashRing.Removal

/-
One ring seen by many nodes.

The nodes of a cluster hold the same positions and owners and differ in the
alive flags they have set.  `owners` lists the owners a lookup of a key meets,
dead or alive, and a node that flags them by `view` prefers the ones it believes
to be alive, in that order.
-/

namespace DistributedDb
namespace HashRing

open CircularWalk

/-- The description of a node with another alive flag. -/
def flagged (view : Int → Bool) (n : NodeInfo) : NodeInfo := { n with alive := view n.id }

@[simp] theorem flagged_id (view : Int → Bool) (n : NodeInfo) : (flagged view n).id = n.id := rfl

@[simp] theorem flagged_host (view : Int → Bool) (n : NodeInfo) :
    (flagged view n).host = n.host := rfl

@[simp] theorem flagged_port (view : Int → Bool) (n : NodeInfo) :
    (flagged view n).port = n.port := rfl

/-- `r` has the positions and the owners of `base`, and flags them by `view`. -/
def Sees (r base : HashRing) (view : Int → Bool) : Prop :=
  r.ring.entries = base.ring.entries.map fun e => (e.1, flagged view e.2)

/-- The owners a lookup of `key` meets, each at its first occurrence. -/
def owners (base : HashRing) (key : Bytes) : List NodeInfo :=
  firstBy NodeInfo.id (base.clockwise key)

theorem nodup_owners (base : HashRing) (key : Bytes) :
    ((base.owners key).map NodeInfo.id).Nodup :=
  nodup_map_firstBy _ _

theorem exists_entry_of_mem_owners {base : HashRing} {key : Bytes} {n : NodeInfo}
    (h : n ∈ base.owners key) : ∃ pos, (pos, n) ∈ base.ring.entries :=
  (base.mem_clockwise key n).mp (mem_of_mem_firstBy h)

/-- When all owners are flagged alive, they are all preferred. -/
theorem owners_eq_preference {base : HashRing} (h : ∀ e ∈ base.ring.entries, e.2.alive = true)
    (key : Bytes) : base.owners key = base.preference key := by
  rw [owners, preference, List.filter_eq_self.mpr]
  intro n hn
  obtain ⟨pos, hpos⟩ := (base.mem_clockwise key n).mp hn
  exact h (pos, n) hpos

theorem getReplicas_eq_take_owners {base : HashRing}
    (h : ∀ e ∈ base.ring.entries, e.2.alive = true) (key : Bytes) (rf : Nat) (hrf : 1 ≤ rf) :
    base.getReplicas key rf = (base.owners key).take rf := by
  rw [owners_eq_preference h]
  exact getReplicas_eq_take base key hrf

/-- Lookups read the entries alone. -/
theorem clockwise_congr {r s : HashRing} (h : r.ring.entries = s.ring.entries) (key : Bytes) :
    r.clockwise key = s.clockwise key := by
  rw [clockwise, clockwise, entriesFrom, entriesFrom, h]

theorem getPrimary_congr {r s : HashRing} (h : r.ring.entries = s.ring.entries) (key : Bytes) :
    r.getPrimary key = s.getPrimary key := by
  rw [getPrimary_eq_find?, getPrimary_eq_find?, clockwise_congr h]

theorem getReplicas_congr {r s : HashRing} (h : r.ring.entries = s.ring.entries) (key : Bytes)
    (rf : Nat) (hrf : 1 ≤ rf) : r.getReplicas key rf = s.getReplicas key rf := by
  rw [getReplicas_eq_take r key hrf, getReplicas_eq_take s key hrf, preference, preference,
    clockwise_congr h]

/-- Marking a node alive changes nothing when all are. -/
theorem entries_updateNodeStatus_true {r : HashRing} (h : ∀ e ∈ r.ring.entries, e.2.alive = true)
    (nodeId : Int) : (r.updateNodeStatus nodeId true).ring.entries = r.ring.entries := by
  by_cases hreg : r.nodesById.find? nodeId = none
  · rw [updateNodeStatus_of_unknown r true hreg]
  · rw [entries_updateNodeStatus r true hreg]
    refine (List.map_congr_left fun e he => ?_).trans (List.map_id _)
    have halive := h e he
    unfold setAlive
    split
    · rw [← halive]
      rfl
    · rfl

/-- A node owns some position of the ring. -/
def Owns (base : HashRing) (i : Int) : Prop := ∃ e ∈ base.ring.entries, e.2.id = i

theorem sees_self {base : HashRing} {view : Int → Bool}
    (h : ∀ e ∈ base.ring.entries, e.2.alive = view e.2.id) : Sees base base view := by
  refine (List.map_id _).symm.trans (List.map_congr_left fun e he => ?_)
  show e = (e.1, flagged view e.2)
  rw [flagged, ← h e he]

namespace Sees

variable {r base : HashRing} {view : Int → Bool}

/-- A status update changes the view at that node.  An id that is not
registered owns nothing, so there the view does not matter. -/
theorem updateNodeStatus (h : Sees r base view) (hwf : WellFormed r) (nodeId : Int)
    (alive : Bool) :
    Sees (r.updateNodeStatus nodeId alive) base (Function.update view nodeId alive) := by
  by_cases hreg : r.nodesById.find? nodeId = none
  · rw [updateNodeStatus_of_unknown r alive hreg]
    refine h.trans (List.map_congr_left fun e he => ?_)
    have hown := hwf.registered (e.1, flagged view e.2) (h ▸ List.mem_map_of_mem he)
    have hne : e.2.id ≠ nodeId := by
      intro hid
      rw [flagged_id, hid, hreg] at hown
      exact absurd hown (by simp)
    simp [flagged, hne]
  · rw [Sees, entries_updateNodeStatus r alive hreg, h, List.map_map]
    refine List.map_congr_left fun e _ => ?_
    by_cases hid : e.2.id = nodeId
    · simp [setAlive, flagged, hid]
    · simp [setAlive, flagged, hid]

theorem clockwise (h : Sees r base view) (key : Bytes) :
    r.clockwise key = (base.clockwise key).map (flagged view) := by
  rw [HashRing.clockwise, HashRing.clockwise, entriesFrom_eq_map h, List.map_map, List.map_map]
  rfl

theorem preference (h : Sees r base view) (key : Bytes) :
    r.preference key =
      ((base.owners key).filter fun n => view n.id).map (flagged view) := by
  rw [HashRing.preference, h.clockwise key, List.filter_map,
    firstBy_map (fun n => flagged_id view n)]
  show (firstBy NodeInfo.id ((base.clockwise key).filter fun n => view n.id)).map _ = _
  rw [firstBy_filter NodeInfo.id view, owners]

theorem getPrimary (h : Sees r base view) (key : Bytes) :
    r.getPrimary key =
      ((base.owners key).filter fun n => view n.id).head?.map (flagged view) := by
  rw [getPrimary_eq_head?, h.preference, List.head?_map]

theorem getReplicas (h : Sees r base view) (key : Bytes) (rf : Nat) (hrf : 1 ≤ rf) :
    r.getReplicas key rf =
      (((base.owners key).filter fun n => view n.id).take rf).map (flagged view) := by
  rw [getReplicas_eq_take r key hrf, h.preference, List.map_take]

end Sees

/-- The ring of a node that has detected the failure of the nodes `ids`. -/
def markDead (r : HashRing) (ids : List Int) : HashRing :=
  ids.foldl (fun r id => r.updateNodeStatus id false) r

theorem sees_markDead {base : HashRing} (hwf : WellFormed base)
    (halive : ∀ e ∈ base.ring.entries, e.2.alive = true) (ids : List Int) :
    Sees (base.markDead ids) base fun id => decide (id ∉ ids) := by
  have hall : ∀ (r : HashRing) (view : Int → Bool), WellFormed r → Sees r base view →
      Sees (r.markDead ids) base fun id => view id && decide (id ∉ ids) := by
    induction ids with
    | nil =>
      intro r view _ h
      simpa [markDead] using h
    | cons d rest ih =>
      intro r view hr h
      have hstep := ih (r.updateNodeStatus d false) _ (wellFormed_updateNodeStatus hr d false)
        (h.updateNodeStatus hr d false)
      show Sees ((r.updateNodeStatus d false).markDead rest) base _
      convert hstep using 2
      rename_i id
      by_cases hid : id = d
      · simp [hid]
      · simp [hid]
  simpa using hall base (fun _ => true) hwf (sees_self halive)

theorem wellFormed_markDead {r : HashRing} (h : WellFormed r) (ids : List Int) :
    WellFormed (r.markDead ids) := by
  induction ids generalizing r with
  | nil => exact h
  | cons d rest ih => exact ih (wellFormed_updateNodeStatus h d false)

theorem find?_markDead (r : HashRing) (ids : List Int) (id : Int) :
    (r.markDead ids).nodesById.find? id =
      if id ∈ ids then (r.nodesById.find? id).map (fun n => { n with alive := false })
      else r.nodesById.find? id := by
  induction ids generalizing r with
  | nil => simp [markDead]
  | cons d rest ih =>
    show ((r.updateNodeStatus d false).markDead rest).nodesById.find? id = _
    rw [ih, find?_updateNodeStatus]
    by_cases hd : id = d
    · by_cases hrest : id ∈ rest
      · simp [hd, hd ▸ hrest, Function.comp_def]
      · simp [hd, hd ▸ hrest]
    · by_cases hrest : id ∈ rest
      · simp [hd, hrest]
      · simp [hd, hrest]

/-- Every copy of the description of `id` has the flag `alive`. -/
def Flagged (r : HashRing) (id : Int) (alive : Bool) : Prop :=
  (r.nodesById.find? id).map NodeInfo.alive = some alive ∧
    ∀ e ∈ r.ring.entries, e.2.id = id → e.2.alive = alive

theorem WellFormed.flagged {r : HashRing} (h : WellFormed r) {id : Int} {n : NodeInfo}
    (hn : r.nodesById.find? id = some n) : r.Flagged id n.alive := by
  refine ⟨by rw [hn, Option.map_some], fun e he hid => ?_⟩
  have hreg := h.registered e he
  rw [hid, hn] at hreg
  rw [← Option.some.inj hreg]

theorem Flagged.unique {r : HashRing} {id : Int} {b c : Bool} (hb : r.Flagged id b)
    (hc : r.Flagged id c) : b = c :=
  Option.some.inj (hb.1.symm.trans hc.1)

/-- A status update leaves the flags of the other nodes. -/
theorem flagged_updateNodeStatus_of_ne (r : HashRing) {nodeId id : Int} (h : id ≠ nodeId)
    (b alive : Bool) : (r.updateNodeStatus nodeId b).Flagged id alive ↔ r.Flagged id alive := by
  rw [Flagged, Flagged, find?_updateNodeStatus, if_neg h]
  refine and_congr_right fun _ => ?_
  by_cases hreg : r.nodesById.find? nodeId = none
  · rw [updateNodeStatus_of_unknown r b hreg]
  · rw [entries_updateNodeStatus r b hreg]
    simp only [List.forall_mem_map, setAlive_id]
    refine forall₃_congr fun e _ hid => ?_
    rw [setAlive, if_neg (hid ▸ h)]

theorem wellFormed_foldl_addNode {r : HashRing} (h : WellFormed r) (nodes : List NodeInfo) :
    WellFormed (nodes.foldl addNode r) := by
  induction nodes generalizing r with
  | nil => exact h
  | cons n rest ih =>
    rw [List.foldl_cons]
    exact ih (wellFormed_addNode h n)

theorem nodesById_addNode (r : HashRing) (node : NodeInfo) :
    (r.addNode node).nodesById = r.nodesById.insert node.id node := rfl

theorem find?_foldl_addNode {r : HashRing} {nodes : List NodeInfo} {id : Int} {n : NodeInfo}
    (h : (nodes.foldl addNode r).nodesById.find? id = some n) :
    n ∈ nodes ∨ r.nodesById.find? id = some n := by
  induction nodes generalizing r with
  | nil => exact Or.inr h
  | cons m rest ih =>
    rw [List.foldl_cons] at h
    rcases ih h with hn | hn
    · exact Or.inl (List.mem_cons_of_mem _ hn)
    · rw [nodesById_addNode] at hn
      by_cases hid : id = m.id
      · rw [hid, OrderedMap.find?_insert_self] at hn
        exact Or.inl (Option.some.inj hn ▸ List.mem_cons_self)
      · rw [OrderedMap.find?_insert_of_ne _ _ hid] at hn
        exact Or.inr hn

theorem registered_foldl_addNode {r : HashRing} {nodes : List NodeInfo} {id : Int}
    (h : id ∈ nodes.map NodeInfo.id ∨ r.nodesById.find? id ≠ none) :
    (nodes.foldl addNode r).nodesById.find? id ≠ none := by
  induction nodes generalizing r with
  | nil =>
    rcases h with h | h
    · exact absurd h List.not_mem_nil
    · exact h
  | cons m rest ih =>
    rw [List.foldl_cons]
    refine ih ?_
    rw [nodesById_addNode]
    by_cases hid : id = m.id
    · exact Or.inr (by simp [hid, OrderedMap.find?_insert_self])
    · rw [OrderedMap.find?_insert_of_ne _ _ hid]
      rcases h with h | h
      · exact Or.inl ((List.mem_cons.mp h).resolve_left hid)
      · exact Or.inr h

end HashRing
end DistributedDb
