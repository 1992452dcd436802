import DistributedDb.HashRing.Invariant

/-
What routing does when nodes go away.

A node leaves by being erased from the ring or by being flagged dead.  Either
way the preference list of every key loses that node and nothing else, so after
any set of departures the replicas of a key are read off the old, longer
replica list.
-/

namespace DistributedDb
namespace HashRing

open CircularWalk

/-- The two ways a node is taken out of routing. -/
inductive Departure where
  | removed (nodeId : Int)
  | markedDead (nodeId : Int)
  deriving DecidableEq, Repr

def Departure.nodeId : Departure → Int
  | .removed nodeId => nodeId
  | .markedDead nodeId => nodeId

def Departure.op : Departure → RingOp
  | .removed nodeId => .remove nodeId
  | .markedDead nodeId => .status nodeId false

theorem entriesFrom_removeNode (r : HashRing) (nodeId : Int) (h : UInt32) :
    (r.removeNode nodeId).entriesFrom h =
      (r.entriesFrom h).filter fun e => decide (e.2.id ≠ nodeId) := by
  simp only [entriesFrom, removeNode, OrderedMap.eraseIf, List.filter_append, List.filter_filter]
  congr 1 <;>
    · refine List.filter_congr fun e _ => ?_
      rw [Bool.and_comm, ← decide_not]

/-- Rewriting the values of the ring leaves the reading order. -/
theorem entriesFrom_eq_map {r s : HashRing} {f : NodeInfo → NodeInfo}
    (hs : s.ring.entries = r.ring.entries.map fun e => (e.1, f e.2)) (h : UInt32) :
    s.entriesFrom h = (r.entriesFrom h).map fun e => (e.1, f e.2) := by
  simp only [entriesFrom, hs, List.filter_map, List.map_append]
  rfl

theorem clockwise_removeNode (r : HashRing) (nodeId : Int) (key : Bytes) :
    (r.removeNode nodeId).clockwise key =
      (r.clockwise key).filter fun n => decide (n.id ≠ nodeId) := by
  rw [clockwise, clockwise, entriesFrom_removeNode, List.filter_map]
  rfl

theorem clockwise_updateNodeStatus (r : HashRing) {nodeId : Int} (alive : Bool) (key : Bytes)
    (h : r.nodesById.find? nodeId ≠ none) :
    (r.updateNodeStatus nodeId alive).clockwise key =
      (r.clockwise key).map (setAlive nodeId alive) := by
  rw [clockwise, clockwise, entriesFrom_eq_map (entries_updateNodeStatus r alive h),
    List.map_map, List.map_map]
  rfl

/-- Flagging a node dead and keeping the alive entries drops its entries. -/
theorem filter_alive_map_setAlive (nodeId : Int) (l : List NodeInfo) :
    (l.map (setAlive nodeId false)).filter NodeInfo.alive =
      (l.filter NodeInfo.alive).filter fun n => decide (n.id ≠ nodeId) := by
  induction l with
  | nil => rfl
  | cons n rest ih =>
    by_cases hid : n.id = nodeId
    · have hdead : (setAlive nodeId false n).alive = false := by simp [setAlive, hid]
      rw [List.map_cons, List.filter_cons_of_neg (by simp [hdead]), ih, List.filter_filter,
        List.filter_filter, List.filter_cons_of_neg (by simp [hid])]
    · have hsame : setAlive nodeId false n = n := by simp [setAlive, hid]
      rw [List.map_cons, hsame]
      by_cases ha : n.alive = true
      · rw [List.filter_cons_of_pos ha, List.filter_cons_of_pos ha,
          List.filter_cons_of_pos (by simpa using hid), ih]
      · rw [List.filter_cons_of_neg ha, List.filter_cons_of_neg ha, ih]

/-- One departure removes one node from the alive entries and keeps the rest in
order. -/
theorem alive_clockwise_departure {r : HashRing} (hr : WellFormed r) (d : Departure) (key : Bytes) :
    ((r.apply d.op).clockwise key).filter NodeInfo.alive =
      ((r.clockwise key).filter NodeInfo.alive).filter fun n => decide (n.id ≠ d.nodeId) := by
  cases d with
  | removed nodeId =>
    show ((r.removeNode nodeId).clockwise key).filter NodeInfo.alive = _
    rw [clockwise_removeNode, List.filter_filter, List.filter_filter]
    refine List.filter_congr fun n _ => ?_
    rw [Bool.and_comm]
    rfl
  | markedDead nodeId =>
    show ((r.updateNodeStatus nodeId false).clockwise key).filter NodeInfo.alive = _
    by_cases hknown : r.nodesById.find? nodeId = none
    · -- No ring entry carries an id that is not registered.
      rw [updateNodeStatus_of_unknown r false hknown]
      symm
      rw [List.filter_eq_self]
      intro n hn
      obtain ⟨pos, hpos⟩ := (r.mem_clockwise key n).mp (List.mem_filter.mp hn).1
      have hreg := hr.registered (pos, n) hpos
      have hne : n.id ≠ nodeId := by
        intro h
        rw [h, hknown] at hreg
        exact absurd hreg (by simp)
      exact decide_eq_true hne
    · rw [clockwise_updateNodeStatus r false key hknown, filter_alive_map_setAlive]
      rfl

theorem alive_clockwise_departures {r : HashRing} (hr : WellFormed r) (out : List Departure)
    (key : Bytes) :
    ((r.applyAll (out.map Departure.op)).clockwise key).filter NodeInfo.alive =
      ((r.clockwise key).filter NodeInfo.alive).filter
        fun n => decide (n.id ∉ (out.map Departure.nodeId).toFinset) := by
  induction out generalizing r with
  | nil => simp [applyAll]
  | cons d rest ih =>
    show (((r.apply d.op).applyAll (rest.map Departure.op)).clockwise key).filter _ = _
    rw [ih (wellFormed_apply hr d.op), alive_clockwise_departure hr d key, List.filter_filter]
    refine List.filter_congr fun n _ => ?_
    simp only [List.map_cons, List.toFinset_cons, Finset.mem_insert, not_or, Bool.decide_and]
    rw [Bool.and_comm]

/-- The preference list after the departures is the old one without the nodes
that left. -/
theorem preference_departures {r : HashRing} (hr : WellFormed r) (out : List Departure)
    (key : Bytes) :
    (r.applyAll (out.map Departure.op)).preference key =
      (r.preference key).filter
        fun n => decide (n.id ∉ (out.map Departure.nodeId).toFinset) := by
  rw [preference, preference, alive_clockwise_departures hr]
  exact firstBy_filter NodeInfo.id (fun id => decide (id ∉ (out.map Departure.nodeId).toFinset)) _

/-- Failure and removal law: for every ring reachable by any history, taking
the members of `d` out by erasing or flagging them, in any mix and order, turns
the replica list into the old longer list without `d`. -/
theorem departures_law (history : List RingOp) (out : List Departure) (d : Finset Int)
    (hd : (out.map Departure.nodeId).toFinset = d) (key : Bytes) (rf : Nat) (hrf : 1 ≤ rf) :
    let old := build history
    let new := old.applyAll (out.map Departure.op)
    let survivors := ((old.getReplicas key (rf + d.card : Nat)).filter
      fun n => decide (n.id ∉ d)).take rf
    new.getReplicas key rf = survivors ∧
    new.getPrimary key = survivors.head? ∧
    (∀ p, old.getPrimary key = some p → p.id ∉ d → new.getPrimary key = some p) ∧
    (d.card < rf → (old.getReplicas key rf).length = rf →
      ∃ q ∈ old.getReplicas key rf, new.getPrimary key = some q) := by
  intro old new survivors
  have hpref : new.preference key = (old.preference key).filter fun n => decide (n.id ∉ d) := by
    rw [← hd]
    exact preference_departures (wellFormed_build history) out key
  have hsurv : survivors = (new.preference key).take rf := by
    rw [hpref, take_filter_not_mem NodeInfo.id d rf (nodup_preference old key)]
    show ((old.getReplicas key (rf + d.card : Nat)).filter _).take rf = _
    rw [getReplicas_eq_take old key (by omega)]
  have hhead : survivors.head? = (new.preference key).head? := by
    rw [hsurv, List.head?_take, if_neg (by omega)]
  refine ⟨by rw [hsurv, getReplicas_eq_take new key hrf], by rw [hhead, getPrimary_eq_head?],
    fun p hp hpd => ?_, fun hcard hfull => ?_⟩
  · rw [getPrimary_eq_head?] at hp ⊢
    rw [hpref]
    cases hl : old.preference key with
    | nil => simp [hl] at hp
    | cons a rest =>
      rw [hl] at hp
      obtain rfl : a = p := Option.some.inj hp
      rw [List.filter_cons_of_pos (by simpa using hpd), List.head?_cons]
  · -- Fewer than `rf` of the `rf` old replicas left, so one of them is still
    -- preferred, and the first that is comes first in the new list.
    rw [getReplicas_eq_take old key hrf] at hfull ⊢
    have hnodup : (((old.preference key).take rf).map NodeInfo.id).Nodup :=
      (nodup_preference old key).sublist ((List.take_sublist rf _).map _)
    obtain ⟨n, hn, hnd⟩ := exists_not_mem_of_card_lt NodeInfo.id (d := d) hnodup (by omega)
    rw [getPrimary_eq_head?, hpref]
    exact exists_head?_filter_of_mem_take hn (by simpa using hnd)

/-- Node 2 of the launch script is erased and node 3 is flagged dead. -/
theorem departures_law_launch :
    ((build [.add (launchNode 1), .add (launchNode 2), .add (launchNode 3)]).applyAll
        [.remove 2, .status 3 false]).getReplicas (ascii "user1") 3 =
      (((build [.add (launchNode 1), .add (launchNode 2), .add (launchNode 3)]).getReplicas
        (ascii "user1") 5).filter fun n => decide (n.id ∉ ({2, 3} : Finset Int))).take 3 :=
  (departures_law [.add (launchNode 1), .add (launchNode 2), .add (launchNode 3)]
    [.removed 2, .markedDead 3] {2, 3} (by decide) (ascii "user1") 3 (by decide)).1

end HashRing
end DistributedDb
