import DistributedDb.HashRing.Lookup
import Mathlib.Algebra.Group.Int.Defs

/-
The primary as the nearest alive position.

A lookup reads the ring from the first position at or after the hash of the
key, so the positions it meets lie further and further away clockwise.  The
primary is therefore the alive entry at the least clockwise distance from the
hash, whatever the ring holds.  Stated that way it no longer mentions the order
of the entries, which is what makes the effect of inserting many of them at
once easy to read.
-/

namespace DistributedDb
namespace HashRing

open CircularWalk

/-- How far `pos` lies after `h` on the circle of 32-bit positions. -/
def clockwiseDistance (h pos : UInt32) : Int := ((pos.toNat : Int) - h.toNat) % 2 ^ 32

theorem clockwiseDistance_of_le {h pos : UInt32} (hle : h ≤ pos) :
    clockwiseDistance h pos = (pos.toNat : Int) - h.toNat := by
  have hpos := pos.toNat_lt
  have hnat : h.toNat ≤ pos.toNat := UInt32.le_iff_toNat_le.mp hle
  unfold clockwiseDistance
  omega

theorem clockwiseDistance_of_lt {h pos : UInt32} (hlt : pos < h) :
    clockwiseDistance h pos = (pos.toNat : Int) - h.toNat + 2 ^ 32 := by
  have hh := h.toNat_lt
  have hnat : pos.toNat < h.toNat := UInt32.lt_iff_toNat_lt.mp hlt
  unfold clockwiseDistance
  omega

/-- Each entry a lookup meets lies further away than the ones before it. -/
theorem entriesFrom_sorted (r : HashRing) (h : UInt32) :
    (r.entriesFrom h).Pairwise fun a b => clockwiseDistance h a.1 < clockwiseDistance h b.1 := by
  refine List.pairwise_append.mpr ⟨?_, ?_, ?_⟩
  · refine (r.ring.sorted.filter _).imp_of_mem fun {a b} ha hb hab => ?_
    have hnat : a.1.toNat < b.1.toNat := UInt32.lt_iff_toNat_lt.mp hab
    rw [clockwiseDistance_of_le (of_decide_eq_true (List.mem_filter.mp ha).2),
      clockwiseDistance_of_le (of_decide_eq_true (List.mem_filter.mp hb).2)]
    omega
  · refine (r.ring.sorted.filter _).imp_of_mem fun {a b} ha hb hab => ?_
    have hnat : a.1.toNat < b.1.toNat := UInt32.lt_iff_toNat_lt.mp hab
    rw [clockwiseDistance_of_lt (of_decide_eq_true (List.mem_filter.mp ha).2),
      clockwiseDistance_of_lt (of_decide_eq_true (List.mem_filter.mp hb).2)]
    omega
  · -- An entry before the hash is met after the wrap, past every position.
    intro a ha b hb
    have htop := a.1.toNat_lt
    rw [clockwiseDistance_of_le (of_decide_eq_true (List.mem_filter.mp ha).2),
      clockwiseDistance_of_lt (of_decide_eq_true (List.mem_filter.mp hb).2)]
    omega

/-- `n` sits on an alive entry that no alive entry of the ring is closer than. -/
def Nearest (r : HashRing) (h : UInt32) (n : NodeInfo) : Prop :=
  ∃ pos, (pos, n) ∈ r.ring.entries ∧ n.alive = true ∧
    ∀ e ∈ r.ring.entries, e.2.alive = true → clockwiseDistance h pos ≤ clockwiseDistance h e.1

theorem getPrimary_eq_some_iff (r : HashRing) (key : Bytes) (n : NodeInfo) :
    r.getPrimary key = some n ↔ r.Nearest (murmur3 key) n := by
  have hfind := find?_eq_some_iff_of_sorted (fun e : UInt32 × NodeInfo => e.2.alive)
    (r.entriesFrom_sorted (murmur3 key))
  rw [getPrimary_eq_find?, clockwise, List.find?_map, Option.map_eq_some_iff]
  constructor
  · rintro ⟨e, he, rfl⟩
    obtain ⟨hmem, halive, hmin⟩ := (hfind e).mp he
    refine ⟨e.1, (r.mem_entriesFrom _ e).mp hmem, halive, fun d hd => ?_⟩
    exact hmin d ((r.mem_entriesFrom _ d).mpr hd)
  · rintro ⟨pos, hmem, halive, hmin⟩
    refine ⟨(pos, n), (hfind _).mpr ⟨(r.mem_entriesFrom _ _).mpr hmem, halive, fun d hd => ?_⟩, rfl⟩
    exact hmin d ((r.mem_entriesFrom _ d).mp hd)

theorem getPrimary_eq_none_iff (r : HashRing) (key : Bytes) :
    r.getPrimary key = none ↔ ∀ e ∈ r.ring.entries, e.2.alive = false := by
  rw [getPrimary_eq_find?, List.find?_eq_none]
  constructor
  · intro h e he
    simpa using h e.2 ((r.mem_clockwise key e.2).mpr ⟨e.1, he⟩)
  · intro h n hn
    obtain ⟨pos, hpos⟩ := (r.mem_clockwise key n).mp hn
    simpa using h (pos, n) hpos

/-- The primary loop of a ring with entries comes back to its start or leaves
it, and returns the alive entry nearest clockwise to the hash of the key, or
nothing when every entry is dead. -/
theorem getPrimary_nearest_alive (r : HashRing) (key : Bytes) :
    (r.ring.entries ≠ [] →
      ∃ found, walk primaryBody r.ring.entries (r.seek (murmur3 key)) r.ring.entries.length
        (r.seek (murmur3 key)) none = some found) ∧
    (∀ n, r.getPrimary key = some n ↔
      ∃ pos, (pos, n) ∈ r.ring.entries ∧ n.alive = true ∧
        ∀ e ∈ r.ring.entries, e.2.alive = true →
          clockwiseDistance (murmur3 key) pos ≤ clockwiseDistance (murmur3 key) e.1) ∧
    (r.getPrimary key = none ↔ ¬ ∃ e ∈ r.ring.entries, e.2.alive = true) := by
  refine ⟨fun hne => ?_, r.getPrimary_eq_some_iff key, ?_⟩
  · exact ⟨_, walk_eq_foldUntil primaryBody _ (r.seek_lt (murmur3 key) hne) _⟩
  · rw [getPrimary_eq_none_iff]
    simp

/-! ## Adding a node -/

/-- After a live node has been added, a key goes to that node or stays where it
was: a position of the new node only ever takes the place of an entry at the
same distance. -/
theorem nearest_of_nearest_addNode {r : HashRing} {n m : NodeInfo} (hn : n.alive = true)
    {h : UInt32} (hm : (r.addNode n).Nearest h m) : m = n ∨ r.Nearest h m := by
  obtain ⟨pos, hmem, halive, hmin⟩ := hm
  rcases (mem_addNode r n _).mp hmem with ⟨i, hi, he⟩ | ⟨hold, -⟩
  · exact Or.inl (Prod.mk.inj he).2
  · refine Or.inr ⟨pos, hold, halive, fun e he healive => ?_⟩
    by_cases hpos : ∃ i, i < virtualNodes ∧ e.1 = vnodeHash n.id i
    · obtain ⟨i, hi, hei⟩ := hpos
      have hnew := hmin (vnodeHash n.id i, n) ((mem_addNode r n _).mpr (Or.inl ⟨i, hi, rfl⟩)) hn
      rwa [← hei] at hnew
    · refine hmin e ((mem_addNode r n e).mpr (Or.inr ⟨he, fun i hi hei => ?_⟩)) healive
      exact hpos ⟨i, hi, hei⟩

/-- A ring with a live node in it has a primary for every key. -/
theorem getPrimary_addNode_ne_none (r : HashRing) {n : NodeInfo} (hn : n.alive = true)
    (key : Bytes) : (r.addNode n).getPrimary key ≠ none := by
  intro hnone
  have hmem : (vnodeHash n.id 0, n) ∈ (r.addNode n).ring.entries :=
    (mem_addNode r n _).mpr (Or.inl ⟨0, by decide, rfl⟩)
  have hdead : n.alive = false := (getPrimary_eq_none_iff _ key).mp hnone _ hmem
  exact absurd hn (by simp [hdead])

/-- Adding a live node to a ring with any history, under a new id or one that is
already there, moves no key except to that node. -/
theorem addNode_moves_keys_to_node (history : List RingOp) (n : NodeInfo) (hn : n.alive = true)
    (key : Bytes) :
    ∃ p, ((build history).addNode n).getPrimary key = some p ∧
      (((build history).getPrimary key).map NodeInfo.id = some p.id ∨ p.id = n.id) := by
  obtain ⟨p, hp⟩ := Option.ne_none_iff_exists'.mp
    (getPrimary_addNode_ne_none (build history) hn key)
  refine ⟨p, hp, ?_⟩
  rcases nearest_of_nearest_addNode hn ((getPrimary_eq_some_iff _ key p).mp hp) with rfl | hold
  · exact Or.inr rfl
  · rw [(getPrimary_eq_some_iff _ key p).mpr hold]
    exact Or.inl rfl

/-- Node 2 rejoins a ring that still holds its entries, flagged dead. -/
theorem addNode_moves_keys_to_node_rejoin :
    ∃ p, ((build [.add (launchNode 1), .add (launchNode 2), .status 2 false]).addNode
        (launchNode 2)).getPrimary (ascii "k") = some p ∧
      (((build [.add (launchNode 1), .add (launchNode 2), .status 2 false]).getPrimary
        (ascii "k")).map NodeInfo.id = some p.id ∨ p.id = (launchNode 2).id) :=
  addNode_moves_keys_to_node [.add (launchNode 1), .add (launchNode 2), .status 2 false]
    (launchNode 2) rfl (ascii "k")

end HashRing
end DistributedDb
