import DistributedDb.HashRing.View

/-
The ring of the three nodes that the launch script starts.

The owners of one key are worked out without building the ring: the entries a
lookup meets are cut into windows, and the virtual nodes that fall into a window
are read off their hashes.
-/

namespace DistributedDb
namespace HashRing

open CircularWalk

def launchRing : HashRing := build [.add (launchNode 1), .add (launchNode 2), .add (launchNode 3)]

/-- Some virtual node of `id` stands in the window from `low` to below `high`. -/
def inWindow (low high : UInt32) (id : Int) : Bool :=
  (List.range virtualNodes).any fun i =>
    decide (low ≤ vnodeHash id i) && decide (vnodeHash id i < high)

theorem inWindow_eq_true_iff {low high : UInt32} {id : Int} :
    inWindow low high id = true ↔
      ∃ i, i < virtualNodes ∧ low ≤ vnodeHash id i ∧ vnodeHash id i < high := by
  simp [inWindow]

theorem inWindow_of_narrower {low low' high high' : UInt32} {id : Int} (hlow : low ≤ low')
    (hhigh : high' ≤ high) (h : inWindow low high id = false) : inWindow low' high' id = false := by
  rw [← Bool.not_eq_true, inWindow_eq_true_iff] at h ⊢
  rintro ⟨i, hi, hl, hh⟩
  exact h ⟨i, hi, le_trans hlow hl, lt_of_lt_of_le hh hhigh⟩

theorem ne_of_window {low high pos : UInt32} {id : Int} (h : inWindow low high id = false)
    (hlow : low ≤ pos) (hhigh : pos < high) : ∀ i, i < virtualNodes → pos ≠ vnodeHash id i := by
  rw [← Bool.not_eq_true, inWindow_eq_true_iff] at h
  rintro i hi rfl
  exact h ⟨i, hi, hlow, hhigh⟩

/-- The entries of the ring in a window. -/
def window (r : HashRing) (low high : UInt32) : List (UInt32 × NodeInfo) :=
  r.ring.entries.filter fun e => decide (low ≤ e.1) && decide (e.1 < high)

theorem filter_le_eq_window (r : HashRing) {low high : UInt32} (h : low ≤ high) :
    (r.ring.entries.filter fun e => decide (low ≤ e.1)) =
      r.window low high ++ r.ring.entries.filter fun e => decide (high ≤ e.1) := by
  have hsplit := List.take_append_drop (r.ring.lowerBound high) r.ring.entries
  rw [r.ring.take_lowerBound, r.ring.drop_lowerBound] at hsplit
  conv_lhs => rw [← hsplit]
  rw [List.filter_append, List.filter_filter, List.filter_filter]
  congr 1
  refine List.filter_congr fun e _ => ?_
  by_cases he : high ≤ e.1
  · simp [he, le_trans h he]
  · simp [he]

theorem mem_launchRing (e : UInt32 × NodeInfo) :
    e ∈ launchRing.ring.entries ↔
      (∃ i, i < virtualNodes ∧ e = (vnodeHash 3 i, launchNode 3)) ∨
        ((∃ i, i < virtualNodes ∧ e = (vnodeHash 2 i, launchNode 2)) ∨
          (∃ i, i < virtualNodes ∧ e = (vnodeHash 1 i, launchNode 1)) ∧
            ∀ i, i < virtualNodes → e.1 ≠ vnodeHash 2 i) ∧
        ∀ i, i < virtualNodes → e.1 ≠ vnodeHash 3 i := by
  show e ∈ (((empty.addNode (launchNode 1)).addNode (launchNode 2)).addNode
    (launchNode 3)).ring.entries ↔ _
  rw [mem_addNode, mem_addNode, mem_addNode]
  simp [launchNode, empty]

/-- An entry of the ring belongs to one of the three nodes, and stands at one
of its virtual nodes. -/
theorem owner_launchRing {e : UInt32 × NodeInfo} (he : e ∈ launchRing.ring.entries) :
    ∃ id, (id = 1 ∨ id = 2 ∨ id = 3) ∧ e.2 = launchNode id ∧
      ∃ i, i < virtualNodes ∧ e.1 = vnodeHash id i := by
  rcases (mem_launchRing e).mp he with ⟨i, hi, rfl⟩ | ⟨⟨i, hi, rfl⟩ | ⟨⟨i, hi, rfl⟩, -⟩, -⟩
  · exact ⟨3, by simp, rfl, i, hi, rfl⟩
  · exact ⟨2, by simp, rfl, i, hi, rfl⟩
  · exact ⟨1, by simp, rfl, i, hi, rfl⟩

theorem alive_launchRing : ∀ e ∈ launchRing.ring.entries, e.2.alive = true := by
  intro e he
  obtain ⟨id, -, hid, -⟩ := owner_launchRing he
  rw [hid]
  rfl

section Windows

variable {low mid high : UInt32}

/-- A node met in a window has a virtual node there. -/
theorem owner_of_mem_window {n : NodeInfo}
    (hn : n ∈ (launchRing.window low high).map Prod.snd) :
    ∃ id, (id = 1 ∨ id = 2 ∨ id = 3) ∧ n = launchNode id ∧ inWindow low high id = true := by
  obtain ⟨e, he, rfl⟩ := List.mem_map.mp hn
  obtain ⟨he, hwin⟩ := List.mem_filter.mp he
  simp only [Bool.and_eq_true, decide_eq_true_eq] at hwin
  obtain ⟨id, hid, hn, i, hi, hpos⟩ := owner_launchRing he
  rw [hpos] at hwin
  exact ⟨id, hid, hn, inWindow_eq_true_iff.mpr ⟨i, hi, hwin⟩⟩

theorem mem_window {e : UInt32 × NodeInfo} (he : e ∈ launchRing.ring.entries)
    (hlow : low ≤ e.1) (hhigh : e.1 < high) : e.2 ∈ (launchRing.window low high).map Prod.snd := by
  refine List.mem_map.mpr ⟨e, List.mem_filter.mpr ⟨he, ?_⟩, rfl⟩
  simp [hlow, hhigh]

/-- The nodes met after two windows, back around to where the lookup began. -/
def afterWindows (low high : UInt32) : List NodeInfo :=
  ((launchRing.ring.entries.filter fun e => decide (high ≤ e.1)) ++
    launchRing.ring.entries.filter fun e => decide (e.1 < low)).map Prod.snd

theorem clockwise_eq_windows {key : Bytes} (hkey : murmur3 key = low) (hmid : low ≤ mid)
    (hhigh : mid ≤ high) :
    launchRing.clockwise key = (launchRing.window low mid).map Prod.snd ++
      ((launchRing.window mid high).map Prod.snd ++ afterWindows low high) := by
  rw [clockwise, hkey, entriesFrom, filter_le_eq_window _ hmid, filter_le_eq_window _ hhigh]
  simp [afterWindows]

theorem owner_of_mem_afterWindows {n : NodeInfo} (hn : n ∈ afterWindows low high) :
    ∃ id, (id = 1 ∨ id = 2 ∨ id = 3) ∧ n = launchNode id := by
  obtain ⟨e, he, rfl⟩ := List.mem_map.mp hn
  have he : e ∈ launchRing.ring.entries := by
    rcases List.mem_append.mp he with he | he <;> exact (List.mem_filter.mp he).1
  obtain ⟨id, hid, hn, -⟩ := owner_launchRing he
  exact ⟨id, hid, hn⟩

theorem eq_of_mem_first (hno2 : inWindow low mid 2 = false) (hno3 : inWindow low mid 3 = false) :
    ∀ n ∈ (launchRing.window low mid).map Prod.snd, n = launchNode 1 := by
  intro n hn
  obtain ⟨id, rfl | rfl | rfl, hn, hin⟩ := owner_of_mem_window hn
  · exact hn
  · exact absurd hin (by simp [hno2])
  · exact absurd hin (by simp [hno3])

theorem eq_of_mem_second (hno3 : inWindow mid high 3 = false) :
    ∀ n ∈ ((launchRing.window mid high).map Prod.snd).filter
      fun n => decide (n.id ≠ (launchNode 1).id), n = launchNode 2 := by
  intro n hn
  obtain ⟨hn, hne⟩ := List.mem_filter.mp hn
  obtain ⟨id, rfl | rfl | rfl, hn, hin⟩ := owner_of_mem_window hn
  · exact absurd (by rw [hn]) (of_decide_eq_true hne)
  · exact hn
  · exact absurd hin (by simp [hno3])

theorem eq_of_mem_rest :
    ∀ n ∈ ((afterWindows low high).filter fun n => decide (n.id ≠ (launchNode 1).id)).filter
      fun n => decide (n.id ≠ (launchNode 2).id), n = launchNode 3 := by
  intro n hn
  obtain ⟨hn, hne2⟩ := List.mem_filter.mp hn
  obtain ⟨hn, hne1⟩ := List.mem_filter.mp hn
  obtain ⟨id, rfl | rfl | rfl, hn⟩ := owner_of_mem_afterWindows hn
  · exact absurd (by rw [hn]) (of_decide_eq_true hne1)
  · exact absurd (by rw [hn]) (of_decide_eq_true hne2)
  · exact hn

/-- Node 1 alone stands in the first window, nodes 1 and 2 in the second, and
node 3 after both: these are the owners in order. -/
theorem owners_of_windows {a b c : Nat} {key : Bytes} (hkey : murmur3 key = low)
    (hmid : low ≤ mid) (hhigh : mid ≤ high)
    (ha : a < virtualNodes) (hb : b < virtualNodes) (hc : c < virtualNodes)
    (h1 : low ≤ vnodeHash 1 a ∧ vnodeHash 1 a < mid)
    (h2 : mid ≤ vnodeHash 2 b ∧ vnodeHash 2 b < high) (h3 : high ≤ vnodeHash 3 c)
    (hno2 : inWindow low mid 2 = false) (hno3 : inWindow low high 3 = false) :
    launchRing.owners key = [launchNode 1, launchNode 2, launchNode 3] := by
  have hno3' : inWindow low mid 3 = false := inWindow_of_narrower le_rfl hhigh hno3
  have hno3'' : inWindow mid high 3 = false := inWindow_of_narrower hmid le_rfl hno3
  -- Each of the three is met in its own block.
  have hfirst : launchNode 1 ∈ (launchRing.window low mid).map Prod.snd := by
    have he : (vnodeHash 1 a, launchNode 1) ∈ launchRing.ring.entries :=
      (mem_launchRing _).mpr (Or.inr ⟨Or.inr ⟨⟨a, ha, rfl⟩, ne_of_window hno2 h1.1 h1.2⟩,
        ne_of_window hno3' h1.1 h1.2⟩)
    exact mem_window he h1.1 h1.2
  have hsecond : launchNode 2 ∈ (launchRing.window mid high).map Prod.snd := by
    have he : (vnodeHash 2 b, launchNode 2) ∈ launchRing.ring.entries :=
      (mem_launchRing _).mpr (Or.inr ⟨Or.inl ⟨b, hb, rfl⟩, ne_of_window hno3'' h2.1 h2.2⟩)
    exact mem_window he h2.1 h2.2
  have hrest : launchNode 3 ∈ afterWindows low high := by
    have he : (vnodeHash 3 c, launchNode 3) ∈ launchRing.ring.entries :=
      (mem_launchRing _).mpr (Or.inl ⟨c, hc, rfl⟩)
    exact List.mem_map.mpr ⟨_, List.mem_append_left _ (List.mem_filter.mpr ⟨he, by simpa using h3⟩),
      rfl⟩
  -- Each window is a block of one node once the nodes before it are left out.
  rw [owners, clockwise_eq_windows hkey hmid hhigh,
    firstBy_block (List.ne_nil_of_mem hfirst) (eq_of_mem_first hno2 hno3'), List.filter_append,
    firstBy_block (List.ne_nil_of_mem (List.mem_filter.mpr ⟨hsecond, by decide⟩))
      (eq_of_mem_second hno3''),
    ← List.append_nil (((afterWindows low high).filter _).filter _),
    firstBy_block (List.ne_nil_of_mem
      (List.mem_filter.mpr ⟨List.mem_filter.mpr ⟨hrest, by decide⟩, by decide⟩)) eq_of_mem_rest]
  rfl

end Windows

/-- Going clockwise from `"user1"`, node 1 comes first, node 2 at its virtual
node 42 and node 3 at its virtual node 139. -/
theorem owners_launchRing :
    launchRing.owners (ascii "user1") = [launchNode 1, launchNode 2, launchNode 3] := by
  have hno2 : inWindow 1158192035 1165851145 2 = false := by decide +kernel
  have hno3 : inWindow 1158192035 1180781573 3 = false := by decide +kernel
  exact owners_of_windows (a := 22) (b := 42) (c := 139) (by decide +kernel) (by decide)
    (by decide) (by decide) (by decide) (by decide) (by decide +kernel) (by decide +kernel)
    (by decide +kernel) hno2 hno3

theorem getReplicas_launchRing :
    launchRing.getReplicas (ascii "user1") 3 = [launchNode 1, launchNode 2, launchNode 3] := by
  have htake := getReplicas_eq_take_owners alive_launchRing (ascii "user1") 3 (by omega)
  rw [owners_launchRing] at htake
  exact htake

theorem getPrimary_launchRing : launchRing.getPrimary (ascii "user1") = some (launchNode 1) := by
  rw [getPrimary_eq_head?, ← owners_eq_preference alive_launchRing, owners_launchRing]
  rfl

end HashRing
end DistributedDb
