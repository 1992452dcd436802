import DistributedDb.HashRing.Ring

/-
What the two lookups return.

`clockwise r key` lists the node descriptions of the ring entries in the order
a lookup of `key` meets them: from the first position at or after the hash to
the largest, then from the smallest up to the hash.  The primary is the first
alive one, and the replicas are the first `rf` alive ones with distinct ids.
The order is written with two filters of the sorted entries, so that erasing or
re-flagging entries is seen directly as a filter or a map of the list.
-/

namespace DistributedDb
namespace HashRing

open CircularWalk

/-- Ring entries from the hash on, then the ones before it. -/
def entriesFrom (r : HashRing) (h : UInt32) : List (UInt32 × NodeInfo) :=
  (r.ring.entries.filter fun e => decide (h ≤ e.1)) ++
    r.ring.entries.filter fun e => decide (e.1 < h)

def clockwise (r : HashRing) (key : Bytes) : List NodeInfo :=
  (r.entriesFrom (murmur3 key)).map Prod.snd

/-- The alive nodes a lookup of `key` meets, each at its first occurrence. -/
def preference (r : HashRing) (key : Bytes) : List NodeInfo :=
  firstBy NodeInfo.id ((r.clockwise key).filter NodeInfo.alive)

theorem mem_entriesFrom (r : HashRing) (h : UInt32) (e : UInt32 × NodeInfo) :
    e ∈ r.entriesFrom h ↔ e ∈ r.ring.entries := by
  simp only [entriesFrom, List.mem_append, List.mem_filter, decide_eq_true_eq]
  constructor
  · rintro (he | he) <;> exact he.1
  · intro he
    rcases le_or_gt h e.1 with hle | hlt
    · exact Or.inl ⟨he, hle⟩
    · exact Or.inr ⟨he, hlt⟩

theorem mem_clockwise (r : HashRing) (key : Bytes) (n : NodeInfo) :
    n ∈ r.clockwise key ↔ ∃ pos, (pos, n) ∈ r.ring.entries := by
  simp [clockwise, mem_entriesFrom]

theorem seek_lt (r : HashRing) (h : UInt32) (hne : r.ring.entries ≠ []) :
    r.seek h < r.ring.entries.length := by
  have hpos := List.length_pos_iff.mpr hne
  have hle := r.ring.lowerBound_le h
  unfold seek
  split <;> omega

/-- The wrap at the end of the map and the split at the lower bound give the
same reading order. -/
theorem drop_seek_append_take (r : HashRing) (h : UInt32) :
    r.ring.entries.drop (r.seek h) ++ r.ring.entries.take (r.seek h) = r.entriesFrom h := by
  rw [entriesFrom, ← r.ring.drop_lowerBound h, ← r.ring.take_lowerBound h]
  by_cases hend : r.ring.lowerBound h = r.ring.entries.length
  · rw [seek, if_pos hend, hend]
    simp
  · rw [seek, if_neg hend]

theorem foldUntil_primaryBody (l : List (UInt32 × NodeInfo)) :
    foldUntil primaryBody l none = (l.map Prod.snd).find? NodeInfo.alive := by
  induction l with
  | nil => rfl
  | cons e rest ih =>
    by_cases he : e.2.alive = true
    · simp [foldUntil, primaryBody, he]
    · simp [foldUntil, primaryBody, he, ih]

/-- The primary loop ends and returns the first alive node clockwise. -/
theorem getPrimary_eq_find? (r : HashRing) (key : Bytes) :
    r.getPrimary key = (r.clockwise key).find? NodeInfo.alive := by
  by_cases hne : r.ring.entries = []
  · simp [getPrimary, hne, clockwise, entriesFrom]
  · rw [getPrimary, if_neg hne]
    simp only [walk_eq_foldUntil primaryBody _ (r.seek_lt (murmur3 key) hne), Option.getD_some]
    rw [drop_seek_append_take, foldUntil_primaryBody, clockwise]

theorem getPrimary_eq_head? (r : HashRing) (key : Bytes) :
    r.getPrimary key = (r.preference key).head? := by
  rw [getPrimary_eq_find?, preference, head?_firstBy, List.head?_filter]

/-- What the replica loop adds to a result it has already collected, as long as
the result is still shorter than `rf`. -/
theorem foldUntil_replicaBody (rf : Nat) (l : List (UInt32 × NodeInfo)) :
    ∀ s : ReplicaState, s.result.length < rf →
      (foldUntil (replicaBody rf) l s).result =
        s.result ++ (((firstBy NodeInfo.id ((l.map Prod.snd).filter NodeInfo.alive)).filter
          fun n => decide (n.id ∉ s.seenIds)).take (rf - s.result.length)) := by
  induction l with
  | nil =>
    intro s _
    simp [foldUntil, firstBy]
  | cons e rest ih =>
    intro s hs
    by_cases hnew : e.2.alive = true ∧ e.2.id ∉ s.seenIds
    · obtain ⟨halive, hid⟩ := hnew
      let s' : ReplicaState := { result := s.result ++ [e.2], seenIds := e.2.id :: s.seenIds }
      have hlen : s'.result.length = s.result.length + 1 := by simp [s']
      have hbody : replicaBody rf s e = (s', decide ((s'.result.length : Int) = rf)) := by
        simp [replicaBody, halive, hid, s']
      have htake : rf - s.result.length = rf - s'.result.length + 1 := by omega
      rw [foldUntil, hbody, List.map_cons, List.filter_cons_of_pos halive,
        firstBy_cons_of_not_seen NodeInfo.id hid, htake, List.take_succ_cons]
      by_cases hfull : s'.result.length = rf
      · have hd : decide ((s'.result.length : Int) = rf) = true := by simp [hfull]
        have hz : rf - s'.result.length = 0 := by omega
        rw [hd, hz, List.take_zero]
      · have hd : decide ((s'.result.length : Int) = rf) = false := by
          simpa using fun h => hfull (by exact_mod_cast h)
        rw [hd]
        show (foldUntil (replicaBody rf) rest s').result = _
        rw [ih s' (by omega)]
        simp [s']
    · have hbody : replicaBody rf s e = (s, false) := by
        simp only [replicaBody]
        rw [if_neg]
        simpa using hnew
      rw [foldUntil, hbody]
      show (foldUntil (replicaBody rf) rest s).result = _
      rw [ih s hs]
      congr 2
      by_cases halive : e.2.alive = true
      · have hid : e.2.id ∈ s.seenIds := by
          by_contra h
          exact hnew ⟨halive, h⟩
        rw [List.map_cons, List.filter_cons_of_pos halive, firstBy_cons_of_seen NodeInfo.id hid]
      · rw [List.map_cons, List.filter_cons_of_neg halive]

/-- The replica loop ends and returns the first `rf` distinct alive nodes
clockwise. -/
theorem getReplicas_eq_take (r : HashRing) (key : Bytes) {rf : Nat} (hrf : 1 ≤ rf) :
    r.getReplicas key rf = (r.preference key).take rf := by
  by_cases hne : r.ring.entries = []
  · simp [getReplicas, hne, preference, clockwise, entriesFrom, firstBy]
  · rw [getReplicas, if_neg hne]
    simp only [walk_eq_foldUntil (replicaBody rf) _ (r.seek_lt (murmur3 key) hne)]
    rw [drop_seek_append_take, foldUntil_replicaBody rf _ { result := [], seenIds := [] } hrf]
    simp [preference, clockwise]

theorem nodup_preference (r : HashRing) (key : Bytes) :
    ((r.preference key).map NodeInfo.id).Nodup :=
  nodup_map_firstBy _ _

theorem alive_of_mem_preference {r : HashRing} {key : Bytes} {n : NodeInfo}
    (h : n ∈ r.preference key) : n.alive = true :=
  (List.mem_filter.mp (mem_of_mem_firstBy h)).2

theorem exists_entry_of_mem_preference {r : HashRing} {key : Bytes} {n : NodeInfo}
    (h : n ∈ r.preference key) : ∃ pos, (pos, n) ∈ r.ring.entries :=
  (r.mem_clockwise key n).mp (List.mem_filter.mp (mem_of_mem_firstBy h)).1

theorem mem_preference_of_getPrimary {r : HashRing} {key : Bytes} {n : NodeInfo}
    (h : r.getPrimary key = some n) : n ∈ r.preference key := by
  rw [getPrimary_eq_head?] at h
  exact List.mem_of_mem_head? h

/-! ## The replicas as a whole -/

/-- The ids that own an alive entry of the ring. -/
def aliveIds (r : HashRing) : Finset Int :=
  (((r.ring.entries.map Prod.snd).filter NodeInfo.alive).map NodeInfo.id).toFinset

theorem toFinset_ids_preference (r : HashRing) (key : Bytes) :
    ((r.preference key).map NodeInfo.id).toFinset = r.aliveIds := by
  ext id
  simp only [aliveIds, List.mem_toFinset, List.mem_map, List.mem_filter]
  constructor
  · rintro ⟨n, hn, rfl⟩
    obtain ⟨pos, hpos⟩ := exists_entry_of_mem_preference hn
    exact ⟨n, ⟨⟨(pos, n), hpos, rfl⟩, alive_of_mem_preference hn⟩, rfl⟩
  · rintro ⟨n, ⟨⟨e, he, rfl⟩, halive⟩, rfl⟩
    have hmem : e.2 ∈ (r.clockwise key).filter NodeInfo.alive :=
      List.mem_filter.mpr ⟨(r.mem_clockwise key e.2).mpr ⟨e.1, he⟩, halive⟩
    exact exists_mem_firstBy hmem

theorem length_preference (r : HashRing) (key : Bytes) :
    (r.preference key).length = r.aliveIds.card := by
  rw [← toFinset_ids_preference r key, List.toFinset_card_of_nodup (r.nodup_preference key),
    List.length_map]

/-- The replica loop of a ring with entries comes back to its start. -/
theorem exists_replicaWalk (r : HashRing) (key : Bytes) (rf : Int) (hne : r.ring.entries ≠ []) :
    ∃ s, walk (replicaBody rf) r.ring.entries (r.seek (murmur3 key)) r.ring.entries.length
      (r.seek (murmur3 key)) { result := [], seenIds := [] } = some s :=
  ⟨_, walk_eq_foldUntil (replicaBody rf) _ (r.seek_lt (murmur3 key) hne) _⟩

/-- The replica loop ends with the first `rf` of the distinct alive nodes
clockwise from the key: one for each of `rf` ids or of all alive ids, a longer
request extends the answer, and the primary comes first. -/
theorem getReplicas_spec (r : HashRing) (key : Bytes) {rf : Int} (hrf : 1 ≤ rf) :
    (r.ring.entries ≠ [] →
      ∃ s, walk (replicaBody rf) r.ring.entries (r.seek (murmur3 key)) r.ring.entries.length
        (r.seek (murmur3 key)) { result := [], seenIds := [] } = some s) ∧
    r.getReplicas key rf = (r.preference key).take rf.toNat ∧
    ((r.getReplicas key rf).map NodeInfo.id).Nodup ∧
    ((r.getReplicas key rf).length : Int) = min rf r.aliveIds.card ∧
    r.getReplicas key rf <+: r.getReplicas key (rf + 1) ∧
    (r.getReplicas key rf).head? = r.getPrimary key ∧
    (r.getReplicas key rf = [] ↔ r.getPrimary key = none) := by
  obtain ⟨k, rfl⟩ := Int.eq_ofNat_of_zero_le (show 0 ≤ rf by omega)
  have hk : 1 ≤ k := by omega
  have hlong : r.getReplicas key ((k : Int) + 1) = (r.preference key).take (k + 1) :=
    getReplicas_eq_take r key (show 1 ≤ k + 1 by omega)
  have hhead : ((r.preference key).take k).head? = r.getPrimary key := by
    rw [getPrimary_eq_head?, List.head?_take, if_neg (by omega)]
  rw [hlong, getReplicas_eq_take r key hk]
  refine ⟨r.exists_replicaWalk key k, rfl, ?_, ?_, ?_, hhead, ?_⟩
  · rw [List.map_take]
    exact (List.take_sublist _ _).nodup (r.nodup_preference key)
  · rw [List.length_take, length_preference]
    omega
  · exact List.take_prefix_take_left (by omega)
  · rw [← hhead, List.head?_eq_none_iff]

theorem getReplicas_spec_three :
    (((build [.add (launchNode 1), .add (launchNode 2), .status 2 false]).getReplicas
      (ascii "k") 3).map NodeInfo.id).Nodup ∧
    ((build [.add (launchNode 1), .add (launchNode 2), .status 2 false]).getReplicas
      (ascii "k") 3).head? =
        (build [.add (launchNode 1), .add (launchNode 2), .status 2 false]).getPrimary
          (ascii "k") := by
  obtain ⟨-, -, hnodup, -, -, hhead, -⟩ := getReplicas_spec
    (build [.add (launchNode 1), .add (launchNode 2), .status 2 false]) (ascii "k")
    (show (1 : Int) ≤ 3 by decide)
  exact ⟨hnodup, hhead⟩

end HashRing
end DistributedDb
