import DistributedDb.HashRing.View
import DistributedDb.Node.Services

/-
What the operations of the heartbeat service do to one id.

A pass of the monitor goes over the entries of `last_seen_`, which have distinct
ids, so the entry of an id is visited once and no other visit concerns it.
-/

namespace DistributedDb

namespace HeartbeatService

variable (now : Int)

/-- The entry of an id after a pass over the entries `l` of `last_seen_`. -/
theorem lookup_foldl_check (l : List ((_ : Int) × Int)) (hl : l.NodupKeys) :
    ∀ (h : HeartbeatService) (acc : List Int) (id : Int),
      (l.foldl (check now) (h, acc)).1.knownAlive.lookup id =
        match l.dlookup id with
        | none => h.knownAlive.lookup id
        | some time =>
          some ((h.knownAlive.lookup id).getD false && decide (now - time < timeoutMs)) := by
  induction l with
  | nil =>
    intro h acc id
    rfl
  | cons e rest ih =>
    intro h acc id
    obtain ⟨hfresh, hrest⟩ := List.nodupKeys_cons.mp hl
    rw [List.foldl_cons, ih hrest]
    by_cases hid : id = e.1
    · subst hid
      rw [List.dlookup_eq_none.mpr hfresh, List.dlookup_cons_eq]
      simp [check]
    · rw [List.dlookup_cons_ne _ _ hid]
      simp only [check, AList.lookup_insert_ne hid]

theorem lastSeen_foldl_check (l : List ((_ : Int) × Int)) (p : HeartbeatService × List Int) :
    (l.foldl (check now) p).1.lastSeen = p.1.lastSeen := by
  induction l generalizing p with
  | nil => rfl
  | cons e rest ih => rw [List.foldl_cons, ih, check]

/-- The failures that a pass reports: what was alive and is too old. -/
theorem failed_foldl_check (l : List ((_ : Int) × Int)) (hl : l.NodupKeys) :
    ∀ (h : HeartbeatService) (acc : List Int),
      (l.foldl (check now) (h, acc)).2 =
        acc ++ (l.filter fun e => (h.knownAlive.lookup e.1).getD false &&
          !decide (now - e.2 < timeoutMs)).map Sigma.fst := by
  induction l with
  | nil =>
    intro h acc
    simp
  | cons e rest ih =>
    intro h acc
    obtain ⟨hfresh, hrest⟩ := List.nodupKeys_cons.mp hl
    rw [List.foldl_cons, ih hrest]
    -- The entries that follow have other ids, so the update at this one does not matter.
    have hsame : (rest.filter fun d =>
        ((check now (h, acc) e).1.knownAlive.lookup d.1).getD false &&
          !decide (now - d.2 < timeoutMs)) =
        rest.filter fun d => (h.knownAlive.lookup d.1).getD false &&
          !decide (now - d.2 < timeoutMs) := by
      refine List.filter_congr fun d hd => ?_
      have hne : d.1 ≠ e.1 := fun heq => hfresh (heq ▸ List.mem_keys_of_mem hd)
      simp only [check, AList.lookup_insert_ne hne]
    rw [hsame]
    by_cases hfail : ((h.knownAlive.lookup e.1).getD false &&
        !decide (now - e.2 < timeoutMs)) = true
    · simp only [check, hfail, if_true, List.filter_cons_of_pos, List.map_cons, List.append_assoc,
        List.singleton_append]
    · simp only [check, hfail, if_false, Bool.false_eq_true, List.filter_cons_of_neg,
        not_false_eq_true]

@[simp] theorem lastSeen_monitorPass (h : HeartbeatService) :
    (h.monitorPass now).1.lastSeen = h.lastSeen :=
  lastSeen_foldl_check now _ _

theorem lookup_monitorPass (h : HeartbeatService) (id : Int) :
    (h.monitorPass now).1.knownAlive.lookup id =
      match h.lastSeen.lookup id with
      | none => h.knownAlive.lookup id
      | some time =>
        some ((h.knownAlive.lookup id).getD false && decide (now - time < timeoutMs)) :=
  lookup_foldl_check now _ h.lastSeen.nodupKeys h [] id

theorem mem_failed_monitorPass (h : HeartbeatService) (id : Int) :
    id ∈ (h.monitorPass now).2 ↔
      h.knownAlive.lookup id = some true ∧
        ∃ time, h.lastSeen.lookup id = some time ∧ timeoutMs ≤ now - time := by
  have hka : (h.knownAlive.lookup id).getD false = true ↔ h.knownAlive.lookup id = some true := by
    cases h.knownAlive.lookup id <;> simp
  rw [monitorPass, failed_foldl_check now _ h.lastSeen.nodupKeys, List.nil_append, List.mem_map]
  constructor
  · rintro ⟨e, he, rfl⟩
    obtain ⟨he, hfail⟩ := List.mem_filter.mp he
    simp only [Bool.and_eq_true, Bool.not_eq_true', decide_eq_false_iff_not, not_lt, hka] at hfail
    exact ⟨hfail.1, e.2, AList.mem_lookup_iff.mpr he, hfail.2⟩
  · rintro ⟨halive, time, htime, hold⟩
    refine ⟨⟨id, time⟩, List.mem_filter.mpr ⟨AList.mem_lookup_iff.mp htime, ?_⟩, rfl⟩
    simp only [Bool.and_eq_true, Bool.not_eq_true', decide_eq_false_iff_not, not_lt, hka]
    exact ⟨halive, hold⟩

theorem lookup_foldl_insert {β : Type} (v : β) (peers : List NodeInfo)
    (m : AList fun _ : Int => β) (id : Int) :
    (peers.foldl (fun (m : AList fun _ : Int => β) p => m.insert p.id v) m).lookup id =
      if id ∈ peers.map NodeInfo.id then some v else m.lookup id := by
  induction peers generalizing m with
  | nil => simp
  | cons p rest ih =>
    rw [List.foldl_cons, ih]
    by_cases hid : id = p.id
    · subst hid
      simp
    · simp [hid]

theorem lookup_lastSeen_start (peers : List NodeInfo) (id : Int) :
    (HeartbeatService.start peers now).lastSeen.lookup id =
      if id ∈ peers.map NodeInfo.id then some now else none :=
  lookup_foldl_insert now peers ∅ id

theorem lookup_knownAlive_start (peers : List NodeInfo) (id : Int) :
    (HeartbeatService.start peers now).knownAlive.lookup id =
      if id ∈ peers.map NodeInfo.id then some true else none :=
  lookup_foldl_insert true peers ∅ id

/-- Nobody is dead at the start. -/
theorem knownAlive_start_ne_false (peers : List NodeInfo) (id : Int) :
    (HeartbeatService.start peers now).knownAlive.lookup id ≠ some false := by
  rw [lookup_knownAlive_start]
  split <;> simp

theorem nodup_failed_monitorPass (h : HeartbeatService) : (h.monitorPass now).2.Nodup := by
  rw [monitorPass, failed_foldl_check now _ h.lastSeen.nodupKeys, List.nil_append]
  exact (List.filter_sublist.map Sigma.fst).nodup h.lastSeen.nodupKeys

end HeartbeatService

namespace Node

theorem foldl_onNodeFailure (ids : List Int) (n : Node) :
    (ids.foldl onNodeFailure n).ring = n.ring.markDead ids ∧
      (ids.foldl onNodeFailure n).heartbeat = n.heartbeat ∧
      (ids.foldl onNodeFailure n).clock = n.clock := by
  induction ids generalizing n with
  | nil => exact ⟨rfl, rfl, rfl⟩
  | cons d rest ih => exact ih (n.onNodeFailure d)

@[simp] theorem ring_monitor (n : Node) (now : Int) :
    (n.monitor now).ring = n.ring.markDead (n.heartbeat.monitorPass now).2 :=
  (foldl_onNodeFailure _ _).1

@[simp] theorem heartbeat_monitor (n : Node) (now : Int) :
    (n.monitor now).heartbeat = (n.heartbeat.monitorPass now).1 :=
  (foldl_onNodeFailure _ _).2.1

@[simp] theorem clock_monitor (n : Node) (now : Int) : (n.monitor now).clock = n.clock :=
  (foldl_onNodeFailure _ _).2.2

end Node

end DistributedDb
