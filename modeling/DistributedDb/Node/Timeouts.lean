import DistributedDb.Node.Detector

/-
When the failure detector changes its mind.

The clock does not go back.  A pass uses a time that was read before the lock was
taken, so an entry of the table may be younger than the time of the pass.  What
carries the argument is that a node recorded as dead has an entry that is too old
at the present time, whatever time the pass used.
-/

namespace DistributedDb
namespace Detector
namespace Process

open HeartbeatService

variable {me : Int} {s s' : Process} {a : Action}

/-- The clock does not go back. -/
def Forward (s : Process) : Action → Prop
  | .tick now => s.node.clock ≤ now
  | _ => True

instance (s : Process) : (a : Action) → Decidable (Forward s a)
  | .tick now => inferInstanceAs (Decidable (s.node.clock ≤ now))
  | .receive _ | .call _ _ | .sample | .pass => .isTrue trivial

structure Timely (s : Process) : Prop where
  sampled : ∀ now, s.sampled = some now → now ≤ s.node.clock
  past : ∀ id time, s.node.heartbeat.lastSeen.lookup id = some time → time ≤ s.node.clock
  /-- The table is at least as young as each message handled. -/
  recorded : ∀ id time, (id, time) ∈ s.handled →
    ∃ last, s.node.heartbeat.lastSeen.lookup id = some last ∧ time ≤ last
  /-- A node recorded as dead has been silent up to now. -/
  silent : ∀ id time, s.node.heartbeat.knownAlive.lookup id = some false →
    s.node.heartbeat.lastSeen.lookup id = some time → time ≤ s.node.clock - timeoutMs

theorem Timely.agree (h : Timely s) (hs : Agree s s') : Timely s' where
  sampled := by
    rw [hs.sampled, hs.clock]
    exact h.sampled
  past := by
    rw [hs.heartbeat, hs.clock]
    exact h.past
  recorded := by
    rw [hs.heartbeat, hs.handled]
    exact h.recorded
  silent := by
    rw [hs.heartbeat, hs.clock]
    exact h.silent

theorem Timely.markAlive (h : Timely s) (nodeId : Int) : Timely (s.markAlive nodeId) where
  sampled := h.sampled
  past := by
    intro id time htime
    rw [lastSeen_markAlive] at htime
    show time ≤ s.node.clock
    by_cases hid : id = nodeId
    · rw [if_pos hid] at htime
      exact (Option.some.inj htime).ge
    · rw [if_neg hid] at htime
      exact h.past id time htime
  recorded := by
    intro id time hmem
    rw [lastSeen_markAlive]
    have hhandled : ∀ last, s.node.heartbeat.lastSeen.lookup id = some last →
        last ≤ s.node.clock := h.past id
    rcases List.mem_append.mp hmem with hmem | hmem
    · obtain ⟨last, hlast, hle⟩ := h.recorded id time hmem
      by_cases hid : id = nodeId
      · exact ⟨s.node.clock, if_pos hid, hle.trans (hhandled last hlast)⟩
      · exact ⟨last, (if_neg hid).trans hlast, hle⟩
    · obtain ⟨rfl, rfl⟩ := Prod.mk.inj (List.mem_singleton.mp hmem)
      exact ⟨s.node.clock, if_pos rfl, le_refl _⟩
  silent := by
    intro id time hdead htime
    rw [lastSeen_markAlive] at htime
    change (s.node.heartbeat.knownAlive.insert nodeId true).lookup id = some false at hdead
    by_cases hid : id = nodeId
    · subst hid
      rw [AList.lookup_insert] at hdead
      exact absurd hdead (by simp)
    · rw [if_neg hid] at htime
      rw [AList.lookup_insert_ne hid] at hdead
      exact h.silent id time hdead htime

theorem Timely.monitorPass (h : Timely s) (hin : InStep s) {now : Int}
    (hnow : s.sampled = some now) : Timely (s.monitorPass now) := by
  have hclock : (s.monitorPass now).node.clock = s.node.clock := Node.clock_monitor s.node now
  refine ⟨fun now hnone => absurd hnone (by simp [Process.monitorPass]), ?_, ?_, ?_⟩
  · rw [lastSeen_pass, hclock]
    exact h.past
  · rw [lastSeen_pass]
    exact h.recorded
  · intro id time hdead htime
    rw [lastSeen_pass] at htime
    rw [hclock]
    rw [lookup_pass hin] at hdead
    by_cases hfail : id ∈ (s.node.heartbeat.monitorPass now).2
    · obtain ⟨-, last, hlast, hold⟩ := (mem_failed_monitorPass now _ id).mp hfail
      have hsample := h.sampled now hnow
      rw [htime] at hlast
      have := Option.some.inj hlast
      omega
    · rw [if_neg hfail] at hdead
      exact h.silent id time hdead htime

theorem Timely.step (h : Timely s) (hin : InStep s) (hforward : Forward s a)
    (hstep : s.step me a = some s') : Timely s' := by
  rcases step_cases hstep with hs | ⟨now, rfl, rfl⟩ | ⟨nodeId, hs⟩ | ⟨-, rfl⟩ | ⟨now, -, hnow, rfl⟩
  · exact h.agree hs
  · have hle : s.node.clock ≤ now := hforward
    refine ⟨fun n hn => (h.sampled n hn).trans hle, fun id t ht => (h.past id t ht).trans hle,
      h.recorded, fun id t hd ht => ?_⟩
    have := h.silent id t hd ht
    show t ≤ now - timeoutMs
    omega
  · exact (h.markAlive nodeId).agree hs
  · exact ⟨fun n hn => (Option.some.inj hn).ge, h.past, h.recorded, h.silent⟩
  · exact h.monitorPass hin hnow

section FromStart

variable {self : NodeInfo} {peers : List NodeInfo} {log : Bytes} {now : Int}
  {actions : List Action}

theorem timely_start (self : NodeInfo) (peers : List NodeInfo) (log : Bytes) (now : Int) :
    Timely (start self peers log now) where
  sampled := fun _ hnone => absurd hnone (by simp [start])
  past := by
    intro id time htime
    change (HeartbeatService.start peers now).lastSeen.lookup id = some time at htime
    rw [lookup_lastSeen_start] at htime
    split at htime
    · exact (Option.some.inj htime).ge
    · exact absurd htime (by simp)
  recorded := fun _ _ hmem => absurd hmem List.not_mem_nil
  silent := by
    intro id time hdead
    exact absurd hdead (knownAlive_start_ne_false now peers id)

theorem timely_exec (halive : ∀ n ∈ self :: peers, n.alive = true)
    (hforward : Runs.Along (step self.id) Forward (start self peers log now) actions)
    (hrun : Runs.exec (step self.id) (start self peers log now) actions = some s) :
    InStep s ∧ Timely s := by
  have hstep : ∀ s a s', Forward s a → InStep s ∧ Timely s → s.step self.id a = some s' →
      InStep s' ∧ Timely s' :=
    fun _ _ _ hf h hs => ⟨h.1.step hs, h.2.step h.1 hf hs⟩
  exact Runs.exec_along hstep ⟨inStep_start halive log now, timely_start self peers log now⟩
    hforward hrun

/-- The flag of a configured peer, and what the table says of it. -/
theorem flagged_iff_lookup (halive : ∀ n ∈ self :: peers, n.alive = true)
    (hrun : Runs.exec (step self.id) (start self peers log now) actions = some s)
    {p : NodeInfo} (hp : p ∈ peers) (alive : Bool) :
    s.node.ring.Flagged p.id alive ↔
      s.node.heartbeat.knownAlive.lookup p.id = some alive := by
  obtain ⟨b, hka, hflag⟩ := exists_flag hp hrun (inStep_exec halive hrun)
  constructor
  · intro h
    rw [hka, hflag.unique h]
  · intro h
    rw [hka] at h
    exact Option.some.inj h ▸ hflag

/-- In every state of every run with a clock that does not go back, a peer is
dead in the ring only if no message of it was handled within the timeout.  After
a pass the peers whose last message is at least the timeout before the sampled
time are dead, and the others are still alive if they were. -/
theorem detection_is_timely (halive : ∀ n ∈ self :: peers, n.alive = true)
    (hforward : Runs.Along (step self.id) Forward (start self peers log now) actions)
    (hrun : Runs.exec (step self.id) (start self peers log now) actions = some s)
    {p : NodeInfo} (hp : p ∈ peers) :
    (s.node.ring.Flagged p.id false →
      ∀ time, (p.id, time) ∈ s.handled → time ≤ s.node.clock - timeoutMs) ∧
    ∀ sample s', s.sampled = some sample → s.step self.id .pass = some s' →
      ∃ last, lastHandled (some now) s.handled p.id = some last ∧
        (last ≤ sample - timeoutMs → s'.node.ring.Flagged p.id false) ∧
        (sample - timeoutMs < last → s.node.ring.Flagged p.id true →
          s'.node.ring.Flagged p.id true) := by
  obtain ⟨hin, htimely⟩ := timely_exec halive hforward hrun
  constructor
  · intro hdead time hmem
    obtain ⟨last, hlast, hle⟩ := htimely.recorded p.id time hmem
    have hka := (flagged_iff_lookup halive hrun hp false).mp hdead
    exact hle.trans (htimely.silent p.id last hka hlast)
  · intro sample s' hsample hstep
    obtain ⟨last, hlast⟩ := lastHandled_some now s.handled p.id
    have hseen := (lastSeen_peer hp hrun).trans hlast
    have hrun' : Runs.exec (step self.id) (start self peers log now) (actions ++ [.pass]) =
        some s' := Runs.exec_append.mpr ⟨s, hrun, Runs.exec_cons.mpr ⟨s', hstep, rfl⟩⟩
    obtain ⟨sample', hsample', hs'⟩ := Option.map_eq_some_iff.mp hstep
    obtain rfl := Option.some.inj (hsample.symm.trans hsample')
    have hpass := lookup_pass hin sample p.id
    rw [hs'] at hpass
    refine ⟨last, hlast, fun hold => ?_, fun hrecent hflag => ?_⟩
    · rw [flagged_iff_lookup halive hrun' hp, hpass]
      obtain ⟨alive, hka, -⟩ := exists_flag hp hrun hin
      cases alive with
      | true =>
        exact if_pos ((mem_failed_monitorPass sample _ _).mpr ⟨hka, last, hseen, by omega⟩)
      | false =>
        rw [hka]
        split <;> rfl
    · have hnot : p.id ∉ (s.node.heartbeat.monitorPass sample).2 := by
        intro hfail
        obtain ⟨-, time, htime, hold⟩ := (mem_failed_monitorPass sample _ _).mp hfail
        have := Option.some.inj (hseen.symm.trans htime)
        omega
      rw [flagged_iff_lookup halive hrun' hp, hpass, if_neg hnot]
      exact (flagged_iff_lookup halive hrun hp true).mp hflag

/-- A message of node 2 after three seconds, and the sample of a pass after six
and a half. -/
def oneHeartbeat : List Action :=
  [.tick 3000, .receive { type := .heartbeat, nodeId := 2 }, .call 0 none, .tick 6500, .sample]

theorem detection_is_timely_launch :
    ∃ s s', Runs.exec (step 1) (start (launchNode 1) [launchNode 2, launchNode 3] [] 0)
        oneHeartbeat = some s ∧ s.step 1 .pass = some s' ∧
      s'.node.ring.Flagged 2 true ∧ s'.node.ring.Flagged 3 false := by
  have hdata : (Runs.exec (step 1) (start (launchNode 1) [launchNode 2, launchNode 3] [] 0)
      oneHeartbeat).map (fun s =>
        (s.sampled, s.handled, s.node.heartbeat.knownAlive.lookup 2)) =
        some (some 6500, [(2, 3000)], some true) := by
    decide +kernel
  obtain ⟨s, hrun, hdata⟩ := Option.map_eq_some_iff.mp hdata
  obtain ⟨hsample, hdata⟩ := Prod.mk.inj hdata
  obtain ⟨hhandled, hknown⟩ := Prod.mk.inj hdata
  have hforward : Runs.Along (step 1) Forward
      (start (launchNode 1) [launchNode 2, launchNode 3] [] 0) oneHeartbeat := by
    decide +kernel
  have halive : ∀ n ∈ [launchNode 1, launchNode 2, launchNode 3], n.alive = true := by decide
  have hstep : s.step 1 .pass = some (s.monitorPass 6500) := by
    simp only [step, hsample, Option.map_some]
  have htwo : launchNode 2 ∈ [launchNode 2, launchNode 3] := by decide
  have hthree : launchNode 3 ∈ [launchNode 2, launchNode 3] := by decide
  obtain ⟨two, hlast, -, hstays⟩ :=
    (detection_is_timely halive hforward hrun htwo).2 6500 _ hsample hstep
  obtain ⟨three, hlast', hdies, -⟩ :=
    (detection_is_timely halive hforward hrun hthree).2 6500 _ hsample hstep
  rw [hhandled] at hlast hlast'
  obtain rfl : 3000 = two := Option.some.inj hlast
  obtain rfl : 0 = three := Option.some.inj hlast'
  exact ⟨s, _, hrun, hstep,
    hstays (by decide) ((flagged_iff_lookup halive hrun htwo true).mpr hknown),
    hdies (by decide)⟩

end FromStart

/-! ## The node itself

A node sends no message to itself, so it is not in its own tables until a message
arrives that carries its id.  From then on it needs one within every timeout. -/

/-- A node that is on its own ring finds a node for every key, and executes the
requests for the keys that it is the first owner of. -/
structure ServesItself (me : Int) (n : Node) : Prop where
  alive : n.ring.Flagged me true
  available : n.ring.Owns me → ∀ key, n.ring.getPrimary key ≠ none
  executes : ∀ msg m execute, (n.ring.clockwise msg.key).head? = some m → m.id = me →
    (Coordinator.route me msg execute).perform me n = .continues n execute []

theorem servesItself_iff {n : Node} : ServesItself me n ↔ n.ring.Flagged me true := by
  constructor
  · exact ServesItself.alive
  · intro h
    refine ⟨h, ?_, ?_⟩
    · rintro ⟨e, he, hid⟩ key
      rw [HashRing.getPrimary_eq_find?, ne_eq, List.find?_eq_none]
      intro hnone
      exact hnone e.2 ((n.ring.mem_clockwise key e.2).mpr ⟨e.1, he⟩) (h.2 e he hid)
    · intro msg m execute hhead hid
      obtain ⟨pos, hpos⟩ := (n.ring.mem_clockwise msg.key m).mp (List.mem_of_mem_head? hhead)
      have hprimary : n.ring.getPrimary msg.key = some m := by
        rw [HashRing.getPrimary_eq_find?]
        obtain ⟨rest, hrest⟩ := List.head?_eq_some_iff.mp hhead
        rw [hrest, List.find?_cons_of_pos (h.2 (pos, m) hpos hid)]
      simp only [Coordinator.route, Prog.perform, hprimary, if_pos hid]

theorem flagged_true_iff (h : InStep s) {id : Int}
    (hreg : s.node.ring.nodesById.find? id ≠ none) :
    s.node.ring.Flagged id true ↔ s.node.heartbeat.knownAlive.lookup id ≠ some false := by
  obtain ⟨n, hn⟩ := Option.ne_none_iff_exists'.mp hreg
  have hcopies := h.wellFormed.flagged hn
  have hflag := h.flag id n hn
  constructor
  · intro htrue hdead
    rw [hdead, Option.getD_some, ← htrue.unique hcopies] at hflag
    exact absurd hflag (by decide)
  · intro hnot
    cases hka : s.node.heartbeat.knownAlive.lookup id with
    | none =>
      rw [hka, Option.getD_none] at hflag
      exact hflag ▸ hcopies
    | some b =>
      cases b with
      | false => exact absurd hka hnot
      | true =>
        rw [hka, Option.getD_some] at hflag
        exact hflag ▸ hcopies

/-- At a pass, the node has no entry for itself or a recent one. -/
def HeardItself (me : Int) (s : Process) : Action → Prop
  | .pass => ∀ sample ∈ s.sampled, ∀ time ∈ s.node.heartbeat.lastSeen.lookup me,
      sample - time < timeoutMs
  | _ => True

instance (me : Int) (s : Process) : (a : Action) → Decidable (HeardItself me s a)
  | .pass => inferInstanceAs (Decidable (∀ sample ∈ s.sampled, _))
  | .receive _ | .call _ _ | .sample | .tick _ => .isTrue trivial

theorem heardItself_of_ne_pass (ha : a ≠ .pass) : HeardItself me s a := by
  cases a with
  | pass => exact absurd rfl ha
  | _ => trivial

/-- Only a pass records a node as dead. -/
theorem lookup_ne_false_step {id : Int} (ha : a ≠ .pass)
    (h : s.node.heartbeat.knownAlive.lookup id ≠ some false) (hstep : s.step me a = some s') :
    s'.node.heartbeat.knownAlive.lookup id ≠ some false := by
  rcases step_cases hstep with hs | ⟨now, -, rfl⟩ | ⟨nodeId, hs⟩ | ⟨-, rfl⟩ | ⟨now, hpass, -, -⟩
  · rwa [hs.heartbeat]
  · exact h
  · rw [hs.heartbeat]
    show (s.node.heartbeat.knownAlive.insert nodeId true).lookup id ≠ some false
    by_cases hid : id = nodeId
    · subst hid
      simp
    · rwa [AList.lookup_insert_ne hid]
  · exact h
  · exact absurd hpass ha

/-- One step keeps a node alive on its own ring exactly when it is not a pass
that finds an old entry. -/
theorem servesItself_step {id : Int} (h : InStep s) (hreg : s.node.ring.nodesById.find? id ≠ none)
    (hself : ServesItself id s.node) (hstep : s.step me a = some s') :
    ServesItself id s'.node ↔ HeardItself id s a := by
  rw [servesItself_iff, flagged_true_iff (h.step hstep) (registered_step hreg hstep)]
  rw [servesItself_iff, flagged_true_iff h hreg] at hself
  by_cases ha : a = .pass
  · subst ha
    obtain ⟨sample, hsample, rfl⟩ := Option.map_eq_some_iff.mp hstep
    rw [lookup_pass h]
    constructor
    · intro hnot sample' hsample' time htime
      obtain rfl := Option.some.inj (hsample.symm.trans hsample')
      -- The table knows the id, and not as dead, so an old entry would be reported.
      have hknown := h.tables id
      rw [htime, Option.isSome_some] at hknown
      obtain ⟨alive, hka⟩ := Option.isSome_iff_exists.mp hknown.symm
      have halive : alive = true := by
        cases alive with
        | true => rfl
        | false => exact absurd hka hself
      by_contra hold
      have hlate : timeoutMs ≤ sample - time := by omega
      exact hnot (if_pos ((mem_failed_monitorPass sample _ id).mpr
        ⟨halive ▸ hka, time, htime, hlate⟩))
    · intro hheard
      rw [if_neg]
      · exact hself
      · intro hfail
        obtain ⟨-, time, htime, hold⟩ := (mem_failed_monitorPass sample _ id).mp hfail
        have := hheard sample hsample time htime
        omega
  · exact ⟨fun _ => heardItself_of_ne_pass ha, fun _ => lookup_ne_false_step ha hself hstep⟩

/-- Along every run, a node stays alive on its own ring, finds a node for every
key and serves its own keys exactly as long as no pass finds an old entry for the
node itself. -/
theorem serves_itself_iff {self : NodeInfo} {peers : List NodeInfo} {log : Bytes} {now : Int}
    {actions : List Action} (halive : ∀ n ∈ self :: peers, n.alive = true)
    (hrun : Runs.exec (step self.id) (start self peers log now) actions = some s) :
    (∀ done u, done <+: actions →
      Runs.exec (step self.id) (start self peers log now) done = some u →
        ServesItself self.id u.node) ↔
      Runs.Along (step self.id) (HeardItself self.id) (start self peers log now) actions := by
  have hin := inStep_start halive log now
  have hreg : (start self peers log now).node.ring.nodesById.find? self.id ≠ none :=
    registered_exec List.mem_cons_self
      (show Runs.exec (step self.id) (start self peers log now) [] = some _ from rfl)
  have hself : ServesItself self.id (start self peers log now).node := by
    rw [servesItself_iff, flagged_true_iff hin hreg]
    exact knownAlive_start_ne_false now peers self.id
  have hinv : ∀ (s : Process) a s', InStep s ∧ s.node.ring.nodesById.find? self.id ≠ none →
      s.step self.id a = some s' →
      InStep s' ∧ s'.node.ring.nodesById.find? self.id ≠ none :=
    fun _ _ _ h hs => ⟨h.1.step hs, registered_step h.2 hs⟩
  refine Runs.exec_prefix_iff hinv ?_ ⟨hin, hreg⟩ hself hrun
  exact fun s a s' h hserves hs => servesItself_step h.1 h.2 hserves hs

/-- A request that carries the id of node 1 arrives at node 1, and nothing more
for six seconds. -/
def ownIdThenSilence : List Action :=
  [.receive { type := .get, nodeId := 1 }, .call 0 none, .tick 6000, .sample, .pass]

theorem own_id_then_dead :
    Runs.Along (step 1) Forward (start (launchNode 1) [launchNode 2, launchNode 3] [] 0)
      ownIdThenSilence ∧
    ∃ s, Runs.exec (step 1) (start (launchNode 1) [launchNode 2, launchNode 3] [] 0)
        ownIdThenSilence = some s ∧
      (s.node.ring.nodesById.find? 1).map NodeInfo.alive = some false ∧
      ¬ ServesItself 1 s.node := by
  refine ⟨by decide +kernel, ?_⟩
  have hdead : (Runs.exec (step 1) (start (launchNode 1) [launchNode 2, launchNode 3] [] 0)
      ownIdThenSilence).map (fun s => (s.node.ring.nodesById.find? 1).map NodeInfo.alive) =
        some (some false) := by
    decide +kernel
  obtain ⟨s, hrun, hdead⟩ := Option.map_eq_some_iff.mp hdead
  refine ⟨s, hrun, hdead, fun hserves => ?_⟩
  have halive := hserves.alive.1
  rw [hdead] at halive
  exact absurd halive (by decide)

/-- The same request, and a pass one millisecond before the timeout. -/
def ownIdThenPass : List Action :=
  [.receive { type := .get, nodeId := 1 }, .call 0 none, .tick 5999, .sample, .pass]

theorem serves_itself_launch :
    ∃ s, Runs.exec (step 1) (start (launchNode 1) [launchNode 2, launchNode 3] [] 0)
        ownIdThenPass = some s ∧ s.handled = [(1, 0)] ∧ ServesItself 1 s.node := by
  have hhandled : (Runs.exec (step 1) (start (launchNode 1) [launchNode 2, launchNode 3] [] 0)
      ownIdThenPass).map handled = some [(1, 0)] := by
    decide +kernel
  obtain ⟨s, hrun, hhandled⟩ := Option.map_eq_some_iff.mp hhandled
  have halive : ∀ n ∈ [launchNode 1, launchNode 2, launchNode 3], n.alive = true := by decide
  have hheard : Runs.Along (step 1) (HeardItself 1)
      (start (launchNode 1) [launchNode 2, launchNode 3] [] 0) ownIdThenPass := by
    decide +kernel
  exact ⟨s, hrun, hhandled,
    (serves_itself_iff halive hrun).mpr hheard _ s (List.prefix_refl _) hrun⟩

end Process
end Detector
end DistributedDb
