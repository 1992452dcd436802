import Mathlib.Data.List.Chain
import DistributedDb.Lib.Runs
import DistributedDb.Node.Coordinator
import DistributedDb.Node.Heartbeat

/-
The failure detector of one node process.

Two kinds of threads use the tables of the heartbeat service.  The handler of
any message enters the id the message carries, and fires the recovery callback
when that id was recorded as dead.  The monitor reads the clock, takes the lock
some time later, and fires the failure callback for the ids whose last message
is too old.  Both callbacks set the alive flag of the id in the ring, so the
tables, the registry of the ring and the entries of the ring are three copies of
what the node believes.

A `Process` is a node with its server threads, which run the handlers call by
call and may get any answer from other nodes.  The lock is held for a whole
`mark_alive` and for a whole pass, callbacks included, so these are single steps.
-/

namespace DistributedDb

/-! ## The process -/

namespace Detector

inductive Callback where
  | failure (nodeId : Int)
  | recovery (nodeId : Int)
  deriving DecidableEq, Repr

def Callback.nodeId : Callback → Int
  | .failure nodeId => nodeId
  | .recovery nodeId => nodeId

structure Process where
  node : Node
  /-- The handlers that run, each in a thread of the server. -/
  threads : Nat → Option Prog
  next : Nat
  /-- What the monitor read from the clock for the pass it is about to make. -/
  sampled : Option Int
  /-- The calls of `on_node_failure` and `on_node_recovery`, oldest first. -/
  callbacks : List Callback
  /-- The ids that the handled messages carried, and when, oldest first. -/
  handled : List (Int × Int)

inductive Action where
  /-- The clock shows another time. -/
  | tick (now : Int)
  | receive (msg : Message)
  /-- Thread `t` makes its next call.  A call to another node gets `answer`. -/
  | call (t : Nat) (answer : Option Message)
  | sample
  | pass

namespace Process

/-- The process that `main` starts. -/
def start (self : NodeInfo) (peers : List NodeInfo) (log : Bytes) (now : Int) : Process :=
  { node := Node.start self peers log now
    threads := fun _ => none
    next := 0
    sampled := none
    callbacks := []
    handled := [] }

def setThread (s : Process) (t : Nat) (p : Option Prog) : Process :=
  { s with threads := Function.update s.threads t p }

/-- A `mark_alive` with its recovery callback. -/
def markAlive (s : Process) (nodeId : Int) : Process :=
  { s with
    node := s.node.markAlive nodeId
    callbacks := s.callbacks ++
      if (s.node.heartbeat.markAlive nodeId s.node.clock).2 then [.recovery nodeId] else []
    handled := s.handled ++ [(nodeId, s.node.clock)] }

/-- A pass of the monitor with its failure callbacks. -/
def monitorPass (s : Process) (now : Int) : Process :=
  { s with
    node := s.node.monitor now
    sampled := none
    callbacks := s.callbacks ++ (s.node.heartbeat.monitorPass now).2.map .failure }

def runThread (s : Process) (me : Int) (t : Nat) (p : Prog) (answer : Option Message) : Process :=
  match p with
  | .markAlive nodeId next => (s.markAlive nodeId).setThread t (some next)
  | p =>
    match p.perform me s.node with
    | .finished _ => s.setThread t none
    | .continues n rest _ => { s.setThread t (some rest) with node := n }
    | .calls _ _ _ next => s.setThread t (some (next answer))

def step (me : Int) (s : Process) : Action → Option Process
  | .tick now => some { s with node := { s.node with clock := now } }
  | .receive msg =>
    some { s.setThread s.next (some (Coordinator.onMessage me msg)) with next := s.next + 1 }
  | .call t answer => (s.threads t).map fun p => s.runThread me t p answer
  | .sample => some { s with sampled := some s.node.clock }
  | .pass => s.sampled.map fun now => s.monitorPass now

/-- The part of a process that the failure detector uses. -/
structure Agree (s s' : Process) : Prop where
  ring : s'.node.ring = s.node.ring
  heartbeat : s'.node.heartbeat = s.node.heartbeat
  clock : s'.node.clock = s.node.clock
  sampled : s'.sampled = s.sampled
  callbacks : s'.callbacks = s.callbacks
  handled : s'.handled = s.handled

/-- A call of a handler is a `mark_alive` or does not concern the detector. -/
theorem runThread_cases (s : Process) (me : Int) (t : Nat) (p : Prog) (answer : Option Message) :
    Agree s (s.runThread me t p answer) ∨
      ∃ nodeId, Agree (s.markAlive nodeId) (s.runThread me t p answer) := by
  cases p with
  | markAlive nodeId next => exact Or.inr ⟨nodeId, rfl, rfl, rfl, rfl, rfl, rfl⟩
  | _ => exact Or.inl ⟨rfl, rfl, rfl, rfl, rfl, rfl⟩

variable {me : Int} {s s' : Process} {a : Action}

/-- What a step can do to the detector. -/
theorem step_cases (h : s.step me a = some s') :
    Agree s s' ∨ (∃ now, a = .tick now ∧ s' = { s with node := { s.node with clock := now } }) ∨
      (∃ nodeId, Agree (s.markAlive nodeId) s') ∨
      (a = .sample ∧ s' = { s with sampled := some s.node.clock }) ∨
      ∃ now, a = .pass ∧ s.sampled = some now ∧ s' = s.monitorPass now := by
  cases a with
  | tick now => exact Or.inr (Or.inl ⟨now, rfl, (Option.some.inj h).symm⟩)
  | receive msg =>
    obtain rfl := Option.some.inj h
    exact Or.inl ⟨rfl, rfl, rfl, rfl, rfl, rfl⟩
  | call t answer =>
    obtain ⟨p, -, rfl⟩ := Option.map_eq_some_iff.mp h
    rcases s.runThread_cases me t p answer with hsame | hmark
    · exact Or.inl hsame
    · exact Or.inr (Or.inr (Or.inl hmark))
  | sample => exact Or.inr (Or.inr (Or.inr (Or.inl ⟨rfl, (Option.some.inj h).symm⟩)))
  | pass =>
    obtain ⟨now, hnow, rfl⟩ := Option.map_eq_some_iff.mp h
    exact Or.inr (Or.inr (Or.inr (Or.inr ⟨now, rfl, hnow, rfl⟩)))

/-! ## The three copies of a flag -/

/-- The callbacks that are about one id. -/
def callsFor (id : Int) (callbacks : List Callback) : List Callback :=
  callbacks.filter fun c => decide (c.nodeId = id)

theorem callsFor_append (id : Int) (l m : List Callback) :
    callsFor id (l ++ m) = callsFor id l ++ callsFor id m := List.filter_append ..

theorem callsFor_failures (id : Int) {ids : List Int} (hnodup : ids.Nodup) :
    callsFor id (ids.map .failure) = if id ∈ ids then [.failure id] else [] := by
  induction ids with
  | nil => rfl
  | cons d rest ih =>
    obtain ⟨hd, hrest⟩ := List.nodup_cons.mp hnodup
    rw [List.map_cons, callsFor, List.filter_cons, ← callsFor, ih hrest]
    by_cases hid : d = id
    · subst hid
      simp [Callback.nodeId, hd]
    · simp [Callback.nodeId, hid, Ne.symm hid]

/-- Callbacks for `id` that alternate after the assumption, made at the start,
that `id` is alive.  The last of them is the one that fits the flag `dead`. -/
structure TakesTurns (id : Int) (dead : Bool) (calls : List Callback) : Prop where
  alternate : (Callback.recovery id :: calls).IsChain (· ≠ ·)
  latest : (Callback.recovery id :: calls).getLast? =
    some (if dead then .failure id else .recovery id)

theorem TakesTurns.append {id : Int} {dead : Bool} {calls : List Callback}
    (h : TakesTurns id dead calls) :
    TakesTurns id (!dead) (calls ++ [if dead then .recovery id else .failure id]) where
  alternate := by
    rw [← List.cons_append, List.isChain_append]
    refine ⟨h.alternate, List.isChain_singleton _, fun x hx y hy => ?_⟩
    rw [h.latest, Option.mem_some_iff] at hx
    rw [List.head?_cons, Option.mem_some_iff] at hy
    subst hx hy
    cases dead <;> simp
  latest := by
    rw [← List.cons_append, List.getLast?_append]
    cases dead <;> simp

structure InStep (s : Process) : Prop where
  wellFormed : s.node.ring.WellFormed
  /-- The ring has the flag of the table, and an id that the table does not know
  has been alive all the time. -/
  flag : ∀ id n, s.node.ring.nodesById.find? id = some n →
    n.alive = (s.node.heartbeat.knownAlive.lookup id).getD true
  tables : ∀ id, (s.node.heartbeat.lastSeen.lookup id).isSome =
    (s.node.heartbeat.knownAlive.lookup id).isSome
  turns : ∀ id, TakesTurns id (decide (s.node.heartbeat.knownAlive.lookup id = some false))
    (callsFor id s.callbacks)

theorem InStep.agree (h : InStep s) (hs : Agree s s') : InStep s' where
  wellFormed := hs.ring ▸ h.wellFormed
  flag := by
    rw [hs.ring, hs.heartbeat]
    exact h.flag
  tables := by
    rw [hs.heartbeat]
    exact h.tables
  turns := by
    rw [hs.heartbeat, hs.callbacks]
    exact h.turns

theorem find?_ring_markAlive (n : Node) (nodeId id : Int) :
    (n.markAlive nodeId).ring.nodesById.find? id =
      if id = nodeId ∧ n.heartbeat.knownAlive.lookup nodeId = some false then
        (n.ring.nodesById.find? id).map fun m => { m with alive := true }
      else n.ring.nodesById.find? id := by
  by_cases hdead : n.heartbeat.knownAlive.lookup nodeId = some false
  · simp [Node.markAlive, HeartbeatService.markAlive, hdead, HashRing.find?_updateNodeStatus]
  · simp [Node.markAlive, HeartbeatService.markAlive, hdead]

theorem wellFormed_ring_markAlive {n : Node} (h : n.ring.WellFormed) (nodeId : Int) :
    (n.markAlive nodeId).ring.WellFormed := by
  rw [Node.markAlive]
  dsimp only
  split
  · exact HashRing.wellFormed_updateNodeStatus h nodeId true
  · exact h

theorem InStep.markAlive (h : InStep s) (nodeId : Int) : InStep (s.markAlive nodeId) where
  wellFormed := wellFormed_ring_markAlive h.wellFormed nodeId
  flag := by
    intro id n hn
    have hold : s.node.ring.nodesById.find? id = some n → n.alive =
        (s.node.heartbeat.knownAlive.lookup id).getD true := h.flag id n
    change (s.node.markAlive nodeId).ring.nodesById.find? id = some n at hn
    show n.alive = ((s.node.heartbeat.knownAlive.insert nodeId true).lookup id).getD true
    rw [find?_ring_markAlive] at hn
    by_cases hid : id = nodeId
    · subst hid
      rw [AList.lookup_insert, Option.getD_some]
      by_cases hdead : s.node.heartbeat.knownAlive.lookup id = some false
      · rw [if_pos ⟨rfl, hdead⟩] at hn
        obtain ⟨m, -, rfl⟩ := Option.map_eq_some_iff.mp hn
        rfl
      · rw [if_neg (fun hc => hdead hc.2)] at hn
        rw [hold hn]
        cases hka : s.node.heartbeat.knownAlive.lookup id with
        | none => rfl
        | some b =>
          cases b with
          | true => rfl
          | false => exact absurd hka hdead
    · rw [if_neg (fun hc => hid hc.1)] at hn
      rw [AList.lookup_insert_ne hid]
      exact hold hn
  tables := by
    intro id
    show ((s.node.heartbeat.lastSeen.insert nodeId s.node.clock).lookup id).isSome =
      ((s.node.heartbeat.knownAlive.insert nodeId true).lookup id).isSome
    by_cases hid : id = nodeId
    · subst hid
      rw [AList.lookup_insert, AList.lookup_insert]
      rfl
    · rw [AList.lookup_insert_ne hid, AList.lookup_insert_ne hid]
      exact h.tables id
  turns := by
    intro id
    have hturns := h.turns id
    show TakesTurns id
      (decide ((s.node.heartbeat.knownAlive.insert nodeId true).lookup id = some false))
      (callsFor id (s.callbacks ++
        if (s.node.heartbeat.markAlive nodeId s.node.clock).2 then [.recovery nodeId] else []))
    rw [callsFor_append]
    by_cases hid : id = nodeId
    · subst hid
      rw [AList.lookup_insert]
      by_cases hdead : s.node.heartbeat.knownAlive.lookup id = some false
      · simpa [HeartbeatService.markAlive, hdead, callsFor, Callback.nodeId]
          using hturns.append
      · simpa [HeartbeatService.markAlive, hdead, callsFor] using hturns
    · rw [AList.lookup_insert_ne hid]
      have hnone : callsFor id
          (if (s.node.heartbeat.markAlive nodeId s.node.clock).2 then [.recovery nodeId] else []) =
            [] := by
        split
        · simp [callsFor, Callback.nodeId, Ne.symm hid]
        · rfl
      rw [hnone, List.append_nil]
      exact hturns

/-- A pass reports exactly the ids whose entry it changes. -/
theorem lookup_pass (h : InStep s) (now id : Int) :
    (s.monitorPass now).node.heartbeat.knownAlive.lookup id =
      if id ∈ (s.node.heartbeat.monitorPass now).2 then some false
      else s.node.heartbeat.knownAlive.lookup id := by
  have htables := h.tables id
  show (s.node.monitor now).heartbeat.knownAlive.lookup id = _
  rw [Node.heartbeat_monitor, HeartbeatService.lookup_monitorPass]
  by_cases hfail : id ∈ (s.node.heartbeat.monitorPass now).2
  · obtain ⟨halive, time, htime, hold⟩ :=
      (HeartbeatService.mem_failed_monitorPass now _ id).mp hfail
    simp only [if_pos hfail, htime, halive, Option.getD_some, Bool.true_and]
    rw [decide_eq_false (by omega)]
  · rw [if_neg hfail]
    cases htime : s.node.heartbeat.lastSeen.lookup id with
    | none => rfl
    | some time =>
      rw [htime, Option.isSome_some] at htables
      obtain ⟨alive, halive⟩ := Option.isSome_iff_exists.mp htables.symm
      rw [halive, Option.getD_some]
      cases alive with
      | false => rfl
      | true =>
        have hrecent : now - time < HeartbeatService.timeoutMs := by
          by_contra hold
          exact hfail ((HeartbeatService.mem_failed_monitorPass now _ id).mpr
            ⟨halive, time, htime, by omega⟩)
        simp only [hrecent, decide_true, Bool.and_self]

theorem InStep.monitorPass (h : InStep s) (now : Int) : InStep (s.monitorPass now) where
  wellFormed := by
    show (s.node.monitor now).ring.WellFormed
    rw [Node.ring_monitor]
    exact HashRing.wellFormed_markDead h.wellFormed _
  flag := by
    intro id n hn
    change (s.node.monitor now).ring.nodesById.find? id = some n at hn
    rw [Node.ring_monitor, HashRing.find?_markDead] at hn
    rw [lookup_pass h]
    by_cases hfail : id ∈ (s.node.heartbeat.monitorPass now).2
    · rw [if_pos hfail] at hn ⊢
      obtain ⟨m, -, rfl⟩ := Option.map_eq_some_iff.mp hn
      rfl
    · rw [if_neg hfail] at hn ⊢
      exact h.flag id n hn
  tables := by
    intro id
    show ((s.node.monitor now).heartbeat.lastSeen.lookup id).isSome = _
    rw [lookup_pass h, Node.heartbeat_monitor, HeartbeatService.lastSeen_monitorPass]
    by_cases hfail : id ∈ (s.node.heartbeat.monitorPass now).2
    · obtain ⟨-, time, htime, -⟩ := (HeartbeatService.mem_failed_monitorPass now _ id).mp hfail
      rw [if_pos hfail, htime]
      rfl
    · rw [if_neg hfail]
      exact h.tables id
  turns := by
    intro id
    have hturns := h.turns id
    show TakesTurns id _ (callsFor id
      (s.callbacks ++ (s.node.heartbeat.monitorPass now).2.map .failure))
    rw [lookup_pass h, callsFor_append,
      callsFor_failures id (HeartbeatService.nodup_failed_monitorPass now _)]
    by_cases hfail : id ∈ (s.node.heartbeat.monitorPass now).2
    · have halive := ((HeartbeatService.mem_failed_monitorPass now _ id).mp hfail).1
      rw [halive] at hturns
      simpa [hfail] using hturns.append
    · simpa [hfail] using hturns

theorem InStep.step (h : InStep s) (hstep : s.step me a = some s') : InStep s' := by
  rcases step_cases hstep with hs | ⟨now, -, rfl⟩ | ⟨nodeId, hs⟩ | ⟨-, rfl⟩ | ⟨now, -, -, rfl⟩
  · exact h.agree hs
  · exact ⟨h.wellFormed, h.flag, h.tables, h.turns⟩
  · exact (h.markAlive nodeId).agree hs
  · exact ⟨h.wellFormed, h.flag, h.tables, h.turns⟩
  · exact h.monitorPass now

/-- The nodes that a process is started with are described as alive. -/
theorem inStep_start {self : NodeInfo} {peers : List NodeInfo}
    (halive : ∀ n ∈ self :: peers, n.alive = true) (log : Bytes) (now : Int) :
    InStep (start self peers log now) where
  wellFormed := HashRing.wellFormed_foldl_addNode
    (HashRing.wellFormed_addNode HashRing.wellFormed_empty self) peers
  flag := by
    intro id n hn
    have hn : n.alive = true := by
      rcases HashRing.find?_foldl_addNode hn with hmem | hself
      · exact halive n (List.mem_cons_of_mem _ hmem)
      · rw [HashRing.nodesById_addNode] at hself
        by_cases hid : id = self.id
        · rw [hid, OrderedMap.find?_insert_self] at hself
          exact Option.some.inj hself ▸ halive self List.mem_cons_self
        · rw [OrderedMap.find?_insert_of_ne _ _ hid] at hself
          exact absurd hself (by simp [HashRing.empty])
    show n.alive = ((HeartbeatService.start peers now).knownAlive.lookup id).getD true
    rw [hn, HeartbeatService.lookup_knownAlive_start]
    split <;> rfl
  tables := by
    intro id
    show ((HeartbeatService.start peers now).lastSeen.lookup id).isSome =
      ((HeartbeatService.start peers now).knownAlive.lookup id).isSome
    rw [HeartbeatService.lookup_lastSeen_start, HeartbeatService.lookup_knownAlive_start]
    split <;> rfl
  turns := by
    intro id
    show TakesTurns id
      (decide ((HeartbeatService.start peers now).knownAlive.lookup id = some false)) []
    rw [decide_eq_false (HeartbeatService.knownAlive_start_ne_false now peers id)]
    exact ⟨List.isChain_singleton _, rfl⟩

/-- The registry of the ring never loses an id. -/
theorem registered_step {id : Int} (h : s.node.ring.nodesById.find? id ≠ none)
    (hstep : s.step me a = some s') : s'.node.ring.nodesById.find? id ≠ none := by
  rcases step_cases hstep with hs | ⟨now, -, rfl⟩ | ⟨nodeId, hs⟩ | ⟨-, rfl⟩ | ⟨now, -, -, rfl⟩
  · rwa [hs.ring]
  · exact h
  · rw [hs.ring]
    show (s.node.markAlive nodeId).ring.nodesById.find? id ≠ none
    rw [find?_ring_markAlive]
    split
    · simpa using h
    · exact h
  · exact h
  · show (s.node.monitor now).ring.nodesById.find? id ≠ none
    rw [Node.ring_monitor, HashRing.find?_markDead]
    split
    · simpa using h
    · exact h

/-- What the tables hold of an id after a step: the time of a message handled
now, or what they held. -/
theorem lastSeen_markAlive (s : Process) (nodeId id : Int) :
    (s.markAlive nodeId).node.heartbeat.lastSeen.lookup id =
      if id = nodeId then some s.node.clock else s.node.heartbeat.lastSeen.lookup id := by
  show (s.node.heartbeat.lastSeen.insert nodeId s.node.clock).lookup id = _
  by_cases hid : id = nodeId
  · subst hid
    rw [AList.lookup_insert, if_pos rfl]
  · rw [AList.lookup_insert_ne hid, if_neg hid]

theorem lastSeen_pass (s : Process) (now : Int) :
    (s.monitorPass now).node.heartbeat.lastSeen = s.node.heartbeat.lastSeen := by
  show (s.node.monitor now).heartbeat.lastSeen = _
  rw [Node.heartbeat_monitor, HeartbeatService.lastSeen_monitorPass]

/-- The last time a message with the id `id` was handled, or else `since`. -/
def lastHandled (since : Option Int) (handled : List (Int × Int)) (id : Int) : Option Int :=
  handled.foldl (fun time e => if e.1 = id then some e.2 else time) since

theorem lastSeen_step {since : Option Int} {id : Int}
    (h : s.node.heartbeat.lastSeen.lookup id = lastHandled since s.handled id)
    (hstep : s.step me a = some s') :
    s'.node.heartbeat.lastSeen.lookup id = lastHandled since s'.handled id := by
  rcases step_cases hstep with hs | ⟨now, -, rfl⟩ | ⟨nodeId, hs⟩ | ⟨-, rfl⟩ | ⟨now, -, -, rfl⟩
  · rw [hs.heartbeat, hs.handled]
    exact h
  · exact h
  · rw [hs.heartbeat, hs.handled, lastSeen_markAlive, h]
    show _ = lastHandled since (s.handled ++ [(nodeId, s.node.clock)]) id
    rw [lastHandled, lastHandled, List.foldl_append, List.foldl_cons, List.foldl_nil]
    by_cases hid : id = nodeId
    · rw [if_pos hid, if_pos hid.symm]
    · rw [if_neg hid, if_neg (Ne.symm hid)]
  · exact h
  · rw [lastSeen_pass]
    exact h

theorem lastHandled_some (since : Int) (handled : List (Int × Int)) (id : Int) :
    ∃ time, lastHandled (some since) handled id = some time := by
  induction handled generalizing since with
  | nil => exact ⟨since, rfl⟩
  | cons e rest ih =>
    by_cases hid : e.1 = id
    · simpa [lastHandled, hid] using ih e.2
    · simpa [lastHandled, hid] using ih since

section FromStart

variable {self : NodeInfo} {peers : List NodeInfo} {log : Bytes} {now : Int}
  {actions : List Action}

theorem inStep_exec (halive : ∀ n ∈ self :: peers, n.alive = true)
    (hrun : Runs.exec (step self.id) (start self peers log now) actions = some s) : InStep s := by
  have hstep : ∀ s a s', True → InStep s → s.step self.id a = some s' → InStep s' :=
    fun _ _ _ _ h hs => h.step hs
  exact Runs.exec_invariant hstep (inStep_start halive log now) (fun _ _ => trivial) hrun

theorem registered_exec {n : NodeInfo} (hn : n ∈ self :: peers)
    (hrun : Runs.exec (step self.id) (start self peers log now) actions = some s) :
    s.node.ring.nodesById.find? n.id ≠ none := by
  have hstep : ∀ (s : Process) a s', True → s.node.ring.nodesById.find? n.id ≠ none →
      s.step self.id a = some s' → s'.node.ring.nodesById.find? n.id ≠ none :=
    fun _ _ _ _ h hs => registered_step h hs
  refine Runs.exec_invariant hstep ?_ (fun _ _ => trivial) hrun
  refine HashRing.registered_foldl_addNode ?_
  rcases List.mem_cons.mp hn with rfl | hn
  · rw [HashRing.nodesById_addNode, OrderedMap.find?_insert_self]
    exact Or.inr (by simp)
  · exact Or.inl (List.mem_map_of_mem hn)

/-- The table of the times is the history of the handled messages. -/
theorem lastSeen_exec (id : Int)
    (hrun : Runs.exec (step self.id) (start self peers log now) actions = some s) :
    s.node.heartbeat.lastSeen.lookup id =
      lastHandled (if id ∈ peers.map NodeInfo.id then some now else none) s.handled id := by
  have hstep : ∀ (s : Process) a s', True → s.node.heartbeat.lastSeen.lookup id =
        lastHandled (if id ∈ peers.map NodeInfo.id then some now else none) s.handled id →
      s.step self.id a = some s' → s'.node.heartbeat.lastSeen.lookup id =
        lastHandled (if id ∈ peers.map NodeInfo.id then some now else none) s'.handled id :=
    fun _ _ _ _ h hs => lastSeen_step h hs
  refine Runs.exec_invariant hstep ?_ (fun _ _ => trivial) hrun
  exact HeartbeatService.lookup_lastSeen_start now peers id

theorem lastSeen_peer {p : NodeInfo} (hp : p ∈ peers)
    (hrun : Runs.exec (step self.id) (start self peers log now) actions = some s) :
    s.node.heartbeat.lastSeen.lookup p.id = lastHandled (some now) s.handled p.id := by
  rw [lastSeen_exec p.id hrun, if_pos (List.mem_map_of_mem hp)]

/-- A configured peer has a flag in the table, and all its copies in the ring
have the same. -/
theorem exists_flag {p : NodeInfo} (hp : p ∈ peers)
    (hrun : Runs.exec (step self.id) (start self peers log now) actions = some s)
    (h : InStep s) :
    ∃ alive, s.node.heartbeat.knownAlive.lookup p.id = some alive ∧
      s.node.ring.Flagged p.id alive := by
  obtain ⟨n, hn⟩ := Option.ne_none_iff_exists'.mp
    (registered_exec (List.mem_cons_of_mem self hp) hrun)
  obtain ⟨time, htime⟩ := lastHandled_some now s.handled p.id
  have hknown := h.tables p.id
  rw [lastSeen_peer hp hrun, htime, Option.isSome_some] at hknown
  obtain ⟨alive, hka⟩ := Option.isSome_iff_exists.mp hknown.symm
  have hflag := h.flag p.id n hn
  rw [hka, Option.getD_some] at hflag
  exact ⟨alive, hka, hflag ▸ h.wellFormed.flagged hn⟩

/-- In every state of every run, the failure detector and the ring agree about
each configured peer, and the two callbacks for it alternate, beginning with a
failure. -/
theorem detector_in_step (halive : ∀ n ∈ self :: peers, n.alive = true)
    (hrun : Runs.exec (step self.id) (start self peers log now) actions = some s)
    {p : NodeInfo} (hp : p ∈ peers) :
    (∃ alive, s.node.heartbeat.knownAlive.lookup p.id = some alive ∧
      s.node.ring.Flagged p.id alive) ∧
    (callsFor p.id s.callbacks).IsChain (· ≠ ·) ∧
    ∀ c ∈ (callsFor p.id s.callbacks).head?, c = .failure p.id := by
  have h := inStep_exec halive hrun
  obtain ⟨hfirst, hchain⟩ := List.isChain_cons.mp (h.turns p.id).alternate
  refine ⟨exists_flag hp hrun h, hchain, fun c hc => ?_⟩
  have hid : c.nodeId = p.id :=
    of_decide_eq_true (List.mem_filter.mp (List.mem_of_mem_head? hc)).2
  cases c with
  | failure nodeId => exact congrArg Callback.failure hid
  | recovery nodeId => exact absurd (congrArg Callback.recovery hid).symm (hfirst _ hc)

/-- A failure and a recovery of node 2, seen by node 1. -/
def failureAndRecovery : List Action :=
  [.tick 6000, .sample, .pass, .receive { type := .heartbeat, nodeId := 2 }, .call 0 none]

theorem detector_in_step_launch :
    ∃ s, Runs.exec (step 1) (start (launchNode 1) [launchNode 2, launchNode 3] [] 0)
        failureAndRecovery = some s ∧
      callsFor 2 s.callbacks = [.failure 2, .recovery 2] ∧
      (callsFor 2 s.callbacks).IsChain (· ≠ ·) ∧
      ∃ alive, s.node.heartbeat.knownAlive.lookup 2 = some alive ∧ s.node.ring.Flagged 2 alive := by
  have hcalls : (Runs.exec (step 1) (start (launchNode 1) [launchNode 2, launchNode 3] [] 0)
      failureAndRecovery).map (fun s => callsFor 2 s.callbacks) =
        some [.failure 2, .recovery 2] := by
    decide +kernel
  obtain ⟨s, hrun, hcalls⟩ := Option.map_eq_some_iff.mp hcalls
  have halive : ∀ n ∈ [launchNode 1, launchNode 2, launchNode 3], n.alive = true := by decide
  obtain ⟨hflag, hchain, -⟩ := detector_in_step halive hrun
    (show launchNode 2 ∈ [launchNode 2, launchNode 3] by decide)
  exact ⟨s, hrun, hcalls, hchain, hflag⟩

end FromStart

end Process
end Detector
end DistributedDb
