import DistributedDb.Cluster.Footprint
import DistributedDb.Cluster.SharedRing
import DistributedDb.Node.ElectionNet

/-
The lock of the failure detector.

`monitor_loop` holds `last_seen_mu_` while it calls `on_failure_`, and a failed
leader makes that call run an election: the thread asks the nodes with higher ids
and waits for their replies with the lock in its hands.  Every message that a
node receives has to take the same lock in `mark_alive` before it is handled, so
a monitor may wait for another node whose handlers wait for the monitor there.
Such waits go to higher ids only, and one of the threads can always go on.

Every other mutex of a node guards one access or one loop that waits for nothing;
what it guards is one step here, like `mark_alive` itself.
-/

namespace DistributedDb
namespace Locks

open Coordinator Election

/-- What is left of a pass of `monitor_loop` that sampled `now`. -/
structure Pass where
  now : Int
  rest : List ((_ : Int) × Int)

inductive Work where
  /-- The handler that `main` installs, about to call `mark_alive`. -/
  | enter (msg : Message)
  | handling (prog : Prog)
  /-- An election, in a thread of its own or inside a pass that reports the
  failure of the leader. -/
  | electing (task : Task) (pass : Option Pass)
  /-- A pass that sampled `now` and is about to take the lock. -/
  | locking (now : Int)
  | scanning (pass : Pass)

/-- The work that waits for the reply to a `send_message`. -/
inductive Frame where
  | handler (node : Int) (next : Option Message → Prog)
  | round (node term : Int) (acked : Bool) (rest : List NodeInfo) (pass : Option Pass)

namespace Frame

def node : Frame → Int
  | .handler node _ => node
  | .round node _ _ _ _ => node

/-- How the work goes on with a reply, or with none. -/
def resume (reply : Option Message) : Frame → Work
  | .handler _ next => .handling (next reply)
  | .round _ term acked rest pass =>
    .electing (if reply.map Message.type = some .ack then .storeAck term rest
      else .exchange term acked rest) pass

end Frame

/-- A thread with the work that waits for it, on other nodes or on its own. -/
structure Thread where
  node : Int
  work : Work
  callers : List Frame

structure Machine where
  cluster : Cluster
  /-- The thread that holds `last_seen_mu_` of a node from one step to the next. -/
  holder : Int → Option Nat
  threads : Nat → Option Thread
  next : Nat

inductive Action where
  /-- A message arrives at node `i` over a connection. -/
  | invoke (i : Int) (msg : Message)
  | run (t : Nat)
  | deliver (packet : Packet) (again : Bool)
  | lose (packet : Packet)
  /-- The monitor of node `i` wakes up and samples the time. -/
  | monitor (i now : Int)
  /-- A detached thread of node `i` calls `trigger_election`. -/
  | elect (i : Int)
  | sync (i : Int) (peer : NodeInfo)
  /-- Work of thread `t`, under `depth` others, gives up its wait for a reply. -/
  | giveUp (t depth : Nat)
  | tick (i now : Int)

namespace Machine

def setThread (m : Machine) (t : Nat) (th : Option Thread) : Machine :=
  { m with threads := Function.update m.threads t th }

def setNode (m : Machine) (i : Int) (n : Node) : Machine :=
  { m with cluster := m.cluster.setNode i n }

def spawn (m : Machine) (th : Thread) : Machine :=
  { m.setThread m.next (some th) with next := m.next + 1 }

/-- The frame waits while the receiver handles the message; without a receiver it
goes on at once. -/
def call (m : Machine) (t : Nat) (callers : List Frame) (host : Bytes) (port : Int)
    (msg : Message) (frame : Frame) : Machine :=
  match m.cluster.listener host port with
  | none =>
    m.setThread t (some { node := frame.node, work := frame.resume none, callers := callers })
  | some j => m.setThread t (some { node := j, work := .enter msg, callers := frame :: callers })

def reply (m : Machine) (t : Nat) (r : Message) : List Frame → Machine
  | [] => m.setThread t none
  | frame :: rest =>
    m.setThread t (some { node := frame.node, work := frame.resume (some r), callers := rest })

/-- The packets of `broadcast_leader`. -/
def announcements (me : Int) (e : LeaderElection) : Task → List Packet
  | .broadcastLeader => (e.allNodes.filter fun n => decide (n.id ≠ me)).map fun n =>
      { host := n.host, port := n.port, msg := leaderMsg me e.electionTerm }
  | _ => []

/-- Where an election goes on: with its next access, with the rest of the pass
that it belongs to, or not at all. -/
def afterTask (pass : Option Pass) : Option Task → Option Work
  | some task => some (.electing task pass)
  | none => pass.map .scanning

/-- One access of an election. -/
def access (m : Machine) (t : Nat) (th : Thread) (task : Task) (pass : Option Pass) : Machine :=
  let n := m.cluster.node th.node
  let effect := task.perform th.node n.election
  let m' := m.setNode th.node { n with election := effect.node }
  let m'' := { m'.setThread t ((afterTask pass effect.task).map fun work =>
      { th with work := work }) with
    cluster := m'.cluster.send (announcements th.node n.election task) }
  match effect.spawned with
  | none => m''
  | some task' => m''.spawn { node := th.node, work := .electing task' none, callers := [] }

/-- One entry of `last_seen_`. -/
def scan (m : Machine) (t : Nat) (th : Thread) (now : Int) (e : (_ : Int) × Int)
    (rest : List ((_ : Int) × Int)) : Machine :=
  let n := m.cluster.node th.node
  let p := HeartbeatService.check now (n.heartbeat, []) e
  if p.2 = [] then
    (m.setNode th.node { n with heartbeat := p.1 }).setThread t
      (some { th with work := .scanning ⟨now, rest⟩ })
  else
    (m.setNode th.node { n with
      heartbeat := p.1
      ring := n.ring.updateNodeStatus e.1 false }).setThread t
      (some { th with work := .electing (.onNodeFailure e.1) (some ⟨now, rest⟩) })

/-- The next step of a thread; a thread that needs the lock has none while
another one holds it. -/
def runThread (m : Machine) (t : Nat) (th : Thread) : Option Machine :=
  match th.work with
  | .enter msg =>
    if (m.holder th.node).isSome then none
    else some ((m.setNode th.node ((m.cluster.node th.node).markAlive msg.nodeId)).setThread t
      (some { th with work := .handling (handle th.node msg) }))
  | .handling prog =>
    match prog.perform th.node (m.cluster.node th.node) with
    | .finished r => some (m.reply t r th.callers)
    | .continues n rest sent =>
      some { (m.setNode th.node n).setThread t (some { th with work := .handling rest }) with
        cluster := (m.cluster.setNode th.node n).send sent }
    | .calls host port msg next =>
      some (m.call t th.callers host port msg (.handler th.node next))
  | .electing (.exchange term acked (n :: rest)) pass =>
    some (m.call t th.callers n.host n.port (electionMsg th.node term)
      (.round th.node term acked rest pass))
  | .electing task pass => some (m.access t th task pass)
  | .locking now =>
    if (m.holder th.node).isSome then none
    else
      let entries := (m.cluster.node th.node).heartbeat.lastSeen.entries
      some { m.setThread t (some { th with work := .scanning ⟨now, entries⟩ }) with
        holder := Function.update m.holder th.node (some t) }
  | .scanning ⟨_, []⟩ =>
    some { m.setThread t none with holder := Function.update m.holder th.node none }
  | .scanning ⟨now, e :: rest⟩ => some (m.scan t th now e rest)

def step (m : Machine) : Action → Option Machine
  | .invoke i msg => some (m.spawn { node := i, work := .enter msg, callers := [] })
  | .run t => (m.threads t).bind (m.runThread t)
  | .deliver packet again =>
    if packet ∈ m.cluster.inFlight then
      (m.cluster.listener packet.host packet.port).map fun j =>
        { m.spawn { node := j, work := .enter packet.msg, callers := [] } with
          cluster := { m.cluster with
            inFlight := if again then m.cluster.inFlight else m.cluster.inFlight.erase packet } }
    else none
  | .lose packet =>
    some { m with cluster := { m.cluster with inFlight := m.cluster.inFlight.erase packet } }
  | .monitor i now => some (m.spawn { node := i, work := .locking now, callers := [] })
  | .elect i => some (m.spawn { node := i, work := .electing .trigger none, callers := [] })
  | .sync i peer =>
    some (m.spawn { node := i, work := .handling (Replication.syncFromPeer i peer), callers := [] })
  | .giveUp t depth =>
    (m.threads t).bind fun th =>
      match th.callers.drop depth with
      | [] => none
      | frame :: rest =>
        some ((m.setThread t (some
          { node := frame.node, work := frame.resume none, callers := rest })).spawn
          { th with callers := th.callers.take depth })
  | .tick i now =>
    some { m with cluster := m.cluster.setNode i { m.cluster.node i with clock := now } }

def idle (c : Cluster) : Machine :=
  { cluster := c, holder := fun _ => none, threads := fun _ => none, next := 0 }

end Machine

/-! ## What is known of the threads -/

section Invariant

variable (listener : Bytes → Int → Option Int) (top : Int)

/-- Whoever answers at the address of `n` has a higher id than `me`. -/
def Upward (me : Int) (n : NodeInfo) : Prop :=
  ∀ j, listener n.host n.port = some j → me < j

/-- The nodes that a round has yet to ask are higher ones. -/
def TaskOk (me : Int) : Task → Prop
  | .exchange _ _ higher | .storeAck _ higher => ∀ n ∈ higher, Upward listener me n
  | _ => True

/-- The work of a pass that holds the lock. -/
def Work.holds : Work → Bool
  | .electing _ (some _) | .scanning _ => true
  | _ => false

/-- The work of a pass, which nobody waits for. -/
def Work.isPass : Work → Bool
  | .locking _ => true
  | work => work.holds

def Frame.holds : Frame → Bool
  | .round _ _ _ _ (some _) => true
  | _ => false

def WorkOk (me : Int) : Work → Prop
  | .electing task _ => TaskOk listener me task
  | _ => True

def FrameOk : Frame → Prop
  | .round node _ _ rest _ => ∀ n ∈ rest, Upward listener node n
  | .handler _ _ => True

/-- Only the last frame may belong to a pass. -/
def StackOk : List Frame → Prop
  | [] => True
  | frame :: rest => FrameOk listener frame ∧ (frame.holds = true → rest = []) ∧ StackOk rest

structure ThreadOk (th : Thread) : Prop where
  work : WorkOk listener th.node th.work
  pass : th.work.isPass = true → th.callers = []
  stack : StackOk listener th.callers

/-- The handler of an `ELECTION` message asks nobody. -/
inductive Quick : Work → Prop where
  | enter {msg : Message} (h : msg.type = .election) : Quick (.enter msg)
  | handling {prog : Prog} (h : prog.Every Prog.IsLocal) : Quick (.handling prog)

/-- The thread holds the lock of node `i`, and waits at most for the handler of
an `ELECTION` message on a higher node. -/
inductive Keeps (i : Int) (th : Thread) : Prop where
  | scanning (hnode : th.node = i) (hholds : th.work.holds = true)
  | asking {frame : Frame} (hcallers : th.callers = [frame]) (hnode : frame.node = i)
      (hholds : frame.holds = true) (hup : i < th.node) (htop : th.node ≤ top)
      (hquick : Quick th.work)

structure Inv (m : Machine) : Prop where
  network : m.cluster.listener = listener
  wired : ∀ i, ∀ n ∈ (m.cluster.node i).election.allNodes, i < n.id → Upward listener i n
  fresh : ∀ t, m.next ≤ t → m.threads t = none
  threads : ∀ t th, m.threads t = some th → ThreadOk listener th
  held : ∀ i t, m.holder i = some t → ∃ th, m.threads t = some th ∧ Keeps top i th

end Invariant

variable {listener : Bytes → Int → Option Int} {top : Int}

/-! ## Some thread can always go on -/

theorem isSome_runThread_of_free {m : Machine} {t : Nat} {th : Thread}
    (hfree : m.holder th.node = none) : (m.runThread t th).isSome = true := by
  unfold Machine.runThread
  split <;> simp only [hfree, Option.isSome_none, Bool.false_eq_true, if_false, Option.isSome_some]
  split <;> rfl

/-- A pass that holds its lock needs no other. -/
theorem isSome_runThread_of_holds {m : Machine} {t : Nat} {th : Thread}
    (h : th.work.holds = true) : (m.runThread t th).isSome = true := by
  unfold Machine.runThread
  split <;> rename_i hwork <;> rw [hwork] at h
  all_goals first | rfl | simp [Work.holds] at h

/-- Waiting for a lock goes from node to node with ids that grow, so it comes to
a thread that does not wait. -/
theorem exists_run {m : Machine} (h : Inv listener top m) {t : Nat} {th : Thread}
    (ht : m.threads t = some th) :
    ∃ u th', m.threads u = some th' ∧ th.node ≤ th'.node ∧
      (m.runThread u th').isSome = true := by
  induction hd : (top - th.node).toNat using Nat.strong_induction_on generalizing t th with
  | _ d ih =>
    cases hholder : m.holder th.node with
    | none => exact ⟨t, th, ht, le_rfl, isSome_runThread_of_free hholder⟩
    | some u =>
      obtain ⟨th', ht', hkeeps⟩ := h.held th.node u hholder
      cases hkeeps with
      | scanning hnode hholds =>
        exact ⟨u, th', ht', le_of_eq hnode.symm, isSome_runThread_of_holds hholds⟩
      | asking hcallers hnode hholds hup htop hquick =>
        obtain ⟨v, th'', ht'', hle, hsome⟩ := ih (top - th'.node).toNat (by omega) ht' rfl
        exact ⟨v, th'', ht'', by omega, hsome⟩

/-! ## What one step keeps -/

theorem allNodes_setNode {c : Cluster} {i : Int} {n : Node}
    (hn : n.election.allNodes = (c.node i).election.allNodes) (j : Int) :
    ((c.setNode i n).node j).election.allNodes = (c.node j).election.allNodes := by
  by_cases hj : j = i
  · rw [hj, Cluster.setNode_node_self, hn]
  · rw [Cluster.setNode_node_of_ne c n hj]

theorem allNodes_perform {me : Int} {n n' : Node} {p rest : Prog} {sent : List Packet}
    (hp : p.perform me n = .continues n' rest sent) :
    n'.election.allNodes = n.election.allNodes := by
  cases p with
  | done r => simp [Prog.perform] at hp
  | sendMessage host port msg next => simp [Prog.perform] at hp
  | markAlive nodeId next =>
    simp only [Prog.perform, Outcome.continues.injEq] at hp
    rw [← hp.1]
    rfl
  | election msg next =>
    simp only [Prog.perform, Outcome.continues.injEq] at hp
    rw [← hp.1, Node.handleElection]
    dsimp only
    unfold LeaderElection.handleMessage
    split
    · dsimp only
      split <;> rfl
    · dsimp only
      split <;> rfl
    · rfl
    · rfl
  | _ =>
    simp only [Prog.perform, Outcome.continues.injEq] at hp
    rw [← hp.1]

/-- One thread moves or ends; locks change hands only with it. -/
theorem Inv.moves {m m' : Machine} (h : Inv listener top m) {t : Nat} {th : Thread}
    (ht : m.threads t = some th) (th' : Option Thread)
    (hthreads : m'.threads = Function.update m.threads t th') (hnext : m'.next = m.next)
    (hlistener : m'.cluster.listener = m.cluster.listener)
    (hall : ∀ i, (m'.cluster.node i).election.allNodes = (m.cluster.node i).election.allNodes)
    (hok : ∀ x, th' = some x → ThreadOk listener x)
    (hheld : ∀ i u, m'.holder i = some u →
      (u = t ∧ ∃ x, th' = some x ∧ Keeps top i x) ∨ (u ≠ t ∧ m.holder i = some u)) :
    Inv listener top m' where
  network := hlistener.trans h.network
  wired i n hn := by
    rw [hall i] at hn
    exact h.wired i n hn
  fresh u hu := by
    rw [hnext] at hu
    have hut : u ≠ t := by
      rintro rfl
      exact absurd ((h.fresh u hu).symm.trans ht) (by simp)
    rw [hthreads, Function.update_of_ne hut]
    exact h.fresh u hu
  threads u x hu := by
    rw [hthreads] at hu
    by_cases hut : u = t
    · rw [hut, Function.update_self] at hu
      exact hok x hu
    · rw [Function.update_of_ne hut] at hu
      exact h.threads u x hu
  held i u hu := by
    rw [hthreads]
    rcases hheld i u hu with ⟨rfl, x, hx, hkeeps⟩ | ⟨hut, hold⟩
    · exact ⟨x, by rw [Function.update_self, hx], hkeeps⟩
    · rw [Function.update_of_ne hut]
      exact h.held i u hold

/-- The same when no lock changes hands. -/
theorem Inv.goesOn {m m' : Machine} (h : Inv listener top m) {t : Nat} {th : Thread}
    (ht : m.threads t = some th) (th' : Option Thread)
    (hthreads : m'.threads = Function.update m.threads t th') (hnext : m'.next = m.next)
    (hlistener : m'.cluster.listener = m.cluster.listener)
    (hall : ∀ i, (m'.cluster.node i).election.allNodes = (m.cluster.node i).election.allNodes)
    (hholder : m'.holder = m.holder) (hok : ∀ x, th' = some x → ThreadOk listener x)
    (hkeeps : ∀ i, Keeps top i th → ∃ x, th' = some x ∧ Keeps top i x) :
    Inv listener top m' := by
  refine h.moves ht th' hthreads hnext hlistener hall hok fun i u hu => ?_
  rw [hholder] at hu
  by_cases hut : u = t
  · subst hut
    obtain ⟨x, hx, hx'⟩ := h.held i u hu
    obtain rfl := Option.some.inj (ht.symm.trans hx)
    exact Or.inl ⟨rfl, hkeeps i hx'⟩
  · exact Or.inr ⟨hut, hu⟩

/-- A new thread starts. -/
theorem Inv.spawn {m m' : Machine} (h : Inv listener top m) {th : Thread}
    (hthreads : m'.threads = (m.spawn th).threads) (hnext : m'.next = m.next + 1)
    (hlistener : m'.cluster.listener = m.cluster.listener)
    (hnode : m'.cluster.node = m.cluster.node) (hholder : m'.holder = m.holder)
    (hth : ThreadOk listener th) : Inv listener top m' where
  network := hlistener.trans h.network
  wired i n hn := by
    rw [hnode] at hn
    exact h.wired i n hn
  fresh u hu := by
    rw [hthreads]
    exact (Function.update_of_ne (by omega) ..).trans (h.fresh u (by omega))
  threads u x hu := by
    rw [hthreads] at hu
    by_cases hut : u = m.next
    · subst hut
      have hx : Function.update m.threads m.next (some th) m.next = some x := hu
      rw [Function.update_self, Option.some.injEq] at hx
      exact hx ▸ hth
    · exact h.threads u x ((Function.update_of_ne hut ..).symm.trans hu)
  held i u hu := by
    rw [hholder] at hu
    obtain ⟨x, hx, hkeeps⟩ := h.held i u hu
    have hut : u ≠ m.next := by
      rintro rfl
      exact absurd ((h.fresh _ le_rfl).symm.trans hx) (by simp)
    refine ⟨x, ?_, hkeeps⟩
    rw [hthreads]
    exact (Function.update_of_ne hut ..).trans hx

/-- Packets come and go, or a clock moves. -/
theorem Inv.environment {m : Machine} (h : Inv listener top m) {c : Cluster}
    (hlistener : c.listener = m.cluster.listener)
    (hall : ∀ i, (c.node i).election.allNodes = (m.cluster.node i).election.allNodes) :
    Inv listener top { m with cluster := c } where
  network := hlistener.trans h.network
  wired i n hn := by
    have hmem : n ∈ (c.node i).election.allNodes := hn
    rw [hall i] at hmem
    exact h.wired i n hmem
  fresh := h.fresh
  threads := h.threads
  held := h.held

/-! ## The steps of a thread -/

theorem threadOk_resume {frame : Frame} {rest : List Frame}
    (h : StackOk listener (frame :: rest)) (reply : Option Message) :
    ThreadOk listener { node := frame.node, work := frame.resume reply, callers := rest } := by
  obtain ⟨hframe, hlast, hrest⟩ := h
  cases frame with
  | handler node next => exact ⟨trivial, fun hpass => absurd hpass Bool.false_ne_true, hrest⟩
  | round node term acked others pass =>
    refine ⟨?_, fun hpass => ?_, hrest⟩
    · show TaskOk listener node (ite _ _ _)
      split
      · exact hframe
      · exact hframe
    · cases pass with
      | none => exact absurd hpass (by simp [Frame.resume, Work.isPass, Work.holds])
      | some p => exact hlast rfl

theorem holds_resume {frame : Frame} (h : frame.holds = true) (reply : Option Message) :
    (frame.resume reply).holds = true := by
  cases frame with
  | handler node next => exact absurd h (by simp [Frame.holds])
  | round node term acked others pass =>
    cases pass with
    | none => exact absurd h (by simp [Frame.holds])
    | some p => rfl

/-- The caller of a quick handler goes on. -/
theorem Keeps.resume {i : Int} {th : Thread} {frame : Frame} {rest : List Frame}
    (h : Keeps top i th) (hwork : th.work.holds = false) (hcallers : th.callers = frame :: rest)
    (reply : Option Message) :
    Keeps top i { node := frame.node, work := frame.resume reply, callers := rest } := by
  cases h with
  | scanning hnode hholds => exact absurd hholds (by simp [hwork])
  | asking hcallers' hnode hholds hup htop hquick =>
    rw [hcallers] at hcallers'
    obtain ⟨rfl, rfl⟩ := List.cons.inj hcallers'
    exact .scanning hnode (holds_resume hholds reply)

theorem inv_enter {m m' : Machine} (h : Inv listener top m) {t : Nat} {th : Thread}
    (ht : m.threads t = some th) {msg : Message} (hwork : th.work = .enter msg)
    (hstep : m.runThread t th = some m') : Inv listener top m' := by
  rw [Machine.runThread, hwork] at hstep
  dsimp only at hstep
  split at hstep
  · exact absurd hstep (by simp)
  · obtain rfl := Option.some.inj hstep
    have hok := h.threads t th ht
    refine h.goesOn ht (some { th with work := .handling (handle th.node msg) }) rfl rfl rfl
      (allNodes_setNode rfl) rfl (fun x hx => ?_) fun i hkeeps => ⟨_, rfl, ?_⟩
    · rw [← Option.some.inj hx]
      exact ⟨trivial, fun hpass => absurd hpass Bool.false_ne_true, hok.stack⟩
    · cases hkeeps with
      | scanning hnode hholds => exact absurd hholds (by simp [hwork, Work.holds])
      | asking hcallers hnode hholds hup htop hquick =>
        refine .asking hcallers hnode hholds hup htop (.handling ?_)
        rw [hwork] at hquick
        cases hquick with
        | enter htype =>
          have honeWay : msg.IsOneWay := by simp [Message.IsOneWay, htype]
          exact (Prog.isLocal_onMessage honeWay).2

theorem inv_handling {m m' : Machine} (h : Inv listener top m) {t : Nat} {th : Thread}
    (ht : m.threads t = some th) {prog : Prog} (hwork : th.work = .handling prog)
    (hstep : m.runThread t th = some m') : Inv listener top m' := by
  have hok := h.threads t th ht
  have hnot : th.work.holds = false := by
    rw [hwork]
    rfl
  have hlocal : ∀ i, Keeps top i th → prog.Every Prog.IsLocal ∧ ∃ frame, th.callers = [frame] := by
    intro i hkeeps
    cases hkeeps with
    | scanning hnode hholds => exact absurd hholds (by simp [hnot])
    | asking hcallers hnode hholds hup htop hquick =>
      rw [hwork] at hquick
      cases hquick with
      | handling hprog => exact ⟨hprog, _, hcallers⟩
  rw [Machine.runThread, hwork] at hstep
  dsimp only at hstep
  cases hperf : prog.perform th.node (m.cluster.node th.node) with
  | finished r =>
    rw [hperf] at hstep
    obtain rfl := Option.some.inj hstep
    cases hcallers : th.callers with
    | nil =>
      refine h.goesOn ht none rfl rfl rfl (fun _ => rfl) rfl (by simp) fun i hkeeps => ?_
      obtain ⟨-, frame, hframe⟩ := hlocal i hkeeps
      exact absurd (hcallers.symm.trans hframe) (by simp)
    | cons frame rest =>
      refine h.goesOn ht (some _) rfl rfl rfl (fun _ => rfl) rfl (fun x hx => ?_)
        fun i hkeeps => ⟨_, rfl, hkeeps.resume hnot hcallers (some r)⟩
      rw [← Option.some.inj hx]
      exact threadOk_resume (hcallers ▸ hok.stack) (some r)
  | continues n rest sent =>
    rw [hperf] at hstep
    obtain rfl := Option.some.inj hstep
    refine h.goesOn ht (some { th with work := .handling rest }) rfl rfl rfl
      (allNodes_setNode (allNodes_perform hperf)) rfl (fun x hx => ?_) fun i hkeeps => ⟨_, rfl, ?_⟩
    · rw [← Option.some.inj hx]
      exact ⟨trivial, fun hpass => absurd hpass Bool.false_ne_true, hok.stack⟩
    · have hprog := (hlocal i hkeeps).1
      cases hkeeps with
      | scanning hnode hholds => exact absurd hholds (by simp [hnot])
      | asking hcallers hnode hholds hup htop hquick =>
        exact .asking hcallers hnode hholds hup htop (.handling (hprog.continues hperf))
  | calls host port msg next =>
    rw [hperf] at hstep
    obtain rfl := Option.some.inj hstep
    have hnone : ∀ i, ¬ Keeps top i th := by
      intro i hkeeps
      exact absurd ((hlocal i hkeeps).1.calls hperf).1 id
    have hstack : StackOk listener (.handler th.node next :: th.callers) :=
      ⟨trivial, fun hholds => absurd hholds (by simp [Frame.holds]), hok.stack⟩
    unfold Machine.call
    split
    · refine h.goesOn ht (some _) rfl rfl rfl (fun _ => rfl) rfl (fun x hx => ?_)
        fun i hkeeps => absurd hkeeps (hnone i)
      rw [← Option.some.inj hx]
      exact threadOk_resume hstack none
    · refine h.goesOn ht (some _) rfl rfl rfl (fun _ => rfl) rfl (fun x hx => ?_)
        fun i hkeeps => absurd hkeeps (hnone i)
      rw [← Option.some.inj hx]
      exact ⟨trivial, fun hpass => absurd hpass Bool.false_ne_true, hstack⟩

theorem taskOk_perform {m : Machine} (h : Inv listener top m) {me : Int} {task task' : Task}
    (hok : TaskOk listener me task)
    (hnext : (task.perform me (m.cluster.node me).election).task = some task') :
    TaskOk listener me task' := by
  cases Net.continues_of_perform hnext with
  | collect =>
    intro n hn
    obtain ⟨hmem, hhigher⟩ := List.mem_filter.mp hn
    simp only [Bool.and_eq_true, decide_eq_true_eq] at hhigher
    exact h.wired me n hmem hhigher.1
  | exchange => exact fun n hn => hok n (List.mem_cons_of_mem _ hn)
  | storeAck => exact hok
  | _ => trivial

theorem isPass_electing (task task' : Task) (pass : Option Pass) :
    (Work.electing task pass).isPass = (Work.electing task' pass).isPass := by
  cases pass <;> rfl

theorem inv_access {m : Machine} (h : Inv listener top m) {t : Nat} {th : Thread}
    (ht : m.threads t = some th) {task : Task} {pass : Option Pass}
    (hwork : th.work = .electing task pass) : Inv listener top (m.access t th task pass) := by
  have hok := h.threads t th ht
  have htask : TaskOk listener th.node task := by
    have := hok.work
    rwa [hwork] at this
  let n := m.cluster.node th.node
  let effect := task.perform th.node n.election
  let after := (Machine.afterTask pass effect.task).map fun work => { th with work := work }
  let c := (m.cluster.setNode th.node { n with election := effect.node }).send
    (Machine.announcements th.node n.election task)
  have hmoved : Inv listener top { m.setThread t after with cluster := c } := by
    have hall : ∀ i, (c.node i).election.allNodes = (m.cluster.node i).election.allNodes :=
      allNodes_setNode (Net.allNodes_perform ..)
    refine h.goesOn ht after rfl rfl rfl hall rfl (fun x hx => ?_) fun i hkeeps => ?_
    · obtain ⟨work, hafter, rfl⟩ := Option.map_eq_some_iff.mp hx
      cases htask' : effect.task with
      | some task' =>
        rw [htask', Machine.afterTask, Option.some.injEq] at hafter
        subst hafter
        refine ⟨taskOk_perform h htask htask', fun hpass => hok.pass ?_, hok.stack⟩
        rw [hwork, isPass_electing task task']
        exact hpass
      | none =>
        rw [htask', Machine.afterTask] at hafter
        obtain ⟨p, rfl, rfl⟩ := Option.map_eq_some_iff.mp hafter
        refine ⟨trivial, fun _ => hok.pass ?_, hok.stack⟩
        rw [hwork]
        rfl
    · cases hkeeps with
      | asking hcallers hnode hholds hup htop hquick =>
        rw [hwork] at hquick
        cases hquick
      | scanning hnode hholds =>
        rw [hwork] at hholds
        cases pass with
        | none => exact absurd hholds Bool.false_ne_true
        | some p =>
          cases htask' : effect.task with
          | some task' =>
            exact ⟨{ th with work := .electing task' (some p) },
              by simp only [after, htask', Machine.afterTask, Option.map_some],
              .scanning hnode rfl⟩
          | none =>
            exact ⟨{ th with work := .scanning p },
              by simp only [after, htask', Machine.afterTask, Option.map_some],
              .scanning hnode rfl⟩
  unfold Machine.access
  dsimp only
  split
  · exact hmoved
  · rename_i task' hspawned
    obtain ⟨term, -, rfl⟩ := Net.spawned_perform hspawned
    exact hmoved.spawn rfl rfl rfl rfl rfl ⟨trivial, fun _ => rfl, trivial⟩

theorem inv_exchange {m : Machine} (htop : ∀ host port j, listener host port = some j → j ≤ top)
    (h : Inv listener top m) {t : Nat} {th : Thread} (ht : m.threads t = some th) {term : Int}
    {acked : Bool} {n : NodeInfo} {rest : List NodeInfo} {pass : Option Pass}
    (hwork : th.work = .electing (.exchange term acked (n :: rest)) pass) :
    Inv listener top (m.call t th.callers n.host n.port (electionMsg th.node term)
      (.round th.node term acked rest pass)) := by
  have hok := h.threads t th ht
  have hhigher : ∀ r ∈ n :: rest, Upward listener th.node r := by
    have := hok.work
    rwa [hwork] at this
  have hlast : (Frame.round th.node term acked rest pass).holds = true → th.callers = [] := by
    intro hholds
    refine hok.pass ?_
    rw [hwork]
    cases pass with
    | none => exact absurd hholds Bool.false_ne_true
    | some p => rfl
  have hstack : StackOk listener (.round th.node term acked rest pass :: th.callers) :=
    ⟨fun r hr => hhigher r (List.mem_cons_of_mem n hr), hlast, hok.stack⟩
  -- Only the pass that asks can hold a lock, and that is the lock of its own node.
  have hself : ∀ i, Keeps top i th →
      th.node = i ∧ (Frame.round th.node term acked rest pass).holds = true := by
    intro i hkeeps
    cases hkeeps with
    | asking hcallers hnode hholds hup htop' hquick =>
      rw [hwork] at hquick
      cases hquick
    | scanning hnode hholds =>
      rw [hwork] at hholds
      cases pass with
      | none => exact absurd hholds Bool.false_ne_true
      | some p => exact ⟨hnode, rfl⟩
  unfold Machine.call
  cases hl : m.cluster.listener n.host n.port with
  | none =>
    refine h.goesOn ht (some _) rfl rfl rfl (fun _ => rfl) rfl (fun x hx => ?_)
      fun i hkeeps => ⟨_, rfl, .scanning (hself i hkeeps).1 (holds_resume (hself i hkeeps).2 none)⟩
    rw [← Option.some.inj hx]
    exact threadOk_resume hstack none
  | some j =>
    rw [h.network] at hl
    refine h.goesOn ht (some _) rfl rfl rfl (fun _ => rfl) rfl (fun x hx => ?_)
      fun i hkeeps => ⟨_, rfl, ?_⟩
    · rw [← Option.some.inj hx]
      exact ⟨trivial, fun hpass => absurd hpass Bool.false_ne_true, hstack⟩
    · obtain ⟨rfl, hholds⟩ := hself i hkeeps
      refine .asking (congrArg _ (hlast hholds)) rfl hholds ?_ (htop _ _ j hl) (.enter rfl)
      exact hhigher n List.mem_cons_self j hl

theorem inv_locking {m m' : Machine} (h : Inv listener top m) {t : Nat} {th : Thread}
    (ht : m.threads t = some th) {now : Int} (hwork : th.work = .locking now)
    (hstep : m.runThread t th = some m') : Inv listener top m' := by
  rw [Machine.runThread, hwork] at hstep
  dsimp only at hstep
  split at hstep
  · exact absurd hstep (by simp)
  · obtain rfl := Option.some.inj hstep
    have hok := h.threads t th ht
    refine h.moves ht (some _) rfl rfl rfl (fun _ => rfl) (fun x hx => ?_) fun i u hu => ?_
    · rw [← Option.some.inj hx]
      refine ⟨trivial, fun _ => hok.pass ?_, hok.stack⟩
      rw [hwork]
      rfl
    · have hu' : Function.update m.holder th.node (some t) i = some u := hu
      by_cases hi : i = th.node
      · rw [hi, Function.update_self, Option.some.injEq] at hu'
        exact Or.inl ⟨hu'.symm, _, rfl, .scanning hi.symm rfl⟩
      · rw [Function.update_of_ne hi] at hu'
        refine Or.inr ⟨?_, hu'⟩
        rintro rfl
        obtain ⟨x, hx, hkeeps⟩ := h.held i u hu'
        obtain rfl := Option.some.inj (ht.symm.trans hx)
        cases hkeeps with
        | scanning hnode hholds => exact hi hnode.symm
        | asking hcallers hnode hholds hup htop hquick =>
          rw [hwork] at hquick
          cases hquick

theorem inv_scanning {m m' : Machine} (h : Inv listener top m) {t : Nat} {th : Thread}
    (ht : m.threads t = some th) {pass : Pass} (hwork : th.work = .scanning pass)
    (hstep : m.runThread t th = some m') : Inv listener top m' := by
  have hok := h.threads t th ht
  have hcallers : th.callers = [] := by
    refine hok.pass ?_
    rw [hwork]
    rfl
  have hself : ∀ i, Keeps top i th → th.node = i := by
    intro i hkeeps
    cases hkeeps with
    | scanning hnode hholds => exact hnode
    | asking hframe hnode hholds hup htop hquick =>
      exact absurd (hcallers.symm.trans hframe) (by simp)
  obtain ⟨now, entries⟩ := pass
  rw [Machine.runThread, hwork] at hstep
  cases entries with
  | nil =>
    obtain rfl := Option.some.inj hstep
    refine h.moves ht none rfl rfl rfl (fun _ => rfl) (by simp) fun i u hu => ?_
    have hu' : Function.update m.holder th.node none i = some u := hu
    by_cases hi : i = th.node
    · rw [hi, Function.update_self] at hu'
      exact absurd hu' (by simp)
    · rw [Function.update_of_ne hi] at hu'
      refine Or.inr ⟨?_, hu'⟩
      rintro rfl
      obtain ⟨x, hx, hkeeps⟩ := h.held i u hu'
      obtain rfl := Option.some.inj (ht.symm.trans hx)
      exact hi (hself i hkeeps).symm
  | cons e rest =>
    obtain rfl := Option.some.inj hstep
    unfold Machine.scan
    dsimp only
    split
    · refine h.goesOn ht (some _) rfl rfl rfl (allNodes_setNode rfl) rfl (fun x hx => ?_)
        fun i hkeeps => ⟨_, rfl, .scanning (hself i hkeeps) rfl⟩
      rw [← Option.some.inj hx]
      exact ⟨trivial, fun _ => hcallers, hok.stack⟩
    · refine h.goesOn ht (some _) rfl rfl rfl (allNodes_setNode rfl) rfl (fun x hx => ?_)
        fun i hkeeps => ⟨_, rfl, .scanning (hself i hkeeps) rfl⟩
      rw [← Option.some.inj hx]
      exact ⟨trivial, fun _ => hcallers, hok.stack⟩

theorem inv_run {m m' : Machine} (htop : ∀ host port j, listener host port = some j → j ≤ top)
    (h : Inv listener top m) {t : Nat} {th : Thread} (ht : m.threads t = some th)
    (hstep : m.runThread t th = some m') : Inv listener top m' := by
  cases hwork : th.work with
  | enter msg => exact inv_enter h ht hwork hstep
  | handling prog => exact inv_handling h ht hwork hstep
  | locking now => exact inv_locking h ht hwork hstep
  | scanning pass => exact inv_scanning h ht hwork hstep
  | electing task pass =>
    rw [Machine.runThread, hwork] at hstep
    cases task with
    | exchange term acked higher =>
      cases higher with
      | nil =>
        obtain rfl := Option.some.inj hstep
        exact inv_access h ht hwork
      | cons n rest =>
        obtain rfl := Option.some.inj hstep
        exact inv_exchange htop h ht hwork
    | _ =>
      obtain rfl := Option.some.inj hstep
      exact inv_access h ht hwork

/-! ## Runs -/

theorem stackOk_drop {l : List Frame} (h : StackOk listener l) (depth : Nat) :
    StackOk listener (l.drop depth) := by
  induction depth generalizing l with
  | zero => exact h
  | succ depth ih =>
    cases l with
    | nil => exact h
    | cons frame rest => exact ih h.2.2

theorem stackOk_take {l : List Frame} (h : StackOk listener l) (depth : Nat) :
    StackOk listener (l.take depth) := by
  induction depth generalizing l with
  | zero => trivial
  | succ depth ih =>
    cases l with
    | nil => trivial
    | cons frame rest =>
      refine ⟨h.1, fun hholds => ?_, ih h.2.2⟩
      rw [h.2.1 hholds, List.take_nil]

/-- The work under the given depth goes on without a reply, and what it waited for
goes on without it. -/
theorem inv_giveUp {m m' : Machine} (h : Inv listener top m) {t depth : Nat}
    (hstep : m.step (.giveUp t depth) = some m') : Inv listener top m' := by
  obtain ⟨th, ht, hsplit⟩ := Option.bind_eq_some_iff.mp hstep
  have hok := h.threads t th ht
  have hstack := stackOk_drop hok.stack depth
  cases hdrop : th.callers.drop depth with
  | nil => simp [hdrop] at hsplit
  | cons frame rest =>
    rw [hdrop] at hsplit hstack
    obtain rfl := Option.some.inj hsplit
    have hnonempty : th.callers ≠ [] := by
      intro hnil
      rw [hnil, List.drop_nil] at hdrop
      exact absurd hdrop (by simp)
    have hgoes : Inv listener top (m.setThread t (some
        { node := frame.node, work := frame.resume none, callers := rest })) := by
      refine h.goesOn ht (some _) rfl rfl rfl (fun _ => rfl) rfl (fun x hx => ?_)
        fun i hkeeps => ⟨_, rfl, ?_⟩
      · rw [← Option.some.inj hx]
        exact threadOk_resume hstack none
      · cases hkeeps with
        | scanning hnode hholds =>
          refine absurd (hok.pass ?_) hnonempty
          unfold Work.isPass
          split
          · rfl
          · exact hholds
        | asking hcallers hnode hholds hup htop hquick =>
          rw [hcallers] at hdrop
          cases depth with
          | zero =>
            obtain ⟨rfl, rfl⟩ := List.cons.inj hdrop
            exact .scanning hnode (holds_resume hholds none)
          | succ depth => simp at hdrop
    exact hgoes.spawn rfl rfl rfl rfl rfl ⟨hok.work,
      fun hpass => absurd (hok.pass hpass) hnonempty, stackOk_take hok.stack depth⟩

theorem inv_step {m m' : Machine} {a : Action}
    (htop : ∀ host port j, listener host port = some j → j ≤ top) (h : Inv listener top m)
    (hstep : m.step a = some m') : Inv listener top m' := by
  cases a with
  | run t =>
    obtain ⟨th, ht, hrun⟩ := Option.bind_eq_some_iff.mp hstep
    exact inv_run htop h ht hrun
  | giveUp t depth => exact inv_giveUp h hstep
  | invoke i msg =>
    obtain rfl := Option.some.inj hstep
    exact h.spawn rfl rfl rfl rfl rfl ⟨trivial, fun _ => rfl, trivial⟩
  | deliver packet again =>
    rw [Machine.step] at hstep
    split at hstep
    · obtain ⟨j, -, rfl⟩ := Option.map_eq_some_iff.mp hstep
      exact h.spawn rfl rfl rfl rfl rfl ⟨trivial, fun _ => rfl, trivial⟩
    · exact absurd hstep (by simp)
  | lose packet =>
    obtain rfl := Option.some.inj hstep
    exact h.environment rfl fun _ => rfl
  | monitor i now | elect i | sync i peer =>
    obtain rfl := Option.some.inj hstep
    exact h.spawn rfl rfl rfl rfl rfl ⟨trivial, fun _ => rfl, trivial⟩
  | tick i now =>
    obtain rfl := Option.some.inj hstep
    exact h.environment rfl (allNodes_setNode rfl)

/-- Where the addresses of the higher nodes lead to higher nodes, no run of any
messages, elections, monitor passes and broken connections is ever stuck: while a
thread is left, some thread can make its next step, on the same node or on one
with a higher id. -/
theorem never_stuck {c : Cluster}
    (hwired : ∀ i, ∀ n ∈ (c.node i).election.allNodes, i < n.id → Upward c.listener i n)
    (htop : ∀ host port j, c.listener host port = some j → j ≤ top) {actions : List Action}
    {m : Machine} (hrun : Runs.exec Machine.step (Machine.idle c) actions = some m) {t : Nat}
    {th : Thread} (ht : m.threads t = some th) :
    ∃ u th' m', m.threads u = some th' ∧ th.node ≤ th'.node ∧ m.step (.run u) = some m' := by
  have hidle : Inv c.listener top (Machine.idle c) :=
    ⟨rfl, hwired, fun _ _ => rfl, by simp [Machine.idle], by simp [Machine.idle]⟩
  have hall : ∀ a ∈ actions, (fun _ : Action => True) a := fun _ _ => trivial
  have hinv : Inv c.listener top m :=
    Runs.exec_invariant (fun _ _ _ _ h hstep => inv_step htop h hstep) hidle hall hrun
  obtain ⟨u, th', hu, hle, hsome⟩ := exists_run hinv ht
  obtain ⟨m', hm'⟩ := Option.isSome_iff_exists.mp hsome
  exact ⟨u, th', m', hu, hle, by rw [Machine.step, hu, Option.bind_some, hm']⟩

def pulse : Message := { type := .heartbeat, nodeId := 2 }

/-- The launched nodes after the crash of their leader, node 3. -/
def bereaved : Cluster :=
  let c := Cluster.launchCluster [3] fun _ => []
  { c with node := fun i =>
      { c.node i with election :=
        { (c.node i).election with running := true, currentLeaderId := 3 } } }

theorem upward_bereaved (i : Int) :
    ∀ n ∈ (bereaved.node i).election.allNodes, i < n.id → Upward bereaved.listener i n := by
  have hall : (bereaved.node i).election.allNodes =
      (i :: [1, 2, 3].filter (· ≠ i)).map launchNode := rfl
  intro n hn hlt j hj
  rw [hall] at hn
  obtain ⟨k, -, rfl⟩ := List.mem_map.mp hn
  simp only [bereaved, Cluster.launchCluster, launchNode] at hj hlt
  split at hj
  · have := Option.some.inj hj
    omega
  · exact absurd hj (by simp)

/-- Node 1 hears from node 2 and then loses its leader: its election asks node 2, and
the next heartbeat waits for the lock that this election holds.  The round goes on
at node 2. -/
theorem never_stuck_round :
    ∃ m th, Runs.exec Machine.step (Machine.idle bereaved)
        ([.tick 1 6000, .invoke 1 pulse, .run 0, .run 0, .monitor 1 7000] ++
          List.replicate 9 (.run 1) ++ [.invoke 1 pulse]) = some m ∧
      m.holder 1 = some 1 ∧ m.step (.run 2) = none ∧
      m.threads 1 = some th ∧ th.node = 2 ∧ th.callers.map Frame.node = [1] ∧
      ∃ u th' m', m.threads u = some th' ∧ th.node ≤ th'.node ∧ m.step (.run u) = some m' := by
  have htop : ∀ host port j, bereaved.listener host port = some j → j ≤ 3 := by
    intro host port j hj
    simp only [bereaved, Cluster.launchCluster] at hj
    split at hj
    · rename_i hlisten
      have hmem := hlisten.2.1
      simp only [List.mem_cons, List.not_mem_nil, or_false] at hmem
      have := Option.some.inj hj
      omega
    · exact absurd hj (by simp)
  obtain ⟨m, hrun, hholder, hwaits, hasking⟩ :
      ∃ m, Runs.exec Machine.step (Machine.idle bereaved)
          ([.tick 1 6000, .invoke 1 pulse, .run 0, .run 0, .monitor 1 7000] ++
            List.replicate 9 (.run 1) ++ [.invoke 1 pulse]) = some m ∧
        m.holder 1 = some 1 ∧ m.step (.run 2) = none ∧
        (m.threads 1).map (fun th => (th.node, th.callers.map Frame.node)) = some (2, [1]) :=
    ⟨_, rfl, rfl, rfl, rfl⟩
  obtain ⟨th, ht, hat⟩ := Option.map_eq_some_iff.mp hasking
  obtain ⟨hnode, hcallers⟩ := Prod.mk.inj hat
  exact ⟨m, th, hrun, hholder, hwaits, ht, hnode, hcallers,
    never_stuck upward_bereaved htop hrun ht⟩

/-- With its own address among those of its peers, a node asks itself for a reply
that it keeps itself from giving. -/
def misnamed : Cluster :=
  let n := Node.start { id := 1, host := [], port := 1 } [{ id := 2, host := [], port := 1 }] [] 0
  { node := fun _ =>
      { n with election := { n.election with running := true, currentLeaderId := 2 } }
    listener := fun _ _ => some 1
    inFlight := [] }

example :
    ∃ m, Runs.exec Machine.step (Machine.idle misnamed)
        (.monitor 1 7000 :: List.replicate 8 (.run 0)) = some m ∧
      (m.threads 0).isSome = true ∧ ∀ u, m.step (.run u) = none := by
  refine ⟨_, rfl, rfl, fun u => ?_⟩
  cases u with
  | zero => rfl
  | succ u => rfl

end Locks
end DistributedDb
