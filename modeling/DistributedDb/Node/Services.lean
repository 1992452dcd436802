import DistributedDb.HashRing.Ring
import DistributedDb.Storage.Engine

/-
The state of one node process: its ring, its storage engine, the tables of its
failure detector and the atomics of its leader election.
-/

namespace DistributedDb

/-- `last_seen_` and `known_alive_` of the heartbeat service. -/
structure HeartbeatService where
  lastSeen : AList fun _ : Int => Int
  knownAlive : AList fun _ : Int => Bool

namespace HeartbeatService

/-- The constructor: every peer is assumed alive at start. -/
def start (peers : List NodeInfo) (now : Int) : HeartbeatService :=
  { lastSeen := peers.foldl (fun (m : AList fun _ : Int => Int) p => m.insert p.id now) ∅
    knownAlive := peers.foldl (fun (m : AList fun _ : Int => Bool) p => m.insert p.id true) ∅ }

/-- `mark_alive`, with a flag that says whether the recovery callback fires: it
does when the node was known and marked dead. -/
def markAlive (h : HeartbeatService) (nodeId now : Int) : HeartbeatService × Bool :=
  ({ lastSeen := h.lastSeen.insert nodeId now, knownAlive := h.knownAlive.insert nodeId true },
    decide (h.knownAlive.lookup nodeId = some false))

/-- What `monitor_loop` records of the nodes whose last sign of life is too old. -/
def markFailed (h : HeartbeatService) (nodeIds : List Int) : HeartbeatService :=
  { h with knownAlive :=
      nodeIds.foldl (fun (m : AList fun _ : Int => Bool) id => m.insert id false) h.knownAlive }

def timeoutMs : Int := 6000

/-- One entry of `last_seen_` in a pass of `monitor_loop`, with the ids that
`on_failure_` has been called for. -/
def check (now : Int) (p : HeartbeatService × List Int) (e : (_ : Int) × Int) :
    HeartbeatService × List Int :=
  let currentlyAlive := decide (now - e.2 < timeoutMs)
  -- The subscript operator adds an id that has no entry, as not alive.
  let ka := (p.1.knownAlive.lookup e.1).getD false
  ({ p.1 with knownAlive := p.1.knownAlive.insert e.1 (ka && currentlyAlive) },
    if ka && !currentlyAlive then p.2 ++ [e.1] else p.2)

/-- A pass of `monitor_loop` that sampled `now`, with the failures it reports. -/
def monitorPass (h : HeartbeatService) (now : Int) : HeartbeatService × List Int :=
  h.lastSeen.entries.foldl (check now) (h, [])

end HeartbeatService

/-- The atomics and the liveness table of the bully election. -/
structure LeaderElection where
  allNodes : List NodeInfo
  currentLeaderId : Int := -1
  electionInProgress : Bool := false
  electionTerm : Int := 0
  gotHigherAck : Bool := false
  running : Bool := false
  nodeAlive : AList fun _ : Int => Bool

namespace LeaderElection

def start (allNodes : List NodeInfo) : LeaderElection :=
  { allNodes := allNodes
    nodeAlive := allNodes.foldl (fun (m : AList fun _ : Int => Bool) n => m.insert n.id true) ∅ }

def ack (myId : Int) : Message := { type := .ack, nodeId := myId, success := true }

/-- The test of a `LEADER` announcement: a higher id or a newer term. -/
def accepts (e : LeaderElection) (msg : Message) : Bool :=
  decide (e.currentLeaderId < msg.nodeId) || decide (e.electionTerm < msg.term)

/-- What accepting an announcement stores. -/
def accept (e : LeaderElection) (msg : Message) : LeaderElection :=
  { e with
    currentLeaderId := msg.nodeId
    electionTerm := msg.term
    electionInProgress := false
    nodeAlive := e.nodeAlive.insert msg.nodeId true }

/-- `handle_message` without interruption.  The last component says whether a
detached `trigger_election` was started. -/
def handleMessage (myId : Int) (e : LeaderElection) (msg : Message) :
    LeaderElection × Option Message × Bool :=
  match msg.type with
  | .election =>
    let e' := { e with nodeAlive := e.nodeAlive.insert msg.nodeId true }
    if msg.nodeId < myId then (e', some (ack myId), true) else (e', none, false)
  | .leader => (if e.accepts msg then e.accept msg else e, some (ack myId), false)
  | .heartbeat => ({ e with nodeAlive := e.nodeAlive.insert msg.nodeId true }, none, false)
  | _ => (e, none, false)

end LeaderElection

structure Node where
  ring : HashRing
  storage : StorageEngine
  heartbeat : HeartbeatService
  election : LeaderElection
  /-- Detached `trigger_election` threads that are waiting to run. -/
  triggers : Nat
  /-- The reading of `now_ms()`. -/
  clock : Int

namespace Node

/-- `mark_alive` with the recovery callback of `main`, which is
`on_node_recovery`. -/
def markAlive (n : Node) (nodeId : Int) : Node :=
  let p := n.heartbeat.markAlive nodeId n.clock
  { n with
    heartbeat := p.1
    ring := if p.2 then n.ring.updateNodeStatus nodeId true else n.ring }

/-- The part of `on_node_failure` that touches the ring, and the round that it
starts when the leader failed. -/
def onNodeFailure (n : Node) (nodeId : Int) : Node :=
  { n with
    ring := n.ring.updateNodeStatus nodeId false
    triggers := if n.election.currentLeaderId = nodeId then n.triggers + 1 else n.triggers }

/-- A pass of the monitor thread. -/
def monitor (n : Node) (now : Int) : Node :=
  let p := n.heartbeat.monitorPass now
  p.2.foldl onNodeFailure { n with heartbeat := p.1 }

def handleElection (n : Node) (myId : Int) (msg : Message) : Node × Option Message :=
  let p := n.election.handleMessage myId msg
  ({ n with election := p.1, triggers := if p.2.2 then n.triggers + 1 else n.triggers }, p.2.1)

/-- A node as `main` starts it: itself first on the ring, then its peers, and
the storage recovered from the log. -/
def start (self : NodeInfo) (peers : List NodeInfo) (log : Bytes) (now : Int) : Node :=
  { ring := peers.foldl HashRing.addNode (HashRing.empty.addNode self)
    storage := StorageEngine.start log true
    heartbeat := HeartbeatService.start peers now
    election := LeaderElection.start (self :: peers)
    triggers := 0
    clock := now }

end Node
end DistributedDb
