import DistributedDb.Node.Services

/-
The coordinator and the replication manager.

A handler runs on its own thread and touches the shared services of its node
one call at a time, so it is written as a `Prog`: a tree whose inner nodes are
the calls it makes and whose branches are what it does with their results.  The
functions below are the handlers of the source; `Prog.perform` says what one
call does to the node.  Between two calls any other thread of the node may run,
and a `send_message` waits for the handler of another node.
-/

namespace DistributedDb

/-- A message that a detached thread sends without waiting for a reply. -/
structure Packet where
  host : Bytes
  port : Int
  msg : Message
  deriving DecidableEq, Repr

inductive Prog where
  | done (reply : Message)
  | markAlive (nodeId : Int) (next : Prog)
  | getPrimary (key : Bytes) (next : Option NodeInfo → Prog)
  | getReplicas (key : Bytes) (rf : Int) (next : List NodeInfo → Prog)
  | storagePut (key value : Bytes) (next : Prog)
  | storageGet (key : Bytes) (next : Option Bytes → Prog)
  | storageDel (key : Bytes) (next : Bool → Prog)
  | storagePairs (next : List (Bytes × Bytes) → Prog)
  | storagePutBatch (pairs : List (Bytes × Bytes)) (next : Prog)
  | election (msg : Message) (next : Option Message → Prog)
  | nowMs (next : Int → Prog)
  | sendMessage (host : Bytes) (port : Int) (msg : Message) (next : Option Message → Prog)
  | sendAndForget (packet : Packet) (next : Prog)

/-- What a program does next: it has finished, it made a call on its own node,
or it waits for the reply of another node. -/
inductive Outcome where
  | finished (reply : Message)
  | continues (n : Node) (rest : Prog) (sent : List Packet)
  | calls (host : Bytes) (port : Int) (msg : Message) (next : Option Message → Prog)

/-- One call on the node `me`.  The storage engine appends to its log inside the
same call: the log is not read back while the node runs. -/
def Prog.perform (me : Int) (n : Node) : Prog → Outcome
  | .done reply => .finished reply
  | .markAlive nodeId next => .continues (n.markAlive nodeId) next []
  | .getPrimary key next => .continues n (next (n.ring.getPrimary key)) []
  | .getReplicas key rf next => .continues n (next (n.ring.getReplicas key rf)) []
  | .storagePut key value next =>
    .continues { n with storage := n.storage.put key value n.clock } next []
  | .storageGet key next => .continues n (next (n.storage.get key)) []
  | .storageDel key next =>
    let p := n.storage.del key n.clock
    .continues { n with storage := p.2 } (next p.1) []
  | .storagePairs next => .continues n (next n.storage.getAllPairs) []
  | .storagePutBatch pairs next =>
    .continues { n with storage := n.storage.putBatch pairs fun _ => n.clock } next []
  | .election msg next =>
    let p := n.handleElection me msg
    .continues p.1 (next p.2) []
  | .nowMs next => .continues n (next n.clock) []
  | .sendMessage host port msg next => .calls host port msg next
  | .sendAndForget packet next => .continues n next [packet]

/-! ## Replication manager -/

namespace Replication

/-- The loop of `replicate` over the replicas, which skips the node itself. -/
def sendAll (myId : Int) (repl : Message) (next : Prog) : List NodeInfo → Prog
  | [] => next
  | r :: rest =>
    if r.id = myId then sendAll myId repl next rest
    else .sendAndForget { host := r.host, port := r.port, msg := repl }
      (sendAll myId repl next rest)

/-- The operation travels as a tag in the error field. -/
def replicateMsg (myId : Int) (key value : Bytes) (op : MsgType) (now : Int) : Message :=
  { type := .replicate
    key := key
    value := value
    nodeId := myId
    timestamp := now
    error := if op = .put then ascii "PUT" else ascii "DEL" }

def replicate (myId : Int) (key value : Bytes) (op : MsgType) (replicas : List NodeInfo)
    (next : Prog) : Prog :=
  .nowMs fun now => sendAll myId (replicateMsg myId key value op now) next replicas

def ack (myId : Int) : Message := { type := .ack, nodeId := myId, success := true }

/-- The time stamp of the message is not read. -/
def handleReplicate (myId : Int) (msg : Message) : Prog :=
  if msg.error = ascii "DEL" then .storageDel msg.key fun _ => .done (ack myId)
  else .storagePut msg.key msg.value (.done (ack myId))

def handleSyncRequest (myId : Int) : Prog :=
  .storagePairs fun pairs =>
    .done { type := .syncData, nodeId := myId, kvPairs := pairs, success := true }

def handleSyncData (msg : Message) (next : Prog) : Prog :=
  if msg.kvPairs = [] then next else .storagePutBatch msg.kvPairs next

/-- A failed exchange is only logged; the thread ends either way. -/
def syncFromPeer (myId : Int) (peer : NodeInfo) : Prog :=
  .sendMessage peer.host peer.port { type := .syncRequest, nodeId := myId } fun resp =>
    match resp with
    | none => .done {}
    | some reply =>
      if reply.type ≠ .syncData then .done {} else handleSyncData reply (.done {})

end Replication

/-! ## Coordinator -/

namespace Coordinator

def replicationFactor : Int := 3

def makeError (myId : Int) (err : Bytes) : Message :=
  { type := .ack, nodeId := myId, success := false, error := err }

def makeAck (myId : Int) (ok : Bool) (val : Bytes) : Message :=
  { type := .ack, nodeId := myId, success := ok, value := val }

/-- After the loop over the replicas: a read is answered from the node's own
storage when it can be. -/
def lastResort (myId : Int) (msg : Message) : Prog :=
  if msg.type = .get then
    .storageGet msg.key fun val =>
      match val with
      | some v => .done (makeAck myId true v)
      | none => .done (makeError myId (ascii "All nodes for key unavailable"))
  else .done (makeError myId (ascii "All nodes for key unavailable"))

/-- The loop of `forward_to` over the replicas once the target is unreachable. -/
def tryReplicas (myId targetId : Int) (msg : Message) : List NodeInfo → Prog
  | [] => lastResort myId msg
  | r :: rest =>
    if r.id = targetId then tryReplicas myId targetId msg rest
    else if r.id = myId then
      if msg.type = .get then
        .storageGet msg.key fun val =>
          match val with
          | some v => .done (makeAck myId true v)
          | none => tryReplicas myId targetId msg rest
      else tryReplicas myId targetId msg rest
    else
      .sendMessage r.host r.port msg fun resp =>
        match resp with
        | some reply =>
          if reply.success then .done reply else tryReplicas myId targetId msg rest
        | none => tryReplicas myId targetId msg rest

def forwardTo (myId : Int) (target : NodeInfo) (msg : Message) : Prog :=
  .sendMessage target.host target.port msg fun resp =>
    match resp with
    | some reply => .done reply
    | none => .getReplicas msg.key replicationFactor fun replicas =>
        tryReplicas myId target.id msg replicas

/-- The three request handlers look the primary up, run `execute` when it is the
node itself and forward the request otherwise. -/
def route (myId : Int) (msg : Message) (execute : Prog) : Prog :=
  .getPrimary msg.key fun primary =>
    match primary with
    | none => .done (makeError myId (ascii "No available node for key: " ++ msg.key))
    | some p => if p.id = myId then execute else forwardTo myId p msg

def executePut (myId : Int) (msg : Message) : Prog :=
  .storagePut msg.key msg.value <|
    .getReplicas msg.key replicationFactor fun replicas =>
      Replication.replicate myId msg.key msg.value .put replicas (.done (makeAck myId true []))

def executeGet (myId : Int) (msg : Message) : Prog :=
  .storageGet msg.key fun val =>
    match val with
    | none => .done (makeError myId (ascii "Key not found: " ++ msg.key))
    | some v => .done (makeAck myId true v)

def executeDelete (myId : Int) (msg : Message) : Prog :=
  .storageDel msg.key fun removed =>
    if removed then
      .getReplicas msg.key replicationFactor fun replicas =>
        Replication.replicate myId msg.key [] .del replicas (.done (makeAck myId true []))
    else .done (makeError myId (ascii "Key not found: " ++ msg.key))

def handlePut (myId : Int) (msg : Message) : Prog := route myId msg (executePut myId msg)

def handleGet (myId : Int) (msg : Message) : Prog := route myId msg (executeGet myId msg)

def handleDelete (myId : Int) (msg : Message) : Prog := route myId msg (executeDelete myId msg)

def handle (myId : Int) (msg : Message) : Prog :=
  match msg.type with
  | .put => handlePut myId msg
  | .get => handleGet myId msg
  | .del => handleDelete myId msg
  | .replicate => Replication.handleReplicate myId msg
  | .syncRequest => Replication.handleSyncRequest myId
  | .syncData => Replication.handleSyncData msg (.done (makeAck myId true []))
  | .heartbeat => .done { type := .ack, nodeId := myId, success := true }
  | .election | .leader =>
    .election msg fun resp =>
      match resp with
      | some reply => .done reply
      | none => .done (makeAck myId true [])
  | .ack | .unknown => .done (makeError myId (ascii "Unknown message type"))

/-- The handler that `main` installs in the server: the sender of any message is
alive. -/
def onMessage (myId : Int) (msg : Message) : Prog := .markAlive msg.nodeId (handle myId msg)

end Coordinator
end DistributedDb
