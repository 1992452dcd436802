import DistributedDb.Cluster.Serve

/-
Client requests, one handler at a time.

The three requests differ in what the primary executes and share the routing
around it.  Each part of a handler gets one equation for `runWith`, so that the
proofs about whole requests never open a `Prog`.
-/

namespace DistributedDb

/-- The three requests of a client. -/
def Message.IsRequest (msg : Message) : Prop :=
  msg.type = .put ∨ msg.type = .get ∨ msg.type = .del

instance (msg : Message) : Decidable msg.IsRequest :=
  inferInstanceAs (Decidable (msg.type = .put ∨ msg.type = .get ∨ msg.type = .del))

namespace Coordinator

/-- What the primary executes. -/
def execute (myId : Int) (msg : Message) : Prog :=
  match msg.type with
  | .put => executePut myId msg
  | .get => executeGet myId msg
  | _ => executeDelete myId msg

theorem handle_of_isRequest {myId : Int} {msg : Message} (h : msg.IsRequest) :
    handle myId msg = route myId msg (execute myId msg) := by
  rcases h with h | h | h <;> simp [handle, execute, h, handlePut, handleGet, handleDelete]

end Coordinator

/-- The packets that `replicate` sends: one to every replica but the sender. -/
def Replication.packets (myId : Int) (repl : Message) (replicas : List NodeInfo) : List Packet :=
  (replicas.filter fun r => decide (r.id ≠ myId)).map fun r =>
    { host := r.host, port := r.port, msg := repl }

namespace Cluster

open Coordinator

variable (callee : Cluster → Int → Message → Option (Cluster × Message)) (me : Int) (c : Cluster)

theorem send_send (a b : List Packet) : (c.send a).send b = c.send (a ++ b) := by
  simp [send]

theorem runWith_sendAll (repl : Message) (next : Prog) (replicas : List NodeInfo) :
    runWith callee me (Replication.sendAll me repl next replicas) c =
      runWith callee me next (c.send (Replication.packets me repl replicas)) := by
  induction replicas generalizing c with
  | nil => simp [Replication.sendAll, Replication.packets]
  | cons r rest ih =>
    by_cases hr : r.id = me
    · rw [Replication.sendAll, if_pos hr, ih]
      simp [Replication.packets, hr]
    · rw [Replication.sendAll, if_neg hr, runWith, ih, send_send]
      simp [Replication.packets, hr]

theorem runWith_executePut (msg : Message) :
    runWith callee me (executePut me msg) c =
      let n := c.node me
      some ((c.setNode me { n with storage := n.storage.put msg.key msg.value n.clock }).send
          (Replication.packets me (Replication.replicateMsg me msg.key msg.value .put n.clock)
            (n.ring.getReplicas msg.key replicationFactor)),
        makeAck me true []) := by
  simp only [executePut, runWith, Replication.replicate, runWith_sendAll, setNode_node_self]

theorem runWith_executeGet (msg : Message) :
    runWith callee me (executeGet me msg) c =
      some (c, match (c.node me).storage.get msg.key with
        | none => makeError me (ascii "Key not found: " ++ msg.key)
        | some v => makeAck me true v) := by
  simp only [executeGet, runWith]
  cases (c.node me).storage.get msg.key <;> rfl

theorem runWith_executeDelete_of_none (msg : Message)
    (h : (c.node me).storage.get msg.key = none) :
    runWith callee me (executeDelete me msg) c =
      some (c, makeError me (ascii "Key not found: " ++ msg.key)) := by
  have hdel : (c.node me).storage.del msg.key (c.node me).clock = (false, (c.node me).storage) := by
    rw [StorageEngine.del, show (c.node me).storage.store.lookup msg.key = none from h]
  simp only [executeDelete, runWith, hdel, Bool.false_eq_true, if_false]
  rw [show ({ c.node me with storage := (c.node me).storage } : Node) = c.node me from rfl,
    setNode_self]

theorem runWith_executeDelete_of_some (msg : Message) {v : Bytes}
    (h : (c.node me).storage.get msg.key = some v) :
    runWith callee me (executeDelete me msg) c =
      let n := c.node me
      some ((c.setNode me { n with storage := (n.storage.del msg.key n.clock).2 }).send
          (Replication.packets me (Replication.replicateMsg me msg.key [] .del n.clock)
            (n.ring.getReplicas msg.key replicationFactor)),
        makeAck me true []) := by
  have hdel : ((c.node me).storage.del msg.key (c.node me).clock).1 = true := by
    rw [StorageEngine.del, show (c.node me).storage.store.lookup msg.key = some v from h]
  simp only [executeDelete, runWith, hdel, if_true, Replication.replicate, runWith_sendAll,
    setNode_node_self]

theorem runWith_route_of_none {msg : Message} (execute : Prog)
    (h : (c.node me).ring.getPrimary msg.key = none) :
    runWith callee me (route me msg execute) c =
      some (c, makeError me (ascii "No available node for key: " ++ msg.key)) := by
  simp [route, runWith, h]

theorem runWith_route_of_self {msg : Message} (execute : Prog) {p : NodeInfo}
    (h : (c.node me).ring.getPrimary msg.key = some p) (hp : p.id = me) :
    runWith callee me (route me msg execute) c = runWith callee me execute c := by
  simp [route, runWith, h, hp]

/-- The reply of a reachable primary is passed on. -/
theorem runWith_route_of_up {msg : Message} (execute : Prog) {p : NodeInfo} {j : Int}
    (h : (c.node me).ring.getPrimary msg.key = some p) (hp : p.id ≠ me)
    (hup : c.listener p.host p.port = some j) :
    runWith callee me (route me msg execute) c = callee c j msg := by
  simp only [route, runWith, h, hp, if_false, forwardTo, hup]
  cases callee c j msg <;> rfl

/-- An unreachable primary is replaced by the replica loop. -/
theorem runWith_route_of_down {msg : Message} (execute : Prog) {p : NodeInfo}
    (h : (c.node me).ring.getPrimary msg.key = some p) (hp : p.id ≠ me)
    (hdown : c.listener p.host p.port = none) :
    runWith callee me (route me msg execute) c =
      runWith callee me
        (tryReplicas me p.id msg ((c.node me).ring.getReplicas msg.key replicationFactor)) c := by
  simp only [route, runWith, h, hp, if_false, forwardTo, hdown]

end Cluster
end DistributedDb
