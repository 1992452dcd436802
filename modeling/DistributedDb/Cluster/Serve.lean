import DistributedDb.HashRing.Lookup
import DistributedDb.Node.Coordinator

/-
Serving one request to its end.

`serve budget c j msg` runs the handler of `msg` on node `j` of the cluster `c`.
A `send_message` of the handler runs the handler of the node that listens at
the address, with one less in the budget, and returns its reply; it returns
nothing when nobody listens there.  The budget bounds the depth of the forwards
and `none` means that it ran out, so a request reaches a reply after finitely
many forwards exactly when some budget gives one.

What the nodes believe about each other stays as it is while a request is
served: the `mark_alive` on a received message and the heartbeat loop are steps
of the machine, not of the handler.
-/

namespace DistributedDb

structure Cluster where
  /-- The process of each node id. -/
  node : Int → Node
  /-- The node that accepts a connection at an address; a crashed node accepts
  none. -/
  listener : Bytes → Int → Option Int
  /-- Messages sent by detached threads and not delivered yet. -/
  inFlight : List Packet

namespace Cluster

def setNode (c : Cluster) (i : Int) (n : Node) : Cluster :=
  { c with node := Function.update c.node i n }

def send (c : Cluster) (sent : List Packet) : Cluster := { c with inFlight := c.inFlight ++ sent }

@[simp] theorem setNode_node_self (c : Cluster) (i : Int) (n : Node) :
    (c.setNode i n).node i = n := Function.update_self ..

theorem setNode_node_of_ne (c : Cluster) {i j : Int} (n : Node) (h : j ≠ i) :
    (c.setNode i n).node j = c.node j := Function.update_of_ne h ..

@[simp] theorem setNode_listener (c : Cluster) (i : Int) (n : Node) :
    (c.setNode i n).listener = c.listener := rfl

@[simp] theorem send_node (c : Cluster) (sent : List Packet) : (c.send sent).node = c.node := rfl

@[simp] theorem send_listener (c : Cluster) (sent : List Packet) :
    (c.send sent).listener = c.listener := rfl

@[simp] theorem setNode_self (c : Cluster) (i : Int) : c.setNode i (c.node i) = c := by
  simp [setNode]

@[simp] theorem send_nil (c : Cluster) : c.send [] = c := by
  simp [send]

/-- Run a handler on node `me`, with `callee` answering the requests it sends. -/
def runWith (callee : Cluster → Int → Message → Option (Cluster × Message)) (me : Int) :
    Prog → Cluster → Option (Cluster × Message)
  | .done reply, c => some (c, reply)
  | .markAlive nodeId next, c =>
    runWith callee me next (c.setNode me ((c.node me).markAlive nodeId))
  | .getPrimary key next, c => runWith callee me (next ((c.node me).ring.getPrimary key)) c
  | .getReplicas key rf next, c =>
    runWith callee me (next ((c.node me).ring.getReplicas key rf)) c
  | .storagePut key value next, c =>
    let n := c.node me
    runWith callee me next (c.setNode me { n with storage := n.storage.put key value n.clock })
  | .storageGet key next, c => runWith callee me (next ((c.node me).storage.get key)) c
  | .storageDel key next, c =>
    let n := c.node me
    let p := n.storage.del key n.clock
    runWith callee me (next p.1) (c.setNode me { n with storage := p.2 })
  | .storagePairs next, c => runWith callee me (next (c.node me).storage.getAllPairs) c
  | .storagePutBatch pairs next, c =>
    let n := c.node me
    runWith callee me next
      (c.setNode me { n with storage := n.storage.putBatch pairs fun _ => n.clock })
  | .election msg next, c =>
    let p := (c.node me).handleElection me msg
    runWith callee me (next p.2) (c.setNode me p.1)
  | .nowMs next, c => runWith callee me (next (c.node me).clock) c
  | .sendMessage host port msg next, c =>
    match c.listener host port with
    | none => runWith callee me (next none) c
    | some j =>
      match callee c j msg with
      | none => none
      | some p => runWith callee me (next (some p.2)) p.1
  | .sendAndForget packet next, c => runWith callee me next (c.send [packet])

/-- The evaluator follows `Prog.perform` call by call. -/
theorem runWith_eq_perform (callee : Cluster → Int → Message → Option (Cluster × Message))
    (me : Int) (p : Prog) (c : Cluster) :
    runWith callee me p c =
      match p.perform me (c.node me) with
      | .finished reply => some (c, reply)
      | .continues n rest sent => runWith callee me rest ((c.setNode me n).send sent)
      | .calls host port msg next =>
        match c.listener host port with
        | none => runWith callee me (next none) c
        | some j =>
          match callee c j msg with
          | none => none
          | some q => runWith callee me (next (some q.2)) q.1 := by
  cases p <;> simp [runWith, Prog.perform]

def serve : Nat → Cluster → Int → Message → Option (Cluster × Message)
  | 0, _, _, _ => none
  | budget + 1, c, j, msg => runWith (serve budget) j (Coordinator.handle j msg) c

/-- The request gets a reply after finitely many forwards. -/
def Replies (c : Cluster) (j : Int) (msg : Message) : Prop :=
  ∃ budget c' reply, serve budget c j msg = some (c', reply)

/-! ## A larger budget changes nothing -/

theorem runWith_mono {f g : Cluster → Int → Message → Option (Cluster × Message)}
    (hfg : ∀ c j msg r, f c j msg = some r → g c j msg = some r) (me : Int) (p : Prog) :
    ∀ (c : Cluster) (r : Cluster × Message),
      runWith f me p c = some r → runWith g me p c = some r := by
  induction p with
  | done reply => exact fun c r h => h
  | markAlive nodeId next ih => exact fun c r h => ih _ r h
  | getPrimary key next ih => exact fun c r h => ih _ _ r h
  | getReplicas key rf next ih => exact fun c r h => ih _ _ r h
  | storagePut key value next ih => exact fun c r h => ih _ r h
  | storageGet key next ih => exact fun c r h => ih _ _ r h
  | storageDel key next ih => exact fun c r h => ih _ _ r h
  | storagePairs next ih => exact fun c r h => ih _ _ r h
  | storagePutBatch pairs next ih => exact fun c r h => ih _ r h
  | election msg next ih => exact fun c r h => ih _ _ r h
  | nowMs next ih => exact fun c r h => ih _ _ r h
  | sendAndForget packet next ih => exact fun c r h => ih _ r h
  | sendMessage host port msg next ih =>
    intro c r h
    unfold runWith at h ⊢
    cases hl : c.listener host port with
    | none =>
      simp only [hl] at h ⊢
      exact ih none c r h
    | some j =>
      simp only [hl] at h ⊢
      cases hf : f c j msg with
      | none => simp [hf] at h
      | some q =>
        simp only [hf] at h
        simp only [hfg c j msg q hf]
        exact ih (some q.2) q.1 r h

theorem serve_succ {budget : Nat} {c : Cluster} {j : Int} {msg : Message} {r : Cluster × Message}
    (h : serve budget c j msg = some r) : serve (budget + 1) c j msg = some r := by
  induction budget generalizing c j msg r with
  | zero => exact absurd h (by simp [serve])
  | succ budget ih =>
    exact runWith_mono (fun c j msg r => ih) j _ c r h

theorem serve_mono {a b : Nat} (hab : a ≤ b) {c : Cluster} {j : Int} {msg : Message}
    {r : Cluster × Message} (h : serve a c j msg = some r) : serve b c j msg = some r := by
  induction hab with
  | refl => exact h
  | step _ ih => exact serve_succ ih

end Cluster
end DistributedDb
