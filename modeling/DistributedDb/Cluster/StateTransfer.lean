import DistributedDb.Cluster.Serve
import DistributedDb.Storage.Transfer

/-
Copying the contents of one node to another.

A node asks a peer for all its pairs and loads the reply as one batch, so it ends
with the peer's bindings over its own.  The start-up thread of `main` goes
through the peers to do this once.  Its loop leaves after the first peer of the
list, whether or not that peer answered.
-/

namespace DistributedDb
namespace Cluster

open Replication

variable (callee : Cluster → Int → Message → Option (Cluster × Message))

/-- The reply of node `j` to a sync request. -/
def syncData (c : Cluster) (j : Int) : Message :=
  { type := .syncData
    nodeId := j
    kvPairs := (c.node j).storage.getAllPairs
    success := true }

theorem runWith_handleSyncRequest (c : Cluster) (j : Int) :
    runWith callee j (handleSyncRequest j) c = some (c, c.syncData j) := rfl

/-- The state after node `i` has loaded the pairs of `msg`. -/
def loadPairs (c : Cluster) (i : Int) (msg : Message) : Cluster :=
  c.setNode i { c.node i with
    storage := (c.node i).storage.putBatch msg.kvPairs fun _ => (c.node i).clock }

/-- The early return of `handle_sync_data` on an empty batch saves a call that
would change nothing. -/
theorem runWith_handleSyncData (c : Cluster) (i : Int) (msg : Message) (next : Prog) :
    runWith callee i (handleSyncData msg next) c =
      runWith callee i next (c.loadPairs i msg) := by
  unfold handleSyncData
  split
  · rename_i hempty
    have hsame : c.loadPairs i msg = c := by
      rw [loadPairs, hempty]
      exact c.setNode_self i
    rw [hsame]
  · rfl

theorem storage_loadPairs (c : Cluster) (i : Int) (msg : Message) :
    ((c.loadPairs i msg).node i).storage =
      (c.node i).storage.putBatch msg.kvPairs fun _ => (c.node i).clock := by
  rw [loadPairs, setNode_node_self]

/-- The receiver holds the peer's bindings over its own. -/
theorem get_loadPairs_syncData (c c₀ : Cluster) (i j : Int) (k : Bytes) :
    ((c.loadPairs i (c₀.syncData j)).node i).storage.get k =
      ((c₀.node j).storage.get k).or ((c.node i).storage.get k) := by
  rw [storage_loadPairs]
  exact StorageEngine.get_putBatch_pairs _ _ _ k

/-- State transfer from node `j` to node `i`, in any cluster.  The receiver ends
with the peer's value of every key the peer has and its own value of the others.
A peer that lists the same map in another order gives the same result, loading
the reply again changes nothing, and map and log are those of a `put` for each
pair, time stamps aside.  When no string holds a separator, opening the
receiver's log again gives the same union. -/
theorem sync_is_peer_biased_union (c : Cluster) (i j : Int) :
    ∃ reply c', runWith callee j (handleSyncRequest j) c = some (c, reply) ∧
      runWith callee i (handleSyncData reply (.done {})) c = some (c', {}) ∧
      (∀ k, (c'.node i).storage.get k =
        ((c.node j).storage.get k).or ((c.node i).storage.get k)) ∧
      (∀ peer : StorageEngine, (∀ k, peer.get k = (c.node j).storage.get k) →
        ∀ now k, ((c.node i).storage.putBatch peer.getAllPairs now).get k =
          (c'.node i).storage.get k) ∧
      (∃ c'', runWith callee i (handleSyncData reply (.done {})) c' = some (c'', {}) ∧
        ∀ k, (c''.node i).storage.get k = (c'.node i).storage.get k) ∧
      (∀ now, ((c.node i).storage.putEach reply.kvPairs now).store = (c'.node i).storage.store ∧
        StorageEngine.SameRecords (c.node i).storage (c'.node i).storage
          ((c.node i).storage.putEach reply.kvPairs now)) ∧
      ((c.node i).storage.Reachable →
        (∀ p ∈ (c.node j).storage.getAllPairs, Wal.Clean p.1 ∧ Wal.Clean p.2) →
        ∀ k, (StorageEngine.start (c'.node i).storage.log true).get k =
          ((c.node j).storage.get k).or ((c.node i).storage.get k)) := by
  refine ⟨c.syncData j, c.loadPairs i (c.syncData j), runWith_handleSyncRequest callee c j,
    runWith_handleSyncData callee c i _ _, get_loadPairs_syncData c c i j, ?_, ?_, ?_, ?_⟩
  · intro peer hpeer now k
    rw [StorageEngine.get_putBatch_pairs, get_loadPairs_syncData, hpeer]
  · refine ⟨_, runWith_handleSyncData callee _ i _ _, fun k => ?_⟩
    rw [get_loadPairs_syncData, get_loadPairs_syncData, ← Option.or_assoc, Option.or_self]
  · intro now
    rw [storage_loadPairs]
    refine ⟨?_, StorageEngine.sameRecords_putBatch _ _ _ _⟩
    rw [StorageEngine.putEach_eq_putBatch, StorageEngine.putBatch_store,
      StorageEngine.putBatch_store]
  · intro hreach hclean k
    rw [storage_loadPairs]
    exact (StorageEngine.get_restart_putBatch hreach hclean _ k).trans
      (StorageEngine.get_putBatch_pairs _ _ _ k)

/-- A cluster where node 3 holds one pair and every other node is empty, with the
nodes of `up` listening at the addresses of the launch script. -/
def oneHolder (up : List Int) : Cluster :=
  { node := fun id =>
      { ring := HashRing.empty
        storage :=
          if id = 3 then (StorageEngine.start [] true).put (ascii "user1") (ascii "Alice") 1
          else StorageEngine.start [] true
        heartbeat := HeartbeatService.start [] 0
        election := LeaderElection.start []
        triggers := 0
        clock := 2 }
    listener := fun host port =>
      if host = ascii "localhost" ∧ port - 8000 ∈ up then some (port - 8000) else none
    inFlight := [] }

/-- The same cluster after two keys were written at node 1 and one more at node 3. -/
def twoHolders (up : List Int) : Cluster :=
  let c := oneHolder up
  let own := ((c.node 1).storage.put (ascii "user1") (ascii "Bob") 1).put
    (ascii "user2") (ascii "Carol") 1
  let peer := (c.node 3).storage.put (ascii "user3") (ascii "Dave") 1
  (c.setNode 1 { c.node 1 with storage := own }).setNode 3 { c.node 3 with storage := peer }

theorem reachable_twoHolders (up : List Int) : ((twoHolders up).node 1).storage.Reachable :=
  ((StorageEngine.Reachable.start (Or.inl rfl)).run (c := .put (ascii "user1") (ascii "Bob") 1)
    (by decide)).run (c := .put (ascii "user2") (ascii "Carol") 1) (by decide)

/-- Node 1 takes the value of node 3 for the key that both hold and keeps its own for
the other, also after a restart. -/
theorem sync_is_peer_biased_union_twoHolders :
    ∃ c', runWith (fun _ _ _ => none) 1
        (handleSyncData ((twoHolders [3]).syncData 3) (.done {})) (twoHolders [3]) =
          some (c', {}) ∧
      (c'.node 1).storage.get (ascii "user1") = some (ascii "Alice") ∧
      (c'.node 1).storage.get (ascii "user2") = some (ascii "Carol") ∧
      (c'.node 1).storage.get (ascii "user3") = some (ascii "Dave") ∧
      (StorageEngine.start (c'.node 1).storage.log true).get (ascii "user1") =
        some (ascii "Alice") ∧
      (StorageEngine.start (c'.node 1).storage.log true).get (ascii "user2") =
        some (ascii "Carol") := by
  obtain ⟨reply, c', hreply, hload, hget, -, -, -, hrestart⟩ :=
    sync_is_peer_biased_union (fun _ _ _ => none) (twoHolders [3]) 1 3
  obtain ⟨-, rfl⟩ := Prod.mk.inj (Option.some.inj hreply)
  have hagain := hrestart (reachable_twoHolders [3]) (by decide)
  exact ⟨c', hload, hget _, hget _, hget _, hagain _, hagain _⟩

/-! ## The initial sync -/

/-- The loop over the peers in the start-up thread of `main`: sync from the
peer, then `break`. -/
def initialSync (myId : Int) : List NodeInfo → Prog
  | [] => .done {}
  | p :: _ => syncFromPeer myId p

/-- Whoever listens at an address answers: node `j` with the reply of its
coordinator when `speaks j`, and with `other` otherwise. -/
def answer (speaks : Int → Bool) (other : Message) (c : Cluster) (j : Int) (msg : Message) :
    Option (Cluster × Message) :=
  if speaks j then serve 1 c j msg else some (c, other)

/-- The node reached at the address of a peer, if it answers sync requests. -/
def source (c : Cluster) (speaks : Int → Bool) (p : NodeInfo) : Option Int :=
  (c.listener p.host p.port).filter fun j => speaks j

/-- The first peer of the list that is reachable and answers. -/
def firstSource (c : Cluster) (speaks : Int → Bool) (peers : List NodeInfo) : Option Int :=
  peers.findSome? (c.source speaks)

/-- The initial sync ends, and it has loaded the pairs of the first peer that is
reachable and answers, if there is one. -/
def LoadsFirstSource (c : Cluster) (speaks : Int → Bool) (other : Message) (me : Int)
    (peers : List NodeInfo) : Prop :=
  ∃ c' r, runWith (answer speaks other) me (initialSync me peers) c = some (c', r) ∧
    ∀ j, c.firstSource speaks peers = some j →
      ∀ k, (c'.node me).storage.get k =
        ((c.node j).storage.get k).or ((c.node me).storage.get k)

/-- One exchange loads the pairs of the peer if it answers, and changes nothing
otherwise. -/
theorem runWith_syncFromPeer (c : Cluster) (speaks : Int → Bool) {other : Message}
    (hother : other.type ≠ .syncData) (me : Int) (p : NodeInfo) :
    runWith (answer speaks other) me (syncFromPeer me p) c =
      match c.source speaks p with
      | none => some (c, {})
      | some j => some (c.loadPairs me (c.syncData j), {}) := by
  rw [syncFromPeer, runWith]
  cases hl : c.listener p.host p.port with
  | none => simp [source, hl, runWith]
  | some j =>
    by_cases hj : speaks j = true
    · have hreply : answer speaks other c j { type := .syncRequest, nodeId := me } =
          some (c, c.syncData j) := by
        rw [answer, if_pos hj]
        rfl
      have hsource : c.source speaks p = some j := by simp [source, hl, hj]
      simp only [hreply, hsource]
      show runWith _ me (handleSyncData (c.syncData j) (.done {})) c = _
      rw [runWith_handleSyncData]
      rfl
    · have hreply : answer speaks other c j { type := .syncRequest, nodeId := me } =
          some (c, other) := by rw [answer, if_neg hj]
      have hsource : c.source speaks p = none := by simp [source, hl, hj]
      simp only [hreply, hsource, if_pos hother]
      rfl

/-- The initial sync does what it is for exactly when the first peer of the list
is itself reachable and answers, or no peer does, or the node already holds every
pair of the first one that does. -/
theorem loadsFirstSource_iff (c : Cluster) (speaks : Int → Bool) {other : Message}
    (hother : other.type ≠ .syncData) (me : Int) (p : NodeInfo) (rest : List NodeInfo) :
    LoadsFirstSource c speaks other me (p :: rest) ↔
      (c.source speaks p).isSome ∨
      (∀ q ∈ p :: rest, c.source speaks q = none) ∨
      ∃ j, c.firstSource speaks (p :: rest) = some j ∧
        ∀ k v, (c.node j).storage.get k = some v → (c.node me).storage.get k = some v := by
  have hrun := runWith_syncFromPeer c speaks hother me p
  unfold LoadsFirstSource
  rw [initialSync, hrun]
  cases hp : c.source speaks p with
  | some j =>
    have hfirst : c.firstSource speaks (p :: rest) = some j := by simp [firstSource, hp]
    refine ⟨fun _ => Or.inl rfl, fun _ => ⟨_, _, rfl, fun j' hj' k => ?_⟩⟩
    obtain rfl : j = j' := Option.some.inj (hfirst.symm.trans hj')
    exact get_loadPairs_syncData c c me j k
  | none =>
    cases hfirst : c.firstSource speaks (p :: rest) with
    | none =>
      refine ⟨fun _ => Or.inr (Or.inl ?_), fun _ => ⟨_, _, rfl, fun j hj => absurd hj (by simp)⟩⟩
      exact List.findSome?_eq_none_iff.mp hfirst
    | some j =>
      constructor
      · rintro ⟨c', r, hc', hloads⟩
        obtain ⟨rfl, -⟩ := Prod.mk.inj (Option.some.inj hc')
        refine Or.inr (Or.inr ⟨j, rfl, fun k v hv => ?_⟩)
        have hk := hloads j rfl k
        rwa [hv] at hk
      · rintro (hsome | hnone | ⟨j', hj', hheld⟩)
        · exact absurd hsome (by simp)
        · have habs : c.firstSource speaks (p :: rest) = none :=
            List.findSome?_eq_none_iff.mpr hnone
          rw [habs] at hfirst
          exact absurd hfirst (by simp)
        · obtain rfl : j = j' := Option.some.inj hj'
          refine ⟨_, _, rfl, fun j' hj' k => ?_⟩
          obtain rfl : j = j' := Option.some.inj hj'
          cases hk : (c.node j).storage.get k with
          | none => rfl
          | some v => exact hheld k v hk

/-- With node 3 at the head of the list its pair is loaded. -/
theorem loadsFirstSource_head :
    LoadsFirstSource (oneHolder [3]) (fun _ => true) {} 1 [launchNode 3, launchNode 2] :=
  (loadsFirstSource_iff (oneHolder [3]) (fun _ => true) (by decide) 1 (launchNode 3)
    [launchNode 2]).mpr (Or.inl (by decide))

/-- Node 2 is down and node 3 is up: the loop leaves after node 2 and node 1
stays empty. -/
theorem initialSync_stops_at_unreachable_peer :
    ¬ LoadsFirstSource (oneHolder [3]) (fun _ => true) {} 1 [launchNode 2, launchNode 3] := by
  rintro ⟨c', r, hrun, hloads⟩
  have hkey := hloads 3 (by decide) (ascii "user1")
  obtain ⟨rfl, -⟩ := Prod.mk.inj (Option.some.inj hrun)
  exact absurd hkey (by decide)

end Cluster
end DistributedDb
