import DistributedDb.Cluster.Machine
import DistributedDb.Cluster.SharedRing

/-
Healthy clusters: one ring, every owner alive and reachable.

All nodes then agree on the primary and on the replicas of a key, and a message
sent to an owner arrives there.
-/

namespace DistributedDb
namespace Cluster

open Coordinator

structure Healthy (c : Cluster) (base : HashRing) : Prop where
  alive : ∀ e ∈ base.ring.entries, e.2.alive = true
  ring : ∀ i, base.Owns i → (c.node i).ring.ring.entries = base.ring.entries
  up : ∀ e ∈ base.ring.entries, c.listener e.2.host e.2.port = some e.2.id

namespace Healthy

variable {c : Cluster} {base : HashRing} (h : Healthy c base)
include h

theorem getPrimary {i : Int} (hi : base.Owns i) (key : Bytes) :
    (c.node i).ring.getPrimary key = base.getPrimary key :=
  HashRing.getPrimary_congr (h.ring i hi) key

theorem getReplicas {i : Int} (hi : base.Owns i) (key : Bytes) :
    (c.node i).ring.getReplicas key replicationFactor = base.getReplicas key replicationFactor :=
  HashRing.getReplicas_congr (h.ring i hi) key 3 (by omega)

theorem sameRouting {d : Cluster} (hd : SameRouting c d) : Healthy d base where
  alive := h.alive
  ring i hi := by
    rw [hd.ring]
    exact h.ring i hi
  up := by
    rw [hd.listener]
    exact h.up

/-- A call of a handler leaves the cluster healthy. -/
theorem perform {me : Int} {prog rest : Prog} {n : Node} {sent : List Packet}
    (hp : prog.perform me (c.node me) = .continues n rest sent) :
    Healthy ((c.setNode me n).send sent) base where
  alive := h.alive
  ring i hi := by
    by_cases him : i = me
    · subst him
      rw [send_node, setNode_node_self]
      rcases Prog.perform_ring hp with hring | ⟨id, hring⟩
      · rw [hring]
        exact h.ring i hi
      · rw [hring, HashRing.entries_updateNodeStatus_true, h.ring i hi]
        rw [h.ring i hi]
        exact h.alive
    · rw [send_node, setNode_node_of_ne c _ him]
      exact h.ring i hi
  up := h.up

theorem listener_replica {key : Bytes} {r : NodeInfo}
    (hr : r ∈ base.getReplicas key replicationFactor) :
    c.listener r.host r.port = some r.id := by
  obtain ⟨-, e, he, rfl⟩ := HashRing.entry_of_mem_getReplicas hr
  exact h.up e he

theorem listener_primary {key : Bytes} {p : NodeInfo} (hp : base.getPrimary key = some p) :
    c.listener p.host p.port = some p.id := by
  obtain ⟨-, e, he, rfl⟩ := HashRing.entry_of_getPrimary hp
  exact h.up e he

end Healthy

theorem healthy_launchCluster : Healthy (launchCluster [] fun _ => []) HashRing.launchRing where
  alive := HashRing.alive_launchRing
  ring _ _ := rfl
  up e he := (sharedRing_launchCluster [] (fun _ => []) (by simp)).up e he List.not_mem_nil

/-- Node 1 of the launched cluster executes a request on `user1` itself. -/
theorem perform_handle_launchRing {msg : Message} (hreq : msg.IsRequest)
    (hkey : msg.key = ascii "user1") {n : Node} (hn : n.ring = HashRing.launchRing) :
    (handle 1 msg).perform 1 n = .continues n (execute 1 msg) [] := by
  have hprim : n.ring.getPrimary msg.key = some (launchNode 1) := by
    rw [hn, hkey]
    exact HashRing.getPrimary_launchRing
  rw [handle_of_isRequest hreq, route, Prog.perform, hprim]
  rfl

theorem owns_of_getPrimary {base : HashRing} {key : Bytes} {p : NodeInfo}
    (hp : base.getPrimary key = some p) : base.Owns p.id := by
  obtain ⟨-, e, he, rfl⟩ := HashRing.entry_of_getPrimary hp
  exact ⟨e, he, rfl⟩

theorem nodup_getReplicas (base : HashRing) (key : Bytes) :
    ((base.getReplicas key replicationFactor).map NodeInfo.id).Nodup := by
  have htake : base.getReplicas key replicationFactor = (base.preference key).take 3 :=
    HashRing.getReplicas_eq_take base key (show 1 ≤ 3 by omega)
  rw [htake]
  exact (HashRing.nodup_preference base key).sublist ((List.take_sublist ..).map _)

end Cluster
end DistributedDb
