import DistributedDb.Node.Services

/-
How a node is started.

A node is given its own id and the addresses of its peers.  The peers get their
ids from the order in which they are listed, counting from 1 and leaving out the
id of the node itself.
-/

namespace DistributedDb
namespace Startup

/-- The loop over the tokens of `--peers`, with `peer_seq` as its counter. -/
def numberPeers (nodeId : Int) : Int → List (Bytes × Int) → List NodeInfo
  | _, [] => []
  | peerSeq, addr :: rest =>
    let id := if peerSeq = nodeId then peerSeq + 1 else peerSeq
    { id := id, host := addr.1, port := addr.2 } :: numberPeers nodeId (id + 1) rest

theorem alive_numberPeers {nodeId peerSeq : Int} {addrs : List (Bytes × Int)} {p : NodeInfo}
    (hp : p ∈ numberPeers nodeId peerSeq addrs) : p.alive = true := by
  induction addrs generalizing peerSeq with
  | nil => exact absurd hp List.not_mem_nil
  | cons addr rest ih =>
    rcases List.mem_cons.mp hp with rfl | hp
    · rfl
    · exact ih hp

/-- The ids grow along the list. -/
theorem pairwise_numberPeers (nodeId peerSeq : Int) (addrs : List (Bytes × Int)) :
    (∀ p ∈ numberPeers nodeId peerSeq addrs, peerSeq ≤ p.id) ∧
      (numberPeers nodeId peerSeq addrs).Pairwise fun p q => p.id < q.id := by
  induction addrs generalizing peerSeq with
  | nil => exact ⟨fun p hp => absurd hp List.not_mem_nil, List.Pairwise.nil⟩
  | cons addr rest ih =>
    let id := if peerSeq = nodeId then peerSeq + 1 else peerSeq
    have hid : peerSeq ≤ id := by
      show peerSeq ≤ if peerSeq = nodeId then peerSeq + 1 else peerSeq
      split <;> omega
    obtain ⟨hlow, hpair⟩ := ih (id + 1)
    refine ⟨fun p hp => ?_, List.pairwise_cons.mpr ⟨fun q hq => ?_, hpair⟩⟩
    · rcases List.mem_cons.mp hp with rfl | hp
      · exact hid
      · have := hlow p hp
        omega
    · have : id + 1 ≤ q.id := hlow q hq
      show id < q.id
      omega

/-- The ids from `peerSeq` on, without the node itself, are given out in order. -/
theorem mem_ids_numberPeers (nodeId : Int) {peerSeq last : Int} (hlast : peerSeq ≤ last + 1)
    {addrs : List (Bytes × Int)}
    (hlen : (addrs.length : Int) =
      last + 1 - peerSeq - if peerSeq ≤ nodeId ∧ nodeId ≤ last then 1 else 0) (j : Int) :
    (∃ p ∈ numberPeers nodeId peerSeq addrs, p.id = j) ↔ peerSeq ≤ j ∧ j ≤ last ∧ j ≠ nodeId := by
  induction addrs generalizing peerSeq with
  | nil =>
    simp only [numberPeers, List.not_mem_nil, false_and, exists_false, false_iff]
    simp only [List.length_nil] at hlen
    split at hlen <;> omega
  | cons addr rest ih =>
    rw [List.length_cons] at hlen
    simp only [numberPeers, List.mem_cons, exists_eq_or_imp]
    by_cases hself : peerSeq = nodeId
    · rw [if_pos hself]
      rw [ih (by split at hlen <;> omega) (by split at hlen <;> split <;> omega)]
      split at hlen <;> omega
    · rw [if_neg hself]
      rw [ih (by split at hlen <;> omega) (by split at hlen <;> split <;> omega)]
      split at hlen <;> omega

end Startup
end DistributedDb
