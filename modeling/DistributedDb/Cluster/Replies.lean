import DistributedDb.Cluster.Contract
import DistributedDb.Cluster.Healthy

/-
What a client may be answered.

Every kind of message has its own few replies, and a reply that came back from
another node is one of them too.  So whoever reads a reply can tell from its
fields which of the cases it is: a success has no error text, a failure has one,
and the failures that concern a key name it.
-/

namespace DistributedDb
namespace Replies

open Coordinator Cluster

/-- Node `i` does not know who should execute the request, or nobody who could
was reached. -/
def Unavailable (i : Int) (msg reply : Message) : Prop :=
  reply = makeError i (ascii "No available node for key: " ++ msg.key) ∨
    reply = makeError i (ascii "All nodes for key unavailable")

/-- The reply of node `i` belongs to the message. -/
def Fits (i : Int) (msg reply : Message) : Prop :=
  match msg.type with
  | .put => reply = makeAck i true [] ∨ Unavailable i msg reply
  | .get => (∃ value, reply = makeAck i true value) ∨
      reply = makeError i (ascii "Key not found: " ++ msg.key) ∨ Unavailable i msg reply
  | .del => reply = makeAck i true [] ∨
      reply = makeError i (ascii "Key not found: " ++ msg.key) ∨ Unavailable i msg reply
  | .replicate | .syncData | .heartbeat | .election | .leader => reply = makeAck i true []
  | .syncRequest =>
    ∃ pairs, reply = { type := .syncData, nodeId := i, kvPairs := pairs, success := true }
  | .ack | .unknown => reply = makeError i (ascii "Unknown message type")

/-- Any pair may be stored and any message sent; the replies fit. -/
def fitting : Contract where
  pair _ _ := True
  log _ := True
  admits _ := True
  answers msg reply := ∃ i, Fits i msg reply

theorem terms_fitting : fitting.Terms where
  put _ _ _ := trivial
  replicate _ _ _ _ := trivial
  syncData _ _ _ _ _ := trivial
  copyPut _ _ _ _ _ := trivial
  copyDel _ _ _ _ _ := trivial
  syncRequest _ := trivial
  found me msg value _ hget _ := ⟨me, by simp [Fits, hget]⟩
  done me msg _ hnot := by
    refine ⟨me, ?_⟩
    unfold Fits
    cases htype : msg.type with
    | get | syncRequest | ack | unknown => exact absurd (by simp [htype]) hnot
    | put | del => exact Or.inl rfl
    | replicate | syncData | heartbeat | election | leader => rfl
  missing me msg _ htype := by
    refine ⟨me, ?_⟩
    rcases htype with h | h
    · simp [Fits, h]
    · simp [Fits, h]
  unavailable me msg _ hreq := by
    refine ⟨⟨me, ?_⟩, ⟨me, ?_⟩⟩
    · rcases hreq with h | h | h <;> simp [Fits, Unavailable, h]
    · rcases hreq with h | h | h <;> simp [Fits, Unavailable, h]
  unknown me msg _ htype := by
    refine ⟨me, ?_⟩
    rcases htype with h | h <;> simp [Fits, h]
  synced me msg pairs htype _ := ⟨me, by simp [Fits, htype]⟩
  snapshot _ _ _ _ _ := trivial

theorem lawful_fitting : fitting.Lawful :=
  terms_fitting.lawful (fun _ _ _ _ _ _ => trivial) (fun _ _ _ _ _ _ => trivial)
    fun _ _ _ _ _ => trivial

/-- A reply that fits is conclusive. -/
theorem Fits.success_iff {i : Int} {msg reply : Message} (h : Fits i msg reply) :
    reply.success = true ↔ reply.error = [] := by
  have hack : ∀ value, reply = makeAck i true value →
      (reply.success = true ↔ reply.error = []) := by
    rintro value rfl
    simp [makeAck]
  have herror : ∀ err, err ≠ [] → reply = makeError i err →
      (reply.success = true ↔ reply.error = []) := by
    rintro err herr rfl
    simp [makeError, herr]
  have hun : Unavailable i msg reply → (reply.success = true ↔ reply.error = []) := by
    intro hu
    rcases hu with h | h
    · exact herror _ (by simp [ascii]) h
    · exact herror _ (by decide) h
  unfold Fits at h
  cases htype : msg.type with
  | put =>
    rw [htype] at h
    exact h.elim (hack _) hun
  | get =>
    rw [htype] at h
    obtain ⟨value, h⟩ | h | h := h
    · exact hack value h
    · exact herror _ (by simp [ascii]) h
    · exact hun h
  | del =>
    rw [htype] at h
    obtain h | h | h := h
    · exact hack _ h
    · exact herror _ (by simp [ascii]) h
    · exact hun h
  | syncRequest =>
    rw [htype] at h
    obtain ⟨pairs, rfl⟩ := h
    simp
  | replicate | syncData | heartbeat | election | leader =>
    rw [htype] at h
    exact hack _ h
  | ack | unknown =>
    rw [htype] at h
    exact herror _ (by decide) h

end Replies
end DistributedDb
