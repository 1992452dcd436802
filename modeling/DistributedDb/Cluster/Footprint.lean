import DistributedDb.Cluster.Machine

/-
What a thread can touch.

A footprint says which writes are made and which nodes are named as senders.  A
request within a footprint stays within it on every node it is forwarded to, and
so do the copies it sends, whatever the calls return.  For a fixed key, all
requests on other keys stay within the footprint that avoids the key.  The
messages that nodes send without waiting for a reply are handled on the spot:
their handlers send nothing on.
-/

namespace DistributedDb

open Coordinator

/-- The messages of detached threads: replication, heartbeats and elections. -/
def Message.IsOneWay (msg : Message) : Prop :=
  msg.type = .replicate ∨ msg.type = .heartbeat ∨ msg.type = .election ∨ msg.type = .leader

structure Footprint where
  put : Bytes → Bytes → Prop
  del : Bytes → Prop
  /-- The nodes that messages may name as their sender. -/
  sender : Int → Prop

namespace Footprint

/-- No write on `k`. -/
def avoiding (k : Bytes) : Footprint :=
  { put := fun key _ => key ≠ k, del := fun key => key ≠ k, sender := fun _ => True }

/-- A client request within the footprint. -/
structure Request (f : Footprint) (msg : Message) : Prop where
  isRequest : msg.IsRequest
  sender : f.sender msg.nodeId
  put : msg.type = .put → f.put msg.key msg.value
  del : msg.type = .del → f.del msg.key

/-- A message of a detached thread within the footprint. -/
structure OneWay (f : Footprint) (msg : Message) : Prop where
  isOneWay : msg.IsOneWay
  sender : f.sender msg.nodeId
  put : msg.type = .replicate → msg.error ≠ ascii "DEL" → f.put msg.key msg.value
  del : msg.type = .replicate → msg.error = ascii "DEL" → f.del msg.key

/-- One call within the footprint. -/
def Within (f : Footprint) : Prog → Prop
  | .markAlive nodeId _ => f.sender nodeId
  | .storagePut key value _ => f.put key value
  | .storageDel key _ => f.del key
  | .storagePutBatch _ _ => False
  | .sendMessage _ _ msg _ => f.Request msg
  | .sendAndForget packet _ => f.OneWay packet.msg
  | _ => True

variable {f : Footprint}

/-- What a call within the footprint leaves under a key. -/
theorem get_of_within {p : Prog} (h : f.Within p) {me : Int} {n n' : Node} {rest : Prog}
    {sent : List Packet} (hp : p.perform me n = .continues n' rest sent) (k : Bytes) :
    n'.storage.get k = n.storage.get k ∨ (∃ v, f.put k v ∧ n'.storage.get k = some v) ∨
      (f.del k ∧ n'.storage.get k = none) := by
  cases p with
  | done reply => simp [Prog.perform] at hp
  | sendMessage host port msg next => simp [Prog.perform] at hp
  | storagePut key value next =>
    simp only [Prog.perform, Outcome.continues.injEq] at hp
    rw [← hp.1]
    by_cases hk : k = key
    · subst hk
      exact Or.inr (Or.inl ⟨value, h, (StorageEngine.get_put ..).trans (if_pos rfl)⟩)
    · exact Or.inl ((StorageEngine.get_put ..).trans (if_neg hk))
  | storageDel key next =>
    simp only [Prog.perform, Outcome.continues.injEq] at hp
    rw [← hp.1]
    by_cases hk : k = key
    · subst hk
      exact Or.inr (Or.inr ⟨h, (StorageEngine.get_del ..).trans (if_pos rfl)⟩)
    · exact Or.inl ((StorageEngine.get_del ..).trans (if_neg hk))
  | storagePutBatch pairs next => exact absurd h id
  | _ =>
    simp only [Prog.perform, Outcome.continues.injEq] at hp
    exact Or.inl (hp.1 ▸ rfl)

theorem get_of_within_avoiding {k : Bytes} {p : Prog} (h : (avoiding k).Within p) {me : Int}
    {n n' : Node} {rest : Prog} {sent : List Packet}
    (hp : p.perform me n = .continues n' rest sent) : n'.storage.get k = n.storage.get k := by
  rcases get_of_within h hp k with hget | ⟨v, hne, -⟩ | ⟨hne, -⟩
  · exact hget
  · exact absurd rfl hne
  · exact absurd rfl hne

theorem oneWay_of_sent {p : Prog} (h : f.Within p) {me : Int} {n n' : Node} {rest : Prog}
    {sent : List Packet} (hp : p.perform me n = .continues n' rest sent) :
    ∀ packet ∈ sent, f.OneWay packet.msg := by
  cases p with
  | done reply => simp [Prog.perform] at hp
  | sendMessage host port msg next => simp [Prog.perform] at hp
  | sendAndForget packet next =>
    simp only [Prog.perform, Outcome.continues.injEq] at hp
    intro q hq
    rw [← hp.2.2, List.mem_singleton] at hq
    exact hq ▸ h
  | _ =>
    simp only [Prog.perform, Outcome.continues.injEq] at hp
    simp [← hp.2.2]

/-- A call leaves the ring alone or marks a sender alive in it. -/
theorem ring_of_within {p : Prog} (h : f.Within p) {me : Int} {n n' : Node} {rest : Prog}
    {sent : List Packet} (hp : p.perform me n = .continues n' rest sent) :
    n'.ring = n.ring ∨ ∃ id, f.sender id ∧ n'.ring = n.ring.updateNodeStatus id true := by
  cases p with
  | done reply => simp [Prog.perform] at hp
  | sendMessage host port msg next => simp [Prog.perform] at hp
  | markAlive nodeId next =>
    simp only [Prog.perform, Outcome.continues.injEq] at hp
    rw [← hp.1, Node.markAlive]
    dsimp only
    split
    · exact Or.inr ⟨nodeId, h, rfl⟩
    · exact Or.inl rfl
  | _ =>
    simp only [Prog.perform, Outcome.continues.injEq] at hp
    exact Or.inl (hp.1 ▸ rfl)

/-- Everything that `f` allows, `g` allows. -/
structure Sub (f g : Footprint) : Prop where
  put : ∀ key value, f.put key value → g.put key value
  del : ∀ key, f.del key → g.del key
  sender : ∀ id, f.sender id → g.sender id

theorem OneWay.mono {g : Footprint} (hsub : f.Sub g) {msg : Message} (h : f.OneWay msg) :
    g.OneWay msg where
  isOneWay := h.isOneWay
  sender := hsub.sender _ h.sender
  put htype herror := hsub.put _ _ (h.put htype herror)
  del htype herror := hsub.del _ (h.del htype herror)

theorem Within.mono {g : Footprint} (hsub : f.Sub g) {p : Prog} (h : f.Within p) : g.Within p := by
  cases p with
  | markAlive nodeId next => exact hsub.sender _ h
  | storagePut key value next => exact hsub.put _ _ h
  | storageDel key next => exact hsub.del _ h
  | storagePutBatch pairs next => exact absurd h id
  | sendMessage host port msg next =>
    exact ⟨Request.isRequest h, hsub.sender _ (Request.sender h),
      fun htype => hsub.put _ _ (Request.put h htype),
      fun htype => hsub.del _ (Request.del h htype)⟩
  | sendAndForget packet next => exact OneWay.mono hsub h
  | _ => trivial

/-! ## The handlers -/

theorem every_sendAll {ok : Prog → Prop} {me : Int} {repl : Message} {next : Prog}
    (hnext : next.Every ok) {replicas : List NodeInfo}
    (hsend : ∀ r ∈ replicas, r.id ≠ me → ∀ p,
      ok (.sendAndForget { host := r.host, port := r.port, msg := repl } p)) :
    (Replication.sendAll me repl next replicas).Every ok := by
  induction replicas with
  | nil => exact hnext
  | cons r rest ih =>
    have ih := ih fun r' hr' => hsend r' (List.mem_cons_of_mem r hr')
    rw [Replication.sendAll]
    by_cases hr : r.id = me
    · rwa [if_pos hr]
    · rw [if_neg hr]
      exact ⟨hsend r List.mem_cons_self hr _, ih⟩

section Requests

variable {me : Int} {msg : Message}

theorem within_lastResort : (lastResort me msg).Every f.Within := by
  unfold lastResort
  split
  · exact ⟨trivial, fun r => by cases r <;> trivial⟩
  · trivial

theorem within_tryReplicas (h : f.Request msg) (target : Int) (replicas : List NodeInfo) :
    (tryReplicas me target msg replicas).Every f.Within := by
  induction replicas with
  | nil => exact within_lastResort
  | cons r rest ih =>
    rw [tryReplicas]
    split
    · exact ih
    · split
      · split
        · refine ⟨trivial, fun val => ?_⟩
          cases val with
          | none => exact ih
          | some v => trivial
        · exact ih
      · refine ⟨h, fun resp => ?_⟩
        cases resp with
        | none => exact ih
        | some reply =>
          dsimp only
          split
          · trivial
          · exact ih

theorem within_replicate {key value : Bytes} {op : MsgType} (replicas : List NodeInfo)
    (reply : Message) (h : ∀ now, f.OneWay (Replication.replicateMsg me key value op now)) :
    (Replication.replicate me key value op replicas (.done reply)).Every f.Within := by
  have hdone : (Prog.done reply).Every f.Within := trivial
  exact ⟨trivial, fun now => every_sendAll hdone fun _ _ _ _ => h now⟩

theorem within_execute (h : f.Request msg) (hme : f.sender me) :
    (execute me msg).Every f.Within := by
  rcases h.isRequest with htype | htype | htype
  · rw [execute, htype]
    refine ⟨h.put htype, trivial, fun replicas => within_replicate replicas _ fun now => ?_⟩
    exact ⟨Or.inl rfl, hme, fun _ _ => h.put htype,
      fun _ herror => absurd herror (show ascii "PUT" ≠ ascii "DEL" by decide)⟩
  · rw [execute, htype]
    exact ⟨trivial, fun val => by cases val <;> trivial⟩
  · rw [execute, htype]
    refine ⟨h.del htype, fun removed => ?_⟩
    cases removed with
    | false => trivial
    | true =>
      refine ⟨trivial, fun replicas => within_replicate replicas _ fun now => ?_⟩
      exact ⟨Or.inl rfl, hme, fun _ herror => absurd rfl herror, fun _ _ => h.del htype⟩

theorem within_handle (h : f.Request msg) (hme : f.sender me) :
    (handle me msg).Every f.Within := by
  rw [handle_of_isRequest h.isRequest]
  refine ⟨trivial, fun primary => ?_⟩
  cases primary with
  | none => trivial
  | some p =>
    dsimp only
    split
    · exact within_execute h hme
    · refine ⟨h, fun resp => ?_⟩
      cases resp with
      | none => exact ⟨trivial, fun _ => within_tryReplicas h _ _⟩
      | some reply => trivial

/-- A request stays within its footprint on every node it visits. -/
theorem within_onMessage (h : f.Request msg) (hme : f.sender me) :
    (onMessage me msg).Every f.Within :=
  ⟨h.sender, within_handle h hme⟩

theorem request_avoiding {k : Bytes} (hreq : msg.IsRequest) (hk : msg.key ≠ k) :
    (avoiding k).Request msg :=
  ⟨hreq, trivial, fun _ => hk, fun _ => hk⟩

end Requests

section OneWay

variable {me : Int} {msg : Message}

theorem within_onMessage_of_oneWay (h : f.OneWay msg) : (onMessage me msg).Every f.Within := by
  refine ⟨h.sender, ?_⟩
  rcases h.isOneWay with htype | htype | htype | htype
  · rw [handle, htype]
    show (Replication.handleReplicate me msg).Every f.Within
    unfold Replication.handleReplicate
    split
    case isTrue herror => exact ⟨h.del htype herror, fun _ => trivial⟩
    case isFalse herror => exact ⟨h.put htype herror, trivial⟩
  · rw [handle, htype]
    trivial
  · rw [handle, htype]
    exact ⟨trivial, fun resp => by cases resp <;> trivial⟩
  · rw [handle, htype]
    exact ⟨trivial, fun resp => by cases resp <;> trivial⟩

theorem oneWay_avoiding {k : Bytes} (honeWay : msg.IsOneWay)
    (hk : msg.type = .replicate → msg.key ≠ k) : (avoiding k).OneWay msg :=
  ⟨honeWay, trivial, fun hrep _ => hk hrep, fun hrep _ => hk hrep⟩

end OneWay

end Footprint

namespace Prog

/-- The call stays on the node and loads no batch. -/
def IsLocal : Prog → Prop
  | .sendMessage _ _ _ _ => False
  | .sendAndForget _ _ => False
  | .storagePutBatch _ _ => False
  | _ => True

theorem sent_of_isLocal {p : Prog} (h : p.IsLocal) {me : Int} {n n' : Node} {rest : Prog}
    {sent : List Packet} (hp : p.perform me n = .continues n' rest sent) : sent = [] := by
  cases p with
  | done reply => simp [perform] at hp
  | sendMessage host port msg next => simp [perform] at hp
  | sendAndForget packet next => exact absurd h id
  | _ =>
    simp only [perform, Outcome.continues.injEq] at hp
    exact hp.2.2.symm

theorem isLocal_onMessage {me : Int} {msg : Message} (h : msg.IsOneWay) :
    (onMessage me msg).Every IsLocal := by
  refine ⟨trivial, ?_⟩
  rcases h with h | h | h | h
  · rw [handle, h]
    show (Replication.handleReplicate me msg).Every IsLocal
    unfold Replication.handleReplicate
    split
    · exact ⟨trivial, fun _ => trivial⟩
    · exact ⟨trivial, trivial⟩
  · rw [handle, h]
    trivial
  · rw [handle, h]
    exact ⟨trivial, fun resp => by cases resp <;> trivial⟩
  · rw [handle, h]
    exact ⟨trivial, fun resp => by cases resp <;> trivial⟩

end Prog
end DistributedDb
