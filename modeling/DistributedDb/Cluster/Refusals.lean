import DistributedDb.Cluster.Serve

/-
How a read or a deletion can fail.

A handler is followed with its calls returning anything, so that nothing depends
on what other threads do in between; only a reply that it passes on has to be one
that another coordinator can give to the same message.  Whatever the path, a
reply without success carries one of three texts: the key is not there, no node
is available for it, or all of its nodes were unreachable.
-/

namespace DistributedDb

/-- `r` can be the reply of the program when its own node answers its calls in
any way, and another node either does not answer or answers as `answers` says. -/
def Prog.CanEnd (answers : Message → Message → Prop) : Prog → Message → Prop
  | .done reply, r => r = reply
  | .markAlive _ next, r => next.CanEnd answers r
  | .getPrimary _ next, r => ∃ primary, (next primary).CanEnd answers r
  | .getReplicas _ _ next, r => ∃ replicas, (next replicas).CanEnd answers r
  | .storagePut _ _ next, r => next.CanEnd answers r
  | .storageGet _ next, r => ∃ val, (next val).CanEnd answers r
  | .storageDel _ next, r => ∃ removed, (next removed).CanEnd answers r
  | .storagePairs next, r => ∃ pairs, (next pairs).CanEnd answers r
  | .storagePutBatch _ next, r => next.CanEnd answers r
  | .election _ next, r => ∃ resp, (next resp).CanEnd answers r
  | .nowMs next, r => ∃ now, (next now).CanEnd answers r
  | .sendMessage _ _ msg next, r =>
    (next none).CanEnd answers r ∨ ∃ reply, answers msg reply ∧ (next (some reply)).CanEnd answers r
  | .sendAndForget _ next, r => next.CanEnd answers r

namespace Coordinator

/-- The replies that a coordinator can give to `msg` after at most `depth`
forwards. -/
def CanReply : Nat → Message → Message → Prop
  | 0, _, _ => False
  | depth + 1, msg, r => ∃ myId, (handle myId msg).CanEnd (CanReply depth) r

/-- Every reply that a request gets in some state of the cluster is one of
these. -/
theorem canEnd_of_runWith {callee : Cluster → Int → Message → Option (Cluster × Message)}
    {answers : Message → Message → Prop}
    (hcallee : ∀ c j msg c' r, callee c j msg = some (c', r) → answers msg r) (me : Int)
    (p : Prog) :
    ∀ (c c' : Cluster) (r : Message),
      Cluster.runWith callee me p c = some (c', r) → p.CanEnd answers r := by
  induction p with
  | done reply =>
    intro c c' r h
    exact (Prod.mk.inj (Option.some.inj h)).2.symm
  | markAlive nodeId next ih => exact fun c c' r h => ih _ c' r h
  | getPrimary key next ih => exact fun c c' r h => ⟨_, ih _ _ c' r h⟩
  | getReplicas key rf next ih => exact fun c c' r h => ⟨_, ih _ _ c' r h⟩
  | storagePut key value next ih => exact fun c c' r h => ih _ c' r h
  | storageGet key next ih => exact fun c c' r h => ⟨_, ih _ _ c' r h⟩
  | storageDel key next ih => exact fun c c' r h => ⟨_, ih _ _ c' r h⟩
  | storagePairs next ih => exact fun c c' r h => ⟨_, ih _ _ c' r h⟩
  | storagePutBatch pairs next ih => exact fun c c' r h => ih _ c' r h
  | election msg next ih => exact fun c c' r h => ⟨_, ih _ _ c' r h⟩
  | nowMs next ih => exact fun c c' r h => ⟨_, ih _ _ c' r h⟩
  | sendAndForget packet next ih => exact fun c c' r h => ih _ c' r h
  | sendMessage host port msg next ih =>
    intro c c' r h
    rw [Cluster.runWith] at h
    cases hl : c.listener host port with
    | none =>
      simp only [hl] at h
      exact Or.inl (ih none c c' r h)
    | some j =>
      simp only [hl] at h
      cases hcall : callee c j msg with
      | none => simp [hcall] at h
      | some q =>
        simp only [hcall] at h
        exact Or.inr ⟨q.2, hcallee c j msg q.1 q.2 hcall, ih (some q.2) q.1 c' r h⟩

theorem canReply_of_serve {budget : Nat} {c c' : Cluster} {j : Int} {msg r : Message}
    (h : Cluster.serve budget c j msg = some (c', r)) : CanReply budget msg r := by
  induction budget generalizing c c' j msg r with
  | zero => exact absurd h (by simp [Cluster.serve])
  | succ budget ih =>
    have hserve : ∀ c j msg c' r, Cluster.serve budget c j msg = some (c', r) →
        CanReply budget msg r := fun _ _ _ _ _ => ih
    exact ⟨j, canEnd_of_runWith hserve j _ c c' r h⟩

/-! ## The texts -/

def keyNotFound (key : Bytes) : Bytes := ascii "Key not found: " ++ key

def noAvailableNode (key : Bytes) : Bytes := ascii "No available node for key: " ++ key

def allUnavailable : Bytes := ascii "All nodes for key unavailable"

/-- A success, or one of the three refusals. -/
def Answered (key : Bytes) (r : Message) : Prop :=
  r.success = true ∨ r.error = keyNotFound key ∨ r.error = noAvailableNode key ∨
    r.error = allUnavailable

variable {answers : Message → Message → Prop} {msg r : Message} {myId : Int}

theorem answered_ack (key : Bytes) (val : Bytes) : Answered key (makeAck myId true val) :=
  Or.inl rfl

theorem canEnd_sendAll {next : Prog} {repl : Message} {l : List NodeInfo}
    (h : (Replication.sendAll myId repl next l).CanEnd answers r) : next.CanEnd answers r := by
  induction l with
  | nil => exact h
  | cons n rest ih =>
    rw [Replication.sendAll] at h
    split at h
    · exact ih h
    · exact ih h

theorem answered_executeGet (h : (executeGet myId msg).CanEnd answers r) : Answered msg.key r := by
  obtain ⟨val, h⟩ := h
  cases val with
  | none => exact Or.inr (Or.inl (congrArg Message.error h))
  | some v => exact h ▸ answered_ack msg.key v

theorem answered_executeDelete (h : (executeDelete myId msg).CanEnd answers r) :
    Answered msg.key r := by
  obtain ⟨removed, h⟩ := h
  cases removed with
  | false => exact Or.inr (Or.inl (congrArg Message.error h))
  | true =>
    obtain ⟨replicas, now, h⟩ := h
    have hdone : r = makeAck myId true [] := canEnd_sendAll h
    exact hdone ▸ answered_ack msg.key []

theorem answered_lastResort (h : (lastResort myId msg).CanEnd answers r) : Answered msg.key r := by
  unfold lastResort at h
  split at h
  · obtain ⟨val, h⟩ := h
    cases val with
    | none => exact Or.inr (Or.inr (Or.inr (congrArg Message.error h)))
    | some v => exact h ▸ answered_ack msg.key v
  · exact Or.inr (Or.inr (Or.inr (congrArg Message.error h)))

/-- The replica loop passes only successes on; the other ways out are the last
resort and a value of the node's own. -/
theorem answered_tryReplicas {targetId : Int} {replicas : List NodeInfo}
    (h : (tryReplicas myId targetId msg replicas).CanEnd answers r) : Answered msg.key r := by
  induction replicas with
  | nil => exact answered_lastResort h
  | cons n rest ih =>
    rw [tryReplicas] at h
    split at h
    · exact ih h
    · split at h
      · split at h
        · obtain ⟨val, h⟩ := h
          cases val with
          | none => exact ih h
          | some v => exact h ▸ answered_ack msg.key v
        · exact ih h
      · rcases h with h | ⟨reply, -, h⟩
        · exact ih h
        · by_cases hsuccess : reply.success = true
          · simp only [hsuccess, if_true] at h
            exact Or.inl (h ▸ hsuccess)
          · simp only [hsuccess, if_false, Bool.false_eq_true] at h
            exact ih h

theorem answered_forwardTo (hanswers : ∀ reply, answers msg reply → Answered msg.key reply)
    {target : NodeInfo} (h : (forwardTo myId target msg).CanEnd answers r) :
    Answered msg.key r := by
  rcases h with ⟨replicas, h⟩ | ⟨reply, hreply, h⟩
  · exact answered_tryReplicas h
  · exact h ▸ hanswers reply hreply

theorem answered_route (hanswers : ∀ reply, answers msg reply → Answered msg.key reply)
    {execute : Prog} (hexec : execute.CanEnd answers r → Answered msg.key r)
    (h : (route myId msg execute).CanEnd answers r) : Answered msg.key r := by
  obtain ⟨primary, h⟩ := h
  cases primary with
  | none => exact Or.inr (Or.inr (Or.inl (congrArg Message.error h)))
  | some p =>
    by_cases hp : p.id = myId
    · simp only [hp, if_true] at h
      exact hexec h
    · simp only [hp, if_false] at h
      exact answered_forwardTo hanswers h

/-- However often it is forwarded, a read or a deletion is answered by a success
or by one of the three refusals. -/
theorem answered_of_canReply {depth : Nat} (htype : msg.type = .get ∨ msg.type = .del)
    (h : CanReply depth msg r) : Answered msg.key r := by
  induction depth generalizing r with
  | zero => exact absurd h id
  | succ depth ih =>
    obtain ⟨myId, h⟩ := h
    rcases htype with htype | htype
    · rw [handle, htype] at h
      exact answered_route (fun _ => ih) answered_executeGet h
    · rw [handle, htype] at h
      exact answered_route (fun _ => ih) answered_executeDelete h

end Coordinator
end DistributedDb
