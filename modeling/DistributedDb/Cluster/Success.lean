import DistributedDb.Cluster.SharedRing

/-
What a successful reply stands for.

Success is reported by the node that executes a request, by a node that finds the
key in its own store, or by a node that passes the reply of another one on.  A
reply without success has changed nothing, so the replica loop goes on with the
cluster it started with.
-/

namespace DistributedDb
namespace Cluster

open Coordinator

/-- The node where the request entered, or one that accepts connections. -/
def Live (c : Cluster) (i j : Int) : Prop := j = i ∨ ∃ host port, c.listener host port = some j

/-- From `c` to `d` the storage of node `j` became `s`, and no other one changed. -/
structure StoredAt (c d : Cluster) (j : Int) (s : StorageEngine) : Prop where
  here : (d.node j).storage = s
  elsewhere : ∀ x, x ≠ j → (d.node x).storage = (c.node x).storage

/-- What the request did, when it is reported as done. -/
structure Done (c d : Cluster) (i : Int) (msg reply : Message) : Prop where
  put : msg.type = .put → ∃ j, Live c i j ∧
    StoredAt c d j ((c.node j).storage.put msg.key msg.value (c.node j).clock)
  get : msg.type = .get → ∃ j, Live c i j ∧ (c.node j).storage.get msg.key = some reply.value
  del : msg.type = .del → ∃ j v, Live c i j ∧ (c.node j).storage.get msg.key = some v ∧
    StoredAt c d j ((c.node j).storage.del msg.key (c.node j).clock).2

/-- A reply with success tells what was done, and one without it that nothing was. -/
structure Truthful (c : Cluster) (i : Int) (msg : Message) (d : Cluster) (reply : Message) :
    Prop where
  done : reply.success = true → Done c d i msg reply
  failed : reply.success = false → d = c

theorem Done.at {c d : Cluster} {i j : Int} {msg reply : Message} (h : Done c d j msg reply)
    (hj : Live c i j) : Done c d i msg reply := by
  have hlive : ∀ x, Live c j x → Live c i x := by
    intro x hx
    rcases hx with rfl | hx
    · exact hj
    · exact Or.inr hx
  constructor
  · intro hput
    obtain ⟨x, hx, hstored⟩ := h.put hput
    exact ⟨x, hlive x hx, hstored⟩
  · intro hget
    obtain ⟨x, hx, hval⟩ := h.get hget
    exact ⟨x, hlive x hx, hval⟩
  · intro hdel
    obtain ⟨x, v, hx, hval, hstored⟩ := h.del hdel
    exact ⟨x, v, hlive x hx, hval, hstored⟩

theorem truthful_error {c : Cluster} {i : Int} {msg : Message} (err : Bytes) :
    Truthful c i msg c (makeError i err) :=
  ⟨fun h => absurd h (by simp [makeError]), fun _ => rfl⟩

/-- A value found in the node's own store. -/
theorem truthful_found {c : Cluster} {i : Int} {msg : Message} (htype : msg.type = .get)
    {v : Bytes} (hv : (c.node i).storage.get msg.key = some v) :
    Truthful c i msg c (makeAck i true v) := by
  refine ⟨fun _ => ⟨fun h => ?_, fun _ => ⟨i, Or.inl rfl, hv⟩, fun h => ?_⟩, fun _ => rfl⟩
  · rw [htype] at h
    exact absurd h (by decide)
  · rw [htype] at h
    exact absurd h (by decide)

theorem storedAt_setNode (c : Cluster) (j : Int) (s : StorageEngine) (sent : List Packet) :
    StoredAt c ((c.setNode j { c.node j with storage := s }).send sent) j s where
  here := by rw [send_node, setNode_node_self]
  elsewhere x hx := by rw [send_node, setNode_node_of_ne c _ hx]

section Handlers

variable {callee : Cluster → Int → Message → Option (Cluster × Message)} {msg : Message}
  {d : Cluster} {reply : Message}

theorem truthful_execute (hreq : msg.IsRequest) {c : Cluster} {i : Int}
    (h : runWith callee i (execute i msg) c = some (d, reply)) : Truthful c i msg d reply := by
  unfold execute at h
  rcases hreq with htype | htype | htype
  · simp only [htype] at h
    rw [runWith_executePut, Option.some.injEq, Prod.mk.injEq] at h
    obtain ⟨rfl, rfl⟩ := h
    refine ⟨fun _ => ⟨fun _ => ⟨i, Or.inl rfl, storedAt_setNode c i _ _⟩, ?_, ?_⟩, ?_⟩
    · rw [htype]
      exact fun h => absurd h (by decide)
    · rw [htype]
      exact fun h => absurd h (by decide)
    · exact fun h => absurd h (by simp [makeAck])
  · simp only [htype] at h
    rw [runWith_executeGet, Option.some.injEq, Prod.mk.injEq] at h
    obtain ⟨rfl, rfl⟩ := h
    cases hv : (c.node i).storage.get msg.key with
    | none => exact truthful_error _
    | some v => exact truthful_found htype hv
  · simp only [htype] at h
    cases hv : (c.node i).storage.get msg.key with
    | none =>
      rw [runWith_executeDelete_of_none _ _ _ _ hv, Option.some.injEq, Prod.mk.injEq] at h
      obtain ⟨rfl, rfl⟩ := h
      exact truthful_error _
    | some v =>
      rw [runWith_executeDelete_of_some _ _ _ _ hv, Option.some.injEq, Prod.mk.injEq] at h
      obtain ⟨rfl, rfl⟩ := h
      refine ⟨fun _ => ⟨?_, ?_, fun _ => ⟨i, v, Or.inl rfl, hv, storedAt_setNode c i _ _⟩⟩, ?_⟩
      · rw [htype]
        exact fun h => absurd h (by decide)
      · rw [htype]
        exact fun h => absurd h (by decide)
      · exact fun h => absurd h (by simp [makeAck])

theorem truthful_lastResort {c : Cluster} {i : Int}
    (h : runWith callee i (lastResort i msg) c = some (d, reply)) : Truthful c i msg d reply := by
  unfold lastResort at h
  by_cases hget : msg.type = .get
  · rw [if_pos hget, runWith] at h
    cases hv : (c.node i).storage.get msg.key with
    | none =>
      simp only [hv, runWith, Option.some.injEq, Prod.mk.injEq] at h
      obtain ⟨rfl, rfl⟩ := h
      exact truthful_error _
    | some v =>
      simp only [hv, runWith, Option.some.injEq, Prod.mk.injEq] at h
      obtain ⟨rfl, rfl⟩ := h
      exact truthful_found hget hv
  · simp only [if_neg hget, runWith, Option.some.injEq, Prod.mk.injEq] at h
    obtain ⟨rfl, rfl⟩ := h
    exact truthful_error _

/-- The replica loop, when the nodes it asks are truthful. -/
theorem truthful_tryReplicas {c : Cluster}
    (hcallee : ∀ j d reply, callee c j msg = some (d, reply) → Truthful c j msg d reply)
    {i target : Int} {replicas : List NodeInfo}
    (h : runWith callee i (tryReplicas i target msg replicas) c = some (d, reply)) :
    Truthful c i msg d reply := by
  induction replicas with
  | nil => exact truthful_lastResort h
  | cons r rest ih =>
    rw [tryReplicas] at h
    by_cases ht : r.id = target
    · rw [if_pos ht] at h
      exact ih h
    · rw [if_neg ht] at h
      by_cases hme : r.id = i
      · rw [if_pos hme] at h
        by_cases hget : msg.type = .get
        · rw [if_pos hget, runWith] at h
          cases hv : (c.node i).storage.get msg.key with
          | none =>
            simp only [hv] at h
            exact ih h
          | some v =>
            simp only [hv, runWith, Option.some.injEq, Prod.mk.injEq] at h
            obtain ⟨rfl, rfl⟩ := h
            exact truthful_found hget hv
        · rw [if_neg hget] at h
          exact ih h
      · rw [if_neg hme, runWith] at h
        cases hl : c.listener r.host r.port with
        | none =>
          simp only [hl] at h
          exact ih h
        | some j =>
          simp only [hl] at h
          cases hj : callee c j msg with
          | none => simp [hj] at h
          | some q =>
            obtain ⟨d', reply'⟩ := q
            have htrue := hcallee j d' reply' hj
            simp only [hj] at h
            cases hok : reply'.success with
            | true =>
              simp only [hok, if_true, runWith, Option.some.injEq, Prod.mk.injEq] at h
              obtain ⟨rfl, rfl⟩ := h
              exact ⟨fun _ => (htrue.done hok).at (Or.inr ⟨_, _, hl⟩), htrue.failed⟩
            | false =>
              -- The failed attempt left the cluster as it was.
              obtain rfl := htrue.failed hok
              simp only [hok, Bool.false_eq_true, if_false] at h
              exact ih h

end Handlers

theorem truthful_serve {msg : Message} (hreq : msg.IsRequest) {budget : Nat} {c d : Cluster}
    {i : Int} {reply : Message} (h : serve budget c i msg = some (d, reply)) :
    Truthful c i msg d reply := by
  induction budget generalizing c i d reply with
  | zero => exact absurd h (by simp [serve])
  | succ budget ih =>
    rw [serve, handle_of_isRequest hreq] at h
    cases hp : (c.node i).ring.getPrimary msg.key with
    | none =>
      rw [runWith_route_of_none _ _ _ _ hp, Option.some.injEq, Prod.mk.injEq] at h
      obtain ⟨rfl, rfl⟩ := h
      exact truthful_error _
    | some p =>
      by_cases hself : p.id = i
      · rw [runWith_route_of_self _ _ _ _ hp hself] at h
        exact truthful_execute hreq h
      · cases hl : c.listener p.host p.port with
        | some j =>
          rw [runWith_route_of_up _ _ _ _ hp hself hl] at h
          have htrue := ih h
          exact ⟨fun hok => (htrue.done hok).at (Or.inr ⟨_, _, hl⟩), htrue.failed⟩
        | none =>
          rw [runWith_route_of_down _ _ _ _ hp hself hl] at h
          exact truthful_tryReplicas (fun j d reply hj => ih hj) h

/-- A request that is answered with success was executed by a live node, or the
value returned was in the store of one. -/
theorem success_was_executed {msg : Message} (hreq : msg.IsRequest) {budget : Nat} {c d : Cluster}
    {i : Int} {reply : Message} (h : serve budget c i msg = some (d, reply))
    (hok : reply.success = true) : Done c d i msg reply :=
  (truthful_serve hreq h).done hok

/-- A write that node 2 forwards to node 1. -/
theorem success_was_executed_forwarded :
    ∃ d reply, serve 2 (launchCluster [] fun _ => []) 2
        { type := .put, key := ascii "user1", value := ascii "new" } = some (d, reply) ∧
      reply.success = true ∧
      Done (launchCluster [] fun _ => []) d 2
        { type := .put, key := ascii "user1", value := ascii "new" } reply := by
  let c := launchCluster [] fun _ => []
  let msg : Message := { type := .put, key := ascii "user1", value := ascii "new" }
  have hreq : msg.IsRequest := Or.inl rfl
  have hprimary : ∀ i, (c.node i).ring.getPrimary msg.key = some (launchNode 1) :=
    fun _ => HashRing.getPrimary_launchRing
  have hup : c.listener (launchNode 1).host (launchNode 1).port = some 1 := rfl
  have hserve : serve 2 c 2 msg = runWith (serve 0) 1 (executePut 1 msg) c := by
    rw [serve, handle_of_isRequest hreq, runWith_route_of_up _ _ _ _ (hprimary 2) (by decide) hup,
      serve, handle_of_isRequest hreq, runWith_route_of_self _ _ _ _ (hprimary 1) rfl]
    rfl
  rw [runWith_executePut] at hserve
  exact ⟨_, _, hserve, rfl, success_was_executed hreq hserve rfl⟩

end Cluster
end DistributedDb
