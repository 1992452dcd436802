import DistributedDb.Cluster.Requests
import DistributedDb.Lib.CallGraph

/-
When forwarding ends.

A request at node `i` may be forwarded to the primary `i` sees and, when nobody
listens there, to the other replicas `i` sees.  No forward carries a count of
the hops before it.  The loop over the replicas stops at the first success, so
whether a replica gets the request depends on the ones before it: node `i` hands
the request to a replica when the replicas before it do not get it served.  An
attempt without success changes no store, so all of this is read off the state in
which the request arrives.  It is answered exactly when it is not handed around a
loop.
-/

namespace DistributedDb
namespace Cluster

open Coordinator Relation

/-- A request on `key` at `i` may be forwarded to `j`. -/
def Forwards (c : Cluster) (key : Bytes) (i j : Int) : Prop :=
  ∃ p, (c.node i).ring.getPrimary key = some p ∧ p.id ≠ i ∧
    (c.listener p.host p.port = some j ∨
      (c.listener p.host p.port = none ∧
        ∃ r ∈ (c.node i).ring.getReplicas key replicationFactor,
          r.id ≠ p.id ∧ r.id ≠ i ∧ c.listener r.host r.port = some j))

/-- The two clusters differ in nothing that routing reads. -/
structure SameRouting (c d : Cluster) : Prop where
  listener : d.listener = c.listener
  ring : ∀ i, (d.node i).ring = (c.node i).ring

namespace SameRouting

theorem refl (c : Cluster) : SameRouting c c := ⟨rfl, fun _ => rfl⟩

theorem trans {a b c : Cluster} (hab : SameRouting a b) (hbc : SameRouting b c) :
    SameRouting a c :=
  ⟨hbc.listener.trans hab.listener, fun i => (hbc.ring i).trans (hab.ring i)⟩

theorem setNode {c : Cluster} {i : Int} {n : Node} (hn : n.ring = (c.node i).ring) :
    SameRouting c (c.setNode i n) := by
  refine ⟨rfl, fun j => ?_⟩
  by_cases hj : j = i
  · subst hj
    rw [setNode_node_self, hn]
  · rw [setNode_node_of_ne c _ hj]

theorem setStorage (c : Cluster) (i : Int) (s : StorageEngine) (sent : List Packet) :
    SameRouting c ((c.setNode i { c.node i with storage := s }).send sent) :=
  ⟨rfl, (setNode (n := { c.node i with storage := s }) rfl).ring⟩

end SameRouting

/-! ## Who serves a request -/

variable (c : Cluster) (msg : Message)

/-- Node `z` serves the request itself: as the primary it sees, or a read from its
own copy when that primary is down. -/
def Serves (z : Int) : Prop :=
  ∃ p, (c.node z).ring.getPrimary msg.key = some p ∧
    ((p.id = z ∧ (msg.type = .put ∨ (c.node z).storage.get msg.key ≠ none)) ∨
      (p.id ≠ z ∧ c.listener p.host p.port = none ∧ msg.type = .get ∧
        (c.node z).storage.get msg.key ≠ none))

/-- Nobody that forwards can reach from `a` serves the request. -/
def Unserved (a : Int) : Prop := ∀ z, ReflTransGen (Forwards c msg.key) a z → ¬ Serves c msg z

theorem unserved_iff (a : Int) :
    Unserved c msg a ↔ ¬ Serves c msg a ∧ ∀ b, Forwards c msg.key a b → Unserved c msg b := by
  constructor
  · exact fun h => ⟨h a .refl, fun b hab z hbz => h z (.head hab hbz)⟩
  · intro h z haz
    rcases ReflTransGen.cases_head haz with rfl | ⟨b, hab, hbz⟩
    · exact h.1
    · exact h.2 b hab z hbz

/-- The loop of node `i` over its replicas goes on after `s`, with `p` down. -/
def PassedOver (i : Int) (p s : NodeInfo) : Prop :=
  s.id ≠ p.id →
    (s.id = i → msg.type = .get → (c.node i).storage.get msg.key = none) ∧
    (s.id ≠ i → ∀ a, c.listener s.host s.port = some a → Unserved c msg a)

/-- Node `i` hands the request to `j`: to the primary it sees, or to a replica
after others that do not get it served. -/
def Hands (i j : Int) : Prop :=
  ∃ p, (c.node i).ring.getPrimary msg.key = some p ∧ p.id ≠ i ∧
    (c.listener p.host p.port = some j ∨
      (c.listener p.host p.port = none ∧ ∃ before r after,
        (c.node i).ring.getReplicas msg.key replicationFactor = before ++ r :: after ∧
        r.id ≠ p.id ∧ r.id ≠ i ∧ c.listener r.host r.port = some j ∧
        ∀ s ∈ before, PassedOver c msg i p s))

variable {c msg}

theorem Hands.forwards {i j : Int} (h : Hands c msg i j) : Forwards c msg.key i j := by
  obtain ⟨p, hp, hpi, hj⟩ := h
  refine ⟨p, hp, hpi, hj.imp id fun ⟨hdown, before, r, after, hlist, hrp, hri, hl, _⟩ => ?_⟩
  exact ⟨hdown, r, hlist ▸ List.mem_append_right _ List.mem_cons_self, hrp, hri, hl⟩

/-- What a reply of node `j` says: an error that nothing has changed and nobody
serves the request, a success that somebody does. -/
def Tells (c : Cluster) (msg : Message) (j : Int) (r : Option (Cluster × Message)) : Prop :=
  ∀ d reply, r = some (d, reply) →
    (reply.success = false → d = c ∧ Unserved c msg j) ∧
    (reply.success = true → ¬ Unserved c msg j)

section Loop

variable {callee : Cluster → Int → Message → Option (Cluster × Message)}
  (hcallee : ∀ j, Tells c msg j (callee c j msg)) {me : Int} {p : NodeInfo}

theorem runWith_lastResort :
    runWith callee me (lastResort me msg) c =
      some (c, match msg.type, (c.node me).storage.get msg.key with
        | .get, some v => makeAck me true v
        | _, _ => makeError me (ascii "All nodes for key unavailable")) := by
  unfold lastResort
  by_cases hget : msg.type = .get
  · rw [if_pos hget, hget]
    cases hs : (c.node me).storage.get msg.key <;> simp [runWith, hs]
  · rw [if_neg hget]
    cases htype : msg.type <;> first | exact absurd htype hget | rfl

include hcallee

variable (me p) in
/-- One round of the loop: the loop goes on over a replica that is passed over, or
it stops with what that replica says. -/
theorem runWith_tryReplicas_cons (r : NodeInfo) (rest : List NodeInfo) :
    (PassedOver c msg me p r ∧
      runWith callee me (tryReplicas me p.id msg (r :: rest)) c =
        runWith callee me (tryReplicas me p.id msg rest) c) ∨
    (r.id ≠ p.id ∧ r.id = me ∧ msg.type = .get ∧ ∃ v, (c.node me).storage.get msg.key = some v ∧
      runWith callee me (tryReplicas me p.id msg (r :: rest)) c = some (c, makeAck me true v)) ∨
    (r.id ≠ p.id ∧ r.id ≠ me ∧ ∃ j, c.listener r.host r.port = some j ∧
      (callee c j msg = none ∨ ∃ d reply, callee c j msg = some (d, reply) ∧ reply.success = true) ∧
      runWith callee me (tryReplicas me p.id msg (r :: rest)) c = callee c j msg) := by
  rw [tryReplicas]
  by_cases ht : r.id = p.id
  · exact Or.inl ⟨fun hne => absurd ht hne, by rw [if_pos ht]⟩
  · rw [if_neg ht]
    by_cases hm : r.id = me
    · rw [if_pos hm]
      by_cases hget : msg.type = .get
      · rw [if_pos hget]
        cases hs : (c.node me).storage.get msg.key with
        | none =>
          exact Or.inl ⟨fun _ => ⟨fun _ _ => hs, fun hne => absurd hm hne⟩, by simp [runWith, hs]⟩
        | some v => exact Or.inr (Or.inl ⟨ht, hm, hget, v, rfl, by simp [runWith, hs]⟩)
      · refine Or.inl ⟨fun _ => ⟨fun _ h => absurd h hget, fun hne => absurd hm hne⟩, ?_⟩
        rw [if_neg hget]
    · rw [if_neg hm]
      cases hl : c.listener r.host r.port with
      | none =>
        refine Or.inl ⟨fun _ => ⟨fun h => absurd h hm, fun _ a ha => ?_⟩, by simp [runWith, hl]⟩
        rw [hl] at ha
        exact absurd ha (by simp)
      | some j =>
        cases hj : callee c j msg with
        | none => exact Or.inr (Or.inr ⟨ht, hm, j, rfl, Or.inl hj, by simp [runWith, hl, hj]⟩)
        | some q =>
          obtain ⟨d, reply⟩ := q
          cases hok : reply.success with
          | true =>
            exact Or.inr (Or.inr ⟨ht, hm, j, rfl, Or.inr ⟨d, reply, hj, hok⟩,
              by simp [runWith, hl, hj, hok]⟩)
          | false =>
            obtain ⟨rfl, hnone⟩ := (hcallee j d reply hj).1 hok
            refine Or.inl ⟨fun _ => ⟨fun h => absurd h hm, fun _ a ha => ?_⟩,
              by simp [runWith, hl, hj, hok]⟩
            rw [hl, Option.some.injEq] at ha
            exact ha ▸ hnone

/-- What the reply of the whole loop says. -/
theorem tryReplicas_tells (replicas : List NodeInfo) {d : Cluster} {reply : Message}
    (h : runWith callee me (tryReplicas me p.id msg replicas) c = some (d, reply)) :
    (reply.success = false → d = c ∧
      (msg.type = .get → (c.node me).storage.get msg.key = none) ∧
      ∀ s ∈ replicas, PassedOver c msg me p s) ∧
    (reply.success = true → (msg.type = .get ∧ (c.node me).storage.get msg.key ≠ none) ∨
      ∃ r ∈ replicas, r.id ≠ p.id ∧ r.id ≠ me ∧
        ∃ j, c.listener r.host r.port = some j ∧ ¬ Unserved c msg j) := by
  induction replicas with
  | nil =>
    rw [tryReplicas, runWith_lastResort, Option.some.injEq] at h
    obtain ⟨rfl, rfl⟩ := Prod.mk.inj h
    by_cases hget : msg.type = .get
    · rw [hget]
      cases hs : (c.node me).storage.get msg.key with
      | none =>
        exact ⟨fun _ => ⟨rfl, fun _ => rfl, by simp⟩, fun hok => absurd hok (by simp [makeError])⟩
      | some v => exact ⟨fun hno => absurd hno (by simp [makeAck]), fun _ => Or.inl ⟨rfl, by simp⟩⟩
    · have herror : (match msg.type, (c.node me).storage.get msg.key with
          | .get, some v => makeAck me true v
          | _, _ => makeError me (ascii "All nodes for key unavailable")).success = false := by
        cases htype : msg.type <;> first | exact absurd htype hget | rfl
      refine ⟨fun _ => ⟨rfl, fun h => absurd h hget, by simp⟩, fun hok => ?_⟩
      rw [herror] at hok
      exact absurd hok (by decide)
  | cons r rest ih =>
    rcases runWith_tryReplicas_cons hcallee me p r rest with
      ⟨hpass, heq⟩ | ⟨-, -, hget, v, hs, heq⟩ | ⟨hrp, hrm, j, hl, hj, heq⟩
    · obtain ⟨hno, hok⟩ := ih (heq ▸ h)
      refine ⟨fun hreply => ?_, fun hreply => ?_⟩
      · obtain ⟨hd, hlocal, hall⟩ := hno hreply
        exact ⟨hd, hlocal, List.forall_mem_cons.mpr ⟨hpass, hall⟩⟩
      · refine (hok hreply).imp id fun ⟨r', hr', hrest⟩ => ?_
        exact ⟨r', List.mem_cons_of_mem r hr', hrest⟩
    · rw [heq, Option.some.injEq] at h
      obtain ⟨rfl, rfl⟩ := Prod.mk.inj h
      exact ⟨fun hno => absurd hno (by simp [makeAck]), fun _ => Or.inl ⟨hget, by simp [hs]⟩⟩
    · rw [heq] at h
      rcases hj with hnone | ⟨d', reply', hsome, hok⟩
      · rw [hnone] at h
        exact absurd h (by simp)
      · rw [hsome, Option.some.injEq] at h
        obtain ⟨rfl, rfl⟩ := Prod.mk.inj h
        refine ⟨fun hno => absurd (hok.symm.trans hno) (by decide), fun _ => Or.inr ?_⟩
        exact ⟨r, List.mem_cons_self, hrp, hrm, j, hl, (hcallee j _ _ hsome).2 hok⟩

/-- The loop does not get past a replica that never answers. -/
theorem tryReplicas_stuck {before after : List NodeInfo} {r : NodeInfo} {j : Int}
    (hbefore : ∀ s ∈ before, PassedOver c msg me p s) (hrp : r.id ≠ p.id) (hrm : r.id ≠ me)
    (hl : c.listener r.host r.port = some j) (hj : callee c j msg = none) :
    runWith callee me (tryReplicas me p.id msg (before ++ r :: after)) c = none := by
  induction before with
  | nil =>
    rw [List.nil_append, tryReplicas, if_neg hrp, if_neg hrm, runWith]
    simp only [hl, hj]
  | cons s rest ih =>
    obtain ⟨hs, hrest⟩ := List.forall_mem_cons.mp hbefore
    rw [List.cons_append]
    rcases runWith_tryReplicas_cons hcallee me p s (rest ++ r :: after) with
      ⟨-, heq⟩ | ⟨hsp, hsm, hget, v, hv, -⟩ | ⟨hsp, hsm, a, ha, hreply, heq⟩
    · rw [heq]
      exact ih hrest
    · rw [(hs hsp).1 hsm hget] at hv
      exact absurd hv (by simp)
    · rw [heq]
      rcases hreply with hnone | ⟨d, reply, hsome, hok⟩
      · exact hnone
      · exact absurd ((hs hsp).2 hsm a ha) ((hcallee a d reply hsome).2 hok)

end Loop

/-- What the reply of a primary says. -/
theorem execute_tells (hreq : msg.IsRequest)
    {callee : Cluster → Int → Message → Option (Cluster × Message)} {me : Int} {d : Cluster}
    {reply : Message} (h : runWith callee me (execute me msg) c = some (d, reply)) :
    (reply.success = false → d = c ∧
      ¬ (msg.type = .put ∨ (c.node me).storage.get msg.key ≠ none)) ∧
    (reply.success = true → msg.type = .put ∨ (c.node me).storage.get msg.key ≠ none) := by
  rcases hreq with htype | htype | htype
  · rw [execute, htype] at h
    dsimp only at h
    rw [runWith_executePut, Option.some.injEq] at h
    obtain ⟨-, rfl⟩ := Prod.mk.inj h
    exact ⟨fun hno => absurd hno (by simp [makeAck]), fun _ => Or.inl htype⟩
  · rw [execute, htype] at h
    dsimp only at h
    rw [runWith_executeGet, Option.some.injEq] at h
    obtain ⟨rfl, rfl⟩ := Prod.mk.inj h
    cases hs : (c.node me).storage.get msg.key with
    | none => exact ⟨fun _ => ⟨rfl, by simp [htype]⟩, fun hok => absurd hok (by simp [makeError])⟩
    | some v => exact ⟨fun hno => absurd hno (by simp [makeAck]), fun _ => Or.inr (by simp)⟩
  · rw [execute, htype] at h
    dsimp only at h
    cases hs : (c.node me).storage.get msg.key with
    | none =>
      rw [runWith_executeDelete_of_none _ _ _ _ hs, Option.some.injEq] at h
      obtain ⟨rfl, rfl⟩ := Prod.mk.inj h
      exact ⟨fun _ => ⟨rfl, by simp [htype]⟩, fun hok => absurd hok (by simp [makeError])⟩
    | some v =>
      rw [runWith_executeDelete_of_some _ _ _ _ hs, Option.some.injEq] at h
      obtain ⟨-, rfl⟩ := Prod.mk.inj h
      exact ⟨fun hno => absurd hno (by simp [makeAck]), fun _ => Or.inr (by simp)⟩

/-- The replies of the handlers. -/
theorem serve_tells (hreq : msg.IsRequest) (budget : Nat) (i : Int) :
    Tells c msg i (serve budget c i msg) := by
  induction budget generalizing i with
  | zero => exact fun d reply h => absurd h (by simp [serve])
  | succ budget ih =>
    intro d reply h
    rw [serve, handle_of_isRequest hreq] at h
    rw [unserved_iff]
    cases hp : (c.node i).ring.getPrimary msg.key with
    | none =>
      rw [runWith_route_of_none _ i c _ hp, Option.some.injEq] at h
      obtain ⟨rfl, rfl⟩ := Prod.mk.inj h
      refine ⟨fun _ => ⟨rfl, ?_, ?_⟩, fun hok => absurd hok (by simp [makeError])⟩
      · rintro ⟨p, hp', -⟩
        exact absurd (hp.symm.trans hp') (by simp)
      · rintro b ⟨p, hp', -⟩
        exact absurd (hp.symm.trans hp') (by simp)
    | some p =>
      have hprimary : ∀ q, (c.node i).ring.getPrimary msg.key = some q → q = p :=
        fun q hq => Option.some.inj (hq.symm.trans hp)
      by_cases hself : p.id = i
      · rw [runWith_route_of_self _ i c _ hp hself] at h
        have hnobody : ∀ b, ¬ Forwards c msg.key i b := by
          rintro b ⟨q, hq, hqi, -⟩
          exact hqi (hprimary q hq ▸ hself)
        have hserves : Serves c msg i ↔
            msg.type = .put ∨ (c.node i).storage.get msg.key ≠ none := by
          constructor
          · rintro ⟨q, hq, hcase⟩
            obtain rfl := hprimary q hq
            rcases hcase with ⟨-, hcase⟩ | ⟨hne, -⟩
            · exact hcase
            · exact absurd hself hne
          · exact fun hcase => ⟨p, hp, Or.inl ⟨hself, hcase⟩⟩
        obtain ⟨hno, hok⟩ := execute_tells hreq h
        refine ⟨fun hreply => ?_, fun hreply hnone => hnone.1 (hserves.mpr (hok hreply))⟩
        obtain ⟨hd, hlocal⟩ := hno hreply
        exact ⟨hd, fun hs => hlocal (hserves.mp hs), fun b hb => absurd hb (hnobody b)⟩
      · cases hl : c.listener p.host p.port with
        | some j =>
          rw [runWith_route_of_up _ i c _ hp hself hl] at h
          obtain ⟨hno, hok⟩ := ih j d reply h
          have hforward : Forwards c msg.key i j := ⟨p, hp, hself, Or.inl hl⟩
          refine ⟨fun hreply => ?_, fun hreply hnone => hok hreply (hnone.2 j hforward)⟩
          refine ⟨(hno hreply).1, ?_, ?_⟩
          · rintro ⟨q, hq, hcase⟩
            obtain rfl := hprimary q hq
            rcases hcase with ⟨hqi, -⟩ | ⟨-, hdown, -⟩
            · exact hself hqi
            · exact absurd (hl.symm.trans hdown) (by simp)
          · rintro b ⟨q, hq, -, hcase⟩
            obtain rfl := hprimary q hq
            rcases hcase with hup | ⟨hdown, -⟩
            · obtain rfl : j = b := Option.some.inj (hl.symm.trans hup)
              exact (hno hreply).2
            · exact absurd (hl.symm.trans hdown) (by simp)
        | none =>
          rw [runWith_route_of_down _ i c _ hp hself hl] at h
          obtain ⟨hno, hok⟩ := tryReplicas_tells ih _ h
          constructor
          · intro hreply
            obtain ⟨hd, hlocal, hall⟩ := hno hreply
            refine ⟨hd, ?_, ?_⟩
            · rintro ⟨q, hq, hcase⟩
              obtain rfl := hprimary q hq
              rcases hcase with ⟨hqi, -⟩ | ⟨-, -, hget, hholds⟩
              · exact hself hqi
              · exact hholds (hlocal hget)
            · rintro b ⟨q, hq, -, hcase⟩
              obtain rfl := hprimary q hq
              rcases hcase with hup | ⟨-, r, hr, hrp, hri, hb⟩
              · exact absurd (hl.symm.trans hup) (by simp)
              · exact (hall r hr hrp).2 hri b hb
          · intro hreply hnone
            rcases hok hreply with ⟨hget, hholds⟩ | ⟨r, hr, hrp, hri, j, hj, hserved⟩
            · exact hnone.1 ⟨p, hp, Or.inr ⟨hself, hl, hget, hholds⟩⟩
            · exact hserved (hnone.2 j ⟨p, hp, hself, Or.inr ⟨hl, r, hr, hrp, hri, hj⟩⟩)

/-! ## A loop is never left -/

theorem serve_eq_none_of_loops (hreq : msg.IsRequest) (budget : Nat) {i : Int}
    (hloop : CallGraph.Loops (Hands c msg) i) : serve budget c i msg = none := by
  induction budget generalizing i with
  | zero => rfl
  | succ budget ih =>
    obtain ⟨j, ⟨p, hp, hself, hj⟩, hjloop⟩ := hloop.next
    rw [serve, handle_of_isRequest hreq]
    rcases hj with hup | ⟨hdown, before, r, after, hlist, hrp, hri, hl, hbefore⟩
    · rw [runWith_route_of_up _ i c _ hp hself hup]
      exact ih hjloop
    · rw [runWith_route_of_down _ i c _ hp hself hdown, hlist]
      exact tryReplicas_stuck (serve_tells hreq budget) hbefore hrp hri hl (ih hjloop)

/-! ## Without a loop there is a reply -/

/-- The program finishes on `me`. -/
def Finishes (c : Cluster) (me : Int) (p : Prog) : Prop :=
  ∃ budget d reply, runWith (serve budget) me p c = some (d, reply)

theorem finishes_tryReplicas (hreq : msg.IsRequest) (me : Int) (p : NodeInfo)
    (replicas : List NodeInfo)
    (hcall : ∀ before r after, replicas = before ++ r :: after →
      (∀ s ∈ before, PassedOver c msg me p s) → r.id ≠ p.id → r.id ≠ me →
      ∀ j, c.listener r.host r.port = some j → c.Replies j msg) :
    Finishes c me (tryReplicas me p.id msg replicas) := by
  induction replicas with
  | nil => exact ⟨0, _, _, runWith_lastResort⟩
  | cons r rest ih =>
    have hrest : PassedOver c msg me p r → Finishes c me (tryReplicas me p.id msg rest) := by
      intro hpass
      refine ih fun before s after hlist hbefore => ?_
      refine hcall (r :: before) s after (by rw [hlist, List.cons_append]) ?_
      exact List.forall_mem_cons.mpr ⟨hpass, hbefore⟩
    -- One budget is enough for this replica, when the loop asks it, and for the rest.
    obtain ⟨own, hown⟩ : ∃ own, r.id ≠ p.id → r.id ≠ me → ∀ j,
        c.listener r.host r.port = some j → ∃ q, serve own c j msg = some q := by
      by_cases hasks : r.id ≠ p.id ∧ r.id ≠ me ∧ ∃ j, c.listener r.host r.port = some j
      · obtain ⟨hrp, hrm, j, hj⟩ := hasks
        obtain ⟨own, d, reply, hserve⟩ := hcall [] r rest rfl (by simp) hrp hrm j hj
        refine ⟨own, fun _ _ j' hj' => ⟨(d, reply), ?_⟩⟩
        rw [← Option.some.inj (hj.symm.trans hj')]
        exact hserve
      · exact ⟨0, fun hrp hrm j hj => absurd ⟨hrp, hrm, j, hj⟩ hasks⟩
    obtain ⟨later, hlater⟩ : ∃ later, PassedOver c msg me p r →
        ∃ q, runWith (serve later) me (tryReplicas me p.id msg rest) c = some q := by
      by_cases hpass : PassedOver c msg me p r
      · obtain ⟨later, d, reply, hrun⟩ := hrest hpass
        exact ⟨later, fun _ => ⟨(d, reply), hrun⟩⟩
      · exact ⟨0, fun h => absurd h hpass⟩
    refine ⟨max own later, ?_⟩
    rcases runWith_tryReplicas_cons (serve_tells hreq (max own later)) me p r rest with
      ⟨hpass, heq⟩ | ⟨-, -, -, v, -, heq⟩ | ⟨hrp, hrm, j, hl, -, heq⟩
    · obtain ⟨⟨d, reply⟩, hrun⟩ := hlater hpass
      refine ⟨d, reply, heq.trans ?_⟩
      exact runWith_mono (fun _ _ _ _ => serve_mono (Nat.le_max_right own later)) me _ _ _ hrun
    · exact ⟨_, _, heq⟩
    · obtain ⟨⟨d, reply⟩, hserve⟩ := hown hrp hrm j hl
      exact ⟨d, reply, heq.trans (serve_mono (Nat.le_max_left own later) hserve)⟩

theorem finishes_execute (hreq : msg.IsRequest) (me : Int) : Finishes c me (execute me msg) := by
  rcases hreq with htype | htype | htype
  · rw [execute, htype]
    exact ⟨0, _, _, runWith_executePut (serve 0) me c msg⟩
  · rw [execute, htype]
    exact ⟨0, _, _, runWith_executeGet (serve 0) me c msg⟩
  · rw [execute, htype]
    cases hs : (c.node me).storage.get msg.key with
    | none => exact ⟨0, _, _, runWith_executeDelete_of_none (serve 0) me c msg hs⟩
    | some v => exact ⟨0, _, _, runWith_executeDelete_of_some (serve 0) me c msg hs⟩

/-- One handler: it answers when every node it hands the request to does. -/
theorem replies_of_hands (hreq : msg.IsRequest) {i : Int}
    (hcall : ∀ j, Hands c msg i j → c.Replies j msg) : c.Replies i msg := by
  have hfin : Finishes c i (handle i msg) := by
    rw [handle_of_isRequest hreq]
    cases hp : (c.node i).ring.getPrimary msg.key with
    | none => exact ⟨0, _, _, runWith_route_of_none (serve 0) i c _ hp⟩
    | some p =>
      by_cases hself : p.id = i
      · obtain ⟨budget, d, reply, hrun⟩ := finishes_execute (c := c) hreq i
        exact ⟨budget, d, reply, (runWith_route_of_self _ i c _ hp hself).trans hrun⟩
      · cases hl : c.listener p.host p.port with
        | some j =>
          obtain ⟨budget, d, reply, hrun⟩ := hcall j ⟨p, hp, hself, Or.inl hl⟩
          exact ⟨budget, d, reply, (runWith_route_of_up _ i c _ hp hself hl).trans hrun⟩
        | none =>
          obtain ⟨budget, d, reply, hrun⟩ := finishes_tryReplicas hreq i p _
            fun before r after hlist hbefore hrp hri j hj =>
              hcall j ⟨p, hp, hself, Or.inr ⟨hl, before, r, after, hlist, hrp, hri, hj, hbefore⟩⟩
          exact ⟨budget, d, reply, (runWith_route_of_down _ i c _ hp hself hl).trans hrun⟩
  obtain ⟨budget, d, reply, hrun⟩ := hfin
  exact ⟨budget + 1, d, reply, hrun⟩

/-- The induction over the chains in which the request is handed on. -/
theorem replies_of_ends (hreq : msg.IsRequest) {i : Int}
    (hends : CallGraph.Ends (Hands c msg) i) : c.Replies i msg := by
  induction hends with
  | intro i _ ih => exact replies_of_hands hreq fun j hj => ih j hj

/-- The cluster with other stores. -/
def withStorage (c : Cluster) (storage : Int → StorageEngine) : Cluster :=
  { c with node := fun i => { c.node i with storage := storage i } }

theorem sameRouting_withStorage (c : Cluster) (storage : Int → StorageEngine) :
    SameRouting c (c.withStorage storage) := ⟨rfl, fun _ => rfl⟩

end Cluster
end DistributedDb
