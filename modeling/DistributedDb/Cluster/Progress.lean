import DistributedDb.Cluster.Healthy

/-
Every request of a healthy cluster is answered after at most twelve calls.

`Ends` bounds the calls of a program, together with the calls of the handlers
that it waits for.  It reads the ring and the addresses as they are when the
cluster is healthy; both stay so whatever the threads do.  Each step of a thread
then uses up one call of its bound, and no step of another thread adds to it.
-/

namespace DistributedDb
namespace Progress

open Coordinator Cluster

section Bounds

variable (base : HashRing) (listener : Bytes → Int → Option Int)

/-- On node `me` the program returns after at most that many calls. -/
inductive Ends : Nat → Int → Prog → Prop where
  | done {n : Nat} {me : Int} {reply : Message} : Ends (n + 1) me (.done reply)
  | markAlive {n : Nat} {me nodeId : Int} {next : Prog} (h : Ends n me next) :
      Ends (n + 1) me (.markAlive nodeId next)
  | getPrimary {n : Nat} {me : Int} {key : Bytes} {next : Option NodeInfo → Prog}
      (h : Ends n me (next (base.getPrimary key))) : Ends (n + 1) me (.getPrimary key next)
  | getReplicas {n : Nat} {me : Int} {key : Bytes} {next : List NodeInfo → Prog}
      (h : Ends n me (next (base.getReplicas key replicationFactor))) :
      Ends (n + 1) me (.getReplicas key replicationFactor next)
  | storagePut {n : Nat} {me : Int} {key value : Bytes} {next : Prog} (h : Ends n me next) :
      Ends (n + 1) me (.storagePut key value next)
  | storageGet {n : Nat} {me : Int} {key : Bytes} {next : Option Bytes → Prog}
      (h : ∀ val, Ends n me (next val)) : Ends (n + 1) me (.storageGet key next)
  | storageDel {n : Nat} {me : Int} {key : Bytes} {next : Bool → Prog}
      (h : ∀ removed, Ends n me (next removed)) : Ends (n + 1) me (.storageDel key next)
  | storagePairs {n : Nat} {me : Int} {next : List (Bytes × Bytes) → Prog}
      (h : ∀ pairs, Ends n me (next pairs)) : Ends (n + 1) me (.storagePairs next)
  | storagePutBatch {n : Nat} {me : Int} {pairs : List (Bytes × Bytes)} {next : Prog}
      (h : Ends n me next) : Ends (n + 1) me (.storagePutBatch pairs next)
  | election {n : Nat} {me : Int} {msg : Message} {next : Option Message → Prog}
      (h : ∀ reply, Ends n me (next reply)) : Ends (n + 1) me (.election msg next)
  | nowMs {n : Nat} {me : Int} {next : Int → Prog} (h : ∀ now, Ends n me (next now)) :
      Ends (n + 1) me (.nowMs next)
  | sendAndForget {n : Nat} {me : Int} {packet : Packet} {next : Prog} (h : Ends n me next) :
      Ends (n + 1) me (.sendAndForget packet next)
  /-- The handler of the receiver takes part of the calls, the caller the rest. -/
  | sendMessage {n k : Nat} {me j : Int} {host : Bytes} {port : Int} {msg : Message}
      {next : Option Message → Prog} (hlistens : listener host port = some j) (howns : base.Owns j)
      (hcallee : Ends k j (onMessage j msg)) (hcaller : ∀ reply, Ends n me (next (some reply))) :
      Ends (k + n + 1) me (.sendMessage host port msg next)

/-- The callers of a program return after at most that many further calls. -/
def CallersEnd : Nat → List Caller → Prop
  | _, [] => True
  | n, caller :: rest => base.Owns caller.node ∧ ∃ k l, n = k + l ∧
      (∀ reply, Ends base listener k caller.node (caller.next (some reply))) ∧ CallersEnd l rest

/-- The thread answers its client after at most that many calls. -/
def ThreadEnds (n : Nat) (th : Thread) : Prop :=
  base.Owns th.node ∧ ∃ k l, n = k + l ∧ Ends base listener k th.node th.prog ∧
    CallersEnd base listener l th.callers

end Bounds

variable {base : HashRing} {listener : Bytes → Int → Option Int}

/-! ## The handlers -/

theorem ends_sendAll {me : Int} {repl reply : Message} (replicas : List NodeInfo) {n : Nat}
    (hn : (replicas.filter fun r => decide (r.id ≠ me)).length < n) :
    Ends base listener n me (Replication.sendAll me repl (.done reply) replicas) := by
  induction replicas generalizing n with
  | nil =>
    obtain ⟨n, rfl⟩ := Nat.exists_eq_succ_of_ne_zero (Nat.ne_zero_of_lt hn)
    exact .done
  | cons r rest ih =>
    rw [Replication.sendAll]
    by_cases hr : r.id = me
    · rw [List.filter_cons_of_neg (by simpa using hr)] at hn
      rw [if_pos hr]
      exact ih hn
    · rw [List.filter_cons_of_pos (by simpa using hr), List.length_cons] at hn
      rw [if_neg hr]
      obtain ⟨n, rfl⟩ := Nat.exists_eq_succ_of_ne_zero (Nat.ne_zero_of_lt hn)
      exact .sendAndForget (ih (by omega))

/-- The primary of a key copies a write to at most two other nodes. -/
theorem length_copies_le {key : Bytes} {p : NodeInfo} (hp : base.getPrimary key = some p) :
    ((base.getReplicas key replicationFactor).filter fun r => decide (r.id ≠ p.id)).length ≤ 2 := by
  have htake : base.getReplicas key replicationFactor = (base.preference key).take 3 :=
    HashRing.getReplicas_eq_take base key (show 1 ≤ 3 by omega)
  rw [HashRing.getPrimary_eq_head?] at hp
  obtain ⟨rest, hrest⟩ := List.head?_eq_some_iff.mp hp
  rw [htake, hrest, List.take_succ_cons, List.filter_cons_of_neg (by simp)]
  exact (List.length_filter_le ..).trans (List.length_take_le ..)

theorem ends_replicate {key value : Bytes} {op : MsgType} {reply : Message} {p : NodeInfo}
    (hp : base.getPrimary key = some p) (n : Nat) :
    Ends base listener (n + 5) p.id (.getReplicas key replicationFactor fun replicas =>
      Replication.replicate p.id key value op replicas (.done reply)) := by
  have hlen := length_copies_le hp
  exact .getReplicas (.nowMs fun now => ends_sendAll _ (by omega))

theorem ends_execute {msg : Message} {p : NodeInfo} (hp : base.getPrimary msg.key = some p)
    (n : Nat) : Ends base listener (n + 6) p.id (execute p.id msg) := by
  unfold execute
  split
  · exact .storagePut (ends_replicate hp n)
  · refine .storageGet fun val => ?_
    cases val with
    | none => exact .done
    | some v => exact .done
  · refine .storageDel fun removed => ?_
    cases removed with
    | false => exact .done
    | true => exact ends_replicate hp n

/-- A request at its primary. -/
theorem ends_onMessage_primary {msg : Message} (hreq : msg.IsRequest) {p : NodeInfo}
    (hp : base.getPrimary msg.key = some p) (n : Nat) :
    Ends base listener (n + 8) p.id (onMessage p.id msg) := by
  rw [onMessage, handle_of_isRequest hreq]
  refine .markAlive (.getPrimary ?_)
  rw [hp]
  dsimp only
  rw [if_pos rfl]
  exact ends_execute hp n

/-- A request at any node: it is refused, executed, or forwarded once. -/
theorem ends_onMessage_request {c : Cluster} (hc : Healthy c base) {msg : Message}
    (hreq : msg.IsRequest) (me : Int) : Ends base c.listener 12 me (onMessage me msg) := by
  rw [onMessage, handle_of_isRequest hreq]
  refine .markAlive (.getPrimary ?_)
  cases hp : base.getPrimary msg.key with
  | none => exact .done
  | some p =>
    dsimp only
    split
    · rename_i hself
      subst hself
      exact ends_execute hp 4
    · have hcallee : Ends base c.listener (0 + 8) p.id (onMessage p.id msg) :=
        ends_onMessage_primary hreq hp 0
      refine .sendMessage (n := 1) (hc.listener_primary hp) (owns_of_getPrimary hp) hcallee ?_
      exact fun reply => .done

/-- Every message is answered, also one that no client should send. -/
theorem ends_onMessage {c : Cluster} (hc : Healthy c base) (msg : Message) (me : Int) :
    Ends base c.listener 12 me (onMessage me msg) := by
  by_cases hreq : msg.IsRequest
  · exact ends_onMessage_request hc hreq me
  · rw [onMessage, handle]
    refine .markAlive ?_
    cases htype : msg.type with
    | put => exact absurd (Or.inl htype) hreq
    | get => exact absurd (Or.inr (Or.inl htype)) hreq
    | del => exact absurd (Or.inr (Or.inr htype)) hreq
    | replicate =>
      show Ends base c.listener 11 me (Replication.handleReplicate me msg)
      rw [Replication.handleReplicate]
      split
      · exact .storageDel fun _ => .done
      · exact .storagePut .done
    | syncRequest => exact .storagePairs fun _ => .done
    | syncData =>
      show Ends base c.listener 11 me (Replication.handleSyncData msg _)
      rw [Replication.handleSyncData]
      split
      · exact .done
      · exact .storagePutBatch .done
    | election | leader =>
      refine .election fun reply => ?_
      cases reply with
      | none => exact .done
      | some r => exact .done
    | heartbeat | ack | unknown => exact .done

/-! ## One step -/

/-- A call on the own node uses up one call of the bound. -/
theorem ends_continues {c : Cluster} (hc : Healthy c base) {n : Nat} {me : Int} {p : Prog}
    (h : Ends base c.listener n me p) (hme : base.Owns me) {node : Node} {rest : Prog}
    {sent : List Packet} (hperf : p.perform me (c.node me) = .continues node rest sent) :
    ∃ k, n = k + 1 ∧ Ends base c.listener k me rest := by
  cases h with
  | done => simp [Prog.perform] at hperf
  | sendMessage hlistens howns hcallee hcaller => simp [Prog.perform] at hperf
  | getPrimary h =>
    simp only [Prog.perform, Outcome.continues.injEq] at hperf
    rw [hc.getPrimary hme] at hperf
    exact ⟨_, rfl, hperf.2.1 ▸ h⟩
  | getReplicas h =>
    simp only [Prog.perform, Outcome.continues.injEq] at hperf
    rw [hc.getReplicas hme] at hperf
    exact ⟨_, rfl, hperf.2.1 ▸ h⟩
  | markAlive h | storagePut h | storagePutBatch h | sendAndForget h =>
    simp only [Prog.perform, Outcome.continues.injEq] at hperf
    exact ⟨_, rfl, hperf.2.1 ▸ h⟩
  | storageGet h | storageDel h | storagePairs h | election h | nowMs h =>
    simp only [Prog.perform, Outcome.continues.injEq] at hperf
    exact ⟨_, rfl, hperf.2.1 ▸ h _⟩

theorem ends_calls {c : Cluster} {n : Nat} {me : Int} {p : Prog}
    (h : Ends base listener n me p) {host : Bytes} {port : Int} {msg : Message}
    {next : Option Message → Prog} (hperf : p.perform me (c.node me) = .calls host port msg next) :
    ∃ k l j, n = k + l + 1 ∧ listener host port = some j ∧ base.Owns j ∧
      Ends base listener k j (onMessage j msg) ∧
      ∀ reply, Ends base listener l me (next (some reply)) := by
  cases h with
  | sendMessage hlistens howns hcallee hcaller =>
    simp only [Prog.perform, Outcome.calls.injEq] at hperf
    obtain ⟨rfl, rfl, rfl, rfl⟩ := hperf
    exact ⟨_, _, _, rfl, hlistens, howns, hcallee, hcaller⟩
  | _ => simp [Prog.perform] at hperf

theorem ends_pos {n : Nat} {me : Int} {p : Prog} (h : Ends base listener n me p) : 0 < n := by
  cases h <;> exact Nat.succ_pos _

/-- A step of a thread ends it, or it goes on with fewer calls. -/
theorem runThread_ends {m : Machine} (hc : Healthy m.cluster base) {n : Nat} {th : Thread}
    (h : ThreadEnds base m.cluster.listener n th) (t : Nat) :
    (∃ reply, m.runThread t th = { m.setThread t none with
      trace := m.trace ++ Machine.answer t th.origin reply }) ∨
    ∃ k th', k < n ∧ th'.origin = th.origin ∧ ThreadEnds base m.cluster.listener k th' ∧
      (m.runThread t th).threads = Function.update m.threads t (some th') := by
  obtain ⟨hnode, k, l, rfl, hprog, hcallers⟩ := h
  cases hperf : th.prog.perform th.node (m.cluster.node th.node) with
  | finished reply =>
    cases hstack : th.callers with
    | nil =>
      refine Or.inl ⟨reply, ?_⟩
      simp only [Machine.runThread, hperf, hstack]
    | cons caller rest =>
      rw [hstack] at hcallers
      obtain ⟨howns, a, b, rfl, hcaller, hrest⟩ := hcallers
      have hpos := ends_pos hprog
      refine Or.inr ⟨a + b,
        { th with node := caller.node, prog := caller.next (some reply), callers := rest },
        by omega, rfl, ⟨howns, a, b, rfl, hcaller reply, hrest⟩, ?_⟩
      simp only [Machine.runThread, hperf, hstack, Machine.setThread]
  | continues node rest sent =>
    obtain ⟨k, rfl, hrest⟩ := ends_continues hc hprog hnode hperf
    refine Or.inr ⟨k + l, { th with prog := rest }, by omega, rfl,
      ⟨hnode, k, l, rfl, hrest, hcallers⟩, ?_⟩
    rw [Machine.runThread_continues hperf]
    rfl
  | calls host port msg next =>
    obtain ⟨a, b, j, rfl, hlistens, howns, hcallee, hcaller⟩ := ends_calls hprog hperf
    refine Or.inr ⟨a + (b + l),
      { th with
        node := j
        prog := onMessage j msg
        callers := { node := th.node, next := next } :: th.callers },
      by omega, rfl, ⟨howns, a, b + l, rfl, hcallee, hnode, b, l, rfl, hcaller, hcallers⟩, ?_⟩
    simp only [Machine.runThread, hperf, hlistens, Machine.setThread]

/-- No step of any thread changes the ring or the addresses. -/
theorem healthy_runThread {m : Machine} (hc : Healthy m.cluster base) (t : Nat) (th : Thread) :
    Healthy (m.runThread t th).cluster base ∧
      (m.runThread t th).cluster.listener = m.cluster.listener := by
  cases hperf : th.prog.perform th.node (m.cluster.node th.node) with
  | finished reply =>
    cases hstack : th.callers with
    | nil =>
      simp only [Machine.runThread, hperf, hstack]
      exact ⟨hc, rfl⟩
    | cons caller rest =>
      simp only [Machine.runThread, hperf, hstack]
      exact ⟨hc, rfl⟩
  | continues node rest sent =>
    rw [Machine.runThread_continues hperf]
    exact ⟨hc.perform hperf, rfl⟩
  | calls host port msg next =>
    cases hl : m.cluster.listener host port with
    | none =>
      simp only [Machine.runThread, hperf, hl]
      exact ⟨hc, rfl⟩
    | some j =>
      simp only [Machine.runThread, hperf, hl]
      exact ⟨hc, rfl⟩

/-- A step moves or ends its own thread, which goes on for the same client. -/
theorem runThread_threads (m : Machine) (t : Nat) (th : Thread) :
    (m.runThread t th).next = m.next ∧
      ∃ th', (m.runThread t th).threads = Function.update m.threads t th' ∧
        ∀ x, th' = some x → x.origin = th.origin := by
  unfold Machine.runThread
  split
  · split
    · exact ⟨rfl, none, rfl, by simp⟩
    · exact ⟨rfl, some _, rfl, fun x hx => Option.some.inj hx ▸ rfl⟩
  · exact ⟨rfl, some _, rfl, fun x hx => Option.some.inj hx ▸ rfl⟩
  · split
    · exact ⟨rfl, some _, rfl, fun x hx => Option.some.inj hx ▸ rfl⟩
    · exact ⟨rfl, some _, rfl, fun x hx => Option.some.inj hx ▸ rfl⟩

/-- Left to itself, the thread of a request answers it. -/
theorem exists_respond {m : Machine} (hc : Healthy m.cluster base) {t : Nat} {th : Thread}
    (ht : m.threads t = some th) {msg : Message} (horigin : th.origin = some msg) {n : Nat}
    (h : ThreadEnds base m.cluster.listener n th) :
    ∃ k m' reply, k ≤ n ∧
      Runs.exec Machine.step m (List.replicate k (.run t)) = some m' ∧
      .respond t msg reply ∈ m'.trace := by
  induction n using Nat.strong_induction_on generalizing m th with
  | _ n ih =>
    have hstep : m.step (.run t) = some (m.runThread t th) := by
      rw [Machine.step, ht]
      rfl
    rcases runThread_ends hc h t with ⟨reply, hend⟩ | ⟨k, th', hk, horigin', hends, hthreads⟩
    · refine ⟨1, _, reply, ?_, Runs.exec_cons.mpr ⟨_, hstep, rfl⟩, ?_⟩
      · obtain ⟨-, k, l, rfl, hprog, -⟩ := h
        have := ends_pos hprog
        omega
      · rw [hend, horigin]
        exact List.mem_append_right _ (List.mem_singleton_self _)
    · obtain ⟨hc', hl⟩ := healthy_runThread hc t th
      rw [← hl] at hends
      have ht' : (m.runThread t th).threads t = some th' := by
        rw [hthreads, Function.update_self]
      obtain ⟨j, m', reply, hj, hrun, hmem⟩ := ih k hk hc' ht' (horigin'.trans horigin) hends
      exact ⟨j + 1, m', reply, by omega, Runs.exec_cons.mpr ⟨_, hstep, hrun⟩, hmem⟩

/-! ## Runs -/

/-- The action is a step of thread `t`. -/
def isStepOf (t : Nat) : Action → Bool
  | .run u => u == t
  | _ => false

/-- How often the thread was run. -/
def ownSteps (t : Nat) (actions : List Action) : Nat := actions.countP (isStepOf t)

theorem ownSteps_run_self (t : Nat) (actions : List Action) :
    ownSteps t (actions ++ [.run t]) = ownSteps t actions + 1 := by
  simp [ownSteps, isStepOf]

theorem ownSteps_concat {t : Nat} {a : Action} (h : isStepOf t a = false)
    (actions : List Action) : ownSteps t (actions ++ [a]) = ownSteps t actions := by
  simp [ownSteps, h]

/-- Nodes of the ring take any message from clients, the network does what it
likes, clocks move and data is transferred.  No node restarts. -/
def Allowed (base : HashRing) : Action → Prop
  | .invoke i _ => base.Owns i
  | .restart _ _ => False
  | _ => True

structure Inv (base : HashRing) (actions : List Action) (m : Machine) : Prop where
  healthy : Healthy m.cluster base
  fresh : ∀ t, m.next ≤ t → m.threads t = none ∧ ownSteps t actions = 0
  running : ∀ t th, m.threads t = some th →
    (th.origin = none ∧ ∀ msg, .invoke t msg ∉ m.trace) ∨
    ∃ n, ownSteps t actions + n ≤ 12 ∧ ThreadEnds base m.cluster.listener n th
  bounded : ∀ t msg, .invoke t msg ∈ m.trace → t < m.next ∧ ownSteps t actions ≤ 12

/-- Nothing but the network, the clocks and the stores change. -/
theorem Inv.environment {actions : List Action} {m : Machine} (h : Inv base actions m)
    {a : Action} (ha : ∀ t, isStepOf t a = false) {c : Cluster} (hsame : SameRouting m.cluster c) :
    Inv base (actions ++ [a]) { m with cluster := c } where
  healthy := h.healthy.sameRouting hsame
  fresh t ht := by
    rw [ownSteps_concat (ha t)]
    exact h.fresh t ht
  running t th ht := by
    rw [ownSteps_concat (ha t)]
    show _ ∨ ∃ n, _ ∧ ThreadEnds base c.listener n th
    rw [hsame.listener]
    exact h.running t th ht
  bounded t msg ht := by
    rw [ownSteps_concat (ha t)]
    exact h.bounded t msg ht

/-- A thread starts under a new name, for a client or for the node itself. -/
theorem Inv.spawn {actions : List Action} {m : Machine} (h : Inv base actions m) {a : Action}
    (ha : ∀ t, isStepOf t a = false) (th : Thread) (ext : List Event) {c : Cluster}
    (hsame : SameRouting m.cluster c)
    (hext : ∀ u msg, .invoke u msg ∈ ext → u = m.next ∧ th.origin = some msg)
    (hends : th.origin = none ∨ ThreadEnds base m.cluster.listener 12 th) :
    Inv base (actions ++ [a]) { m.spawn th with cluster := c, trace := m.trace ++ ext } where
  healthy := h.healthy.sameRouting hsame
  fresh t ht := by
    have hlt : m.next < t := ht
    rw [ownSteps_concat (ha t)]
    obtain ⟨hnone, hsteps⟩ := h.fresh t (le_of_lt hlt)
    exact ⟨(Function.update_of_ne (by omega) ..).trans hnone, hsteps⟩
  running t th' ht := by
    rw [ownSteps_concat (ha t)]
    show _ ∨ ∃ n, _ ∧ ThreadEnds base c.listener n th'
    rw [hsame.listener]
    by_cases htn : t = m.next
    · subst htn
      obtain rfl := Option.some.inj ((Function.update_self m.next _ m.threads).symm.trans ht)
      rw [(h.fresh m.next le_rfl).2]
      rcases hends with hnone | hends
      · refine Or.inl ⟨hnone, fun msg hmsg => ?_⟩
        rcases List.mem_append.mp hmsg with hmsg | hmsg
        · exact absurd (h.bounded _ msg hmsg).1 (lt_irrefl _)
        · exact absurd ((hext _ msg hmsg).2.symm.trans hnone) (by simp)
      · exact Or.inr ⟨12, le_rfl, hends⟩
    · rcases h.running t th' ((Function.update_of_ne htn ..).symm.trans ht) with hback | hrun
      · refine Or.inl ⟨hback.1, fun msg hmsg => ?_⟩
        rcases List.mem_append.mp hmsg with hmsg | hmsg
        · exact hback.2 msg hmsg
        · exact htn (hext t msg hmsg).1
      · exact Or.inr hrun
  bounded t msg ht := by
    rw [ownSteps_concat (ha t)]
    rcases List.mem_append.mp ht with ht | ht
    · obtain ⟨hlt, hsteps⟩ := h.bounded t msg ht
      exact ⟨Nat.lt_succ_of_lt hlt, hsteps⟩
    · obtain ⟨rfl, -⟩ := hext t msg ht
      rw [(h.fresh m.next le_rfl).2]
      exact ⟨Nat.lt_succ_self _, Nat.zero_le _⟩

theorem isStepOf_of_ne {t u : Nat} (h : u ≠ t) : isStepOf u (.run t) = false := by
  simpa [isStepOf] using Ne.symm h

theorem inv_run {actions : List Action} {m : Machine} (h : Inv base actions m) {t : Nat}
    {th : Thread} (ht : m.threads t = some th) :
    Inv base (actions ++ [.run t]) (m.runThread t th) := by
  have hstep : m.step (.run t) = some (m.runThread t th) := by
    rw [Machine.step, ht]
    rfl
  obtain ⟨ext, htrace, hext⟩ := Machine.exists_trace_of_step (by simp) hstep
  obtain ⟨hc, hl⟩ := healthy_runThread h.healthy t th
  obtain ⟨hnext, th', hthreads, horigin⟩ := runThread_threads m t th
  have hinvoke : ∀ u msg, .invoke u msg ∈ (m.runThread t th).trace → .invoke u msg ∈ m.trace := by
    intro u msg hu
    rw [htrace] at hu
    exact (List.mem_append.mp hu).resolve_right (hext u msg)
  -- What the bound of the thread becomes; a thread without a client has none.
  have hself : (th.origin = none ∧ ∀ msg, .invoke t msg ∉ m.trace) ∨
      (ownSteps t actions + 1 ≤ 12 ∧ ∀ x, th' = some x →
        ∃ n, ownSteps t actions + 1 + n ≤ 12 ∧ ThreadEnds base m.cluster.listener n x) := by
    rcases h.running t th ht with hback | ⟨n, hn, hends⟩
    · exact Or.inl hback
    · refine Or.inr ?_
      obtain ⟨-, k, l, rfl, hprog, -⟩ := id hends
      have hpos := ends_pos hprog
      refine ⟨by omega, fun x hx => ?_⟩
      rcases runThread_ends h.healthy hends t with ⟨reply, hend⟩ | ⟨j, x', hj, -, hx', hmove⟩
      · rw [hend] at hthreads
        have hnone : Function.update m.threads t none t = Function.update m.threads t th' t :=
          congrFun hthreads t
        rw [Function.update_self, Function.update_self, hx] at hnone
        exact absurd hnone (by simp)
      · have heq := congrFun (hmove.symm.trans hthreads) t
        rw [Function.update_self, Function.update_self, hx, Option.some.injEq] at heq
        exact ⟨j, by omega, heq ▸ hx'⟩
  refine ⟨hc, fun u hu => ?_, fun u x hu => ?_, fun u msg hu => ?_⟩
  · rw [hnext] at hu
    have hut : u ≠ t := by
      rintro rfl
      exact absurd ((h.fresh u hu).1.symm.trans ht) (by simp)
    rw [hthreads, Function.update_of_ne hut, ownSteps_concat (isStepOf_of_ne hut)]
    exact h.fresh u hu
  · rw [hl]
    rw [hthreads] at hu
    by_cases hut : u = t
    · subst hut
      rw [Function.update_self] at hu
      rw [ownSteps_run_self]
      rcases hself with ⟨hnone, hno⟩ | ⟨-, hx⟩
      · exact Or.inl ⟨(horigin x hu).trans hnone, fun msg hmsg => hno msg (hinvoke u msg hmsg)⟩
      · exact Or.inr (hx x hu)
    · rw [Function.update_of_ne hut] at hu
      rw [ownSteps_concat (isStepOf_of_ne hut)]
      rcases h.running u x hu with ⟨hnone, hno⟩ | hx
      · exact Or.inl ⟨hnone, fun msg hmsg => hno msg (hinvoke u msg hmsg)⟩
      · exact Or.inr hx
  · obtain ⟨hlt, hsteps⟩ := h.bounded u msg (hinvoke u msg hu)
    refine ⟨hnext ▸ hlt, ?_⟩
    by_cases hut : u = t
    · subst hut
      rw [ownSteps_run_self]
      rcases hself with ⟨-, hno⟩ | ⟨hbound, -⟩
      · exact absurd (hinvoke u msg hu) (hno msg)
      · exact hbound
    · rw [ownSteps_concat (isStepOf_of_ne hut)]
      exact hsteps

theorem inv_step {actions : List Action} {m m' : Machine} {a : Action} (ha : Allowed base a)
    (h : Inv base actions m) (hstep : m.step a = some m') : Inv base (actions ++ [a]) m' := by
  cases a with
  | run t =>
    obtain ⟨th, ht, rfl⟩ := Option.map_eq_some_iff.mp hstep
    exact inv_run h ht
  | invoke i msg =>
    obtain rfl := Option.some.inj hstep
    refine h.spawn (fun _ => rfl) _ _ (.refl _) (fun u msg' hu => ?_) (Or.inr ?_)
    · rw [List.mem_singleton, Event.invoke.injEq] at hu
      exact ⟨hu.1, by rw [hu.2]⟩
    · exact ⟨ha, 12, 0, rfl, ends_onMessage h.healthy msg i, trivial⟩
  | deliver packet again =>
    obtain ⟨-, j, flight, -, -, rfl⟩ := Machine.exists_of_step_deliver hstep
    have hspawn := h.spawn (a := .deliver packet again) (fun _ => rfl)
      { origin := none, node := j, prog := onMessage j packet.msg, callers := [] } []
      (c := { m.cluster with inFlight := flight }) ⟨rfl, fun _ => rfl⟩ (by simp) (Or.inl rfl)
    rwa [List.append_nil] at hspawn
  | sync i peer =>
    obtain rfl := Option.some.inj hstep
    have hspawn := h.spawn (a := .sync i peer) (fun _ => rfl)
      { origin := none, node := i, prog := Replication.syncFromPeer i peer, callers := [] }
      [] (.refl m.cluster) (by simp) (Or.inl rfl)
    rwa [List.append_nil] at hspawn
  | lose packet | send packet =>
    obtain rfl := Option.some.inj hstep
    exact h.environment (fun _ => rfl) ⟨rfl, fun _ => rfl⟩
  | tick i now =>
    obtain rfl := Option.some.inj hstep
    exact h.environment (fun _ => rfl) (SameRouting.setNode rfl)
  | restart self peers => exact absurd ha id

theorem inv_idle {c : Cluster} (hc : Healthy c base) : Inv base [] (Machine.idle c) where
  healthy := hc
  fresh _ _ := ⟨rfl, rfl⟩
  running t th ht := absurd ht (by simp [Machine.idle])
  bounded t msg ht := absurd ht (by simp [Machine.idle])

end Progress
end DistributedDb
