import DistributedDb.Cluster.Footprint
import DistributedDb.Cluster.Healthy
import DistributedDb.Lib.Linearize

/-
A healthy cluster behaves like one copy of each key.

Every node routes a request on a key to the same primary, the primary reads or
writes its store in one call, and from that call on the reply is settled.  No
`REPLICATE` of the key is ever addressed to its primary, so the store of the
primary changes at these calls only.  The order of the calls is the order of the
sequential map.
-/

namespace DistributedDb
namespace SingleCopy

open Coordinator Cluster Linearize

/-- One key of a sequential map, answering as node `primary`. -/
def register (primary : Int) (held : Option Bytes) (msg : Message) : Option Bytes × Message :=
  match msg.type with
  | .put => (some msg.value, makeAck primary true [])
  | .get =>
    match held with
    | none => (none, makeError primary (ascii "Key not found: " ++ msg.key))
    | some v => (some v, makeAck primary true v)
  | _ =>
    match held with
    | none => (none, makeError primary (ascii "Key not found: " ++ msg.key))
    | some _ => (none, makeAck primary true [])

theorem register_put {primary : Int} {held : Option Bytes} {msg : Message} (h : msg.type = .put) :
    register primary held msg = (some msg.value, makeAck primary true []) := by
  simp only [register, h]

theorem register_get {primary : Int} {held : Option Bytes} {msg : Message} (h : msg.type = .get) :
    register primary held msg =
      match held with
      | none => (none, makeError primary (ascii "Key not found: " ++ msg.key))
      | some v => (some v, makeAck primary true v) := by
  simp only [register, h]

theorem register_del {primary : Int} {held : Option Bytes} {msg : Message} (h : msg.type = .del) :
    register primary held msg =
      match held with
      | none => (none, makeError primary (ascii "Key not found: " ++ msg.key))
      | some _ => (none, makeAck primary true []) := by
  simp only [register, h]

/-- The requests on `key` and their replies. -/
def history (key : Bytes) (trace : List DistributedDb.Event) :
    List (Linearize.Event Message Message) :=
  trace.filterMap fun e =>
    match e with
    | .invoke t msg => if msg.key = key then some (.invoke t msg) else none
    | .respond t msg reply => if msg.key = key then some (.respond t msg reply) else none
    | .access _ _ | .batch _ => none

theorem history_append (key : Bytes) (a b : List DistributedDb.Event) :
    history key (a ++ b) = history key a ++ history key b :=
  List.filterMap_append

theorem history_label (key : Bytes) (t : Nat) (i : Int) (p : Prog) :
    history key (Machine.label t i p) = [] := by
  cases p <;> rfl

theorem invoke_mem_history {key : Bytes} {trace : List DistributedDb.Event} {t : Nat}
    {msg : Message} :
    Linearize.Event.invoke t msg ∈ history key trace ↔
      DistributedDb.Event.invoke t msg ∈ trace ∧ msg.key = key := by
  rw [history, List.mem_filterMap]
  constructor
  · intro h
    obtain ⟨e, he, hmap⟩ := h
    cases e with
    | invoke t' msg' =>
      by_cases hk : msg'.key = key
      · simp only [hk, if_true, Option.some.injEq, Linearize.Event.invoke.injEq] at hmap
        obtain ⟨rfl, rfl⟩ := hmap
        exact ⟨he, hk⟩
      · simp [hk] at hmap
    | respond t' msg' reply' =>
      by_cases hk : msg'.key = key <;> simp [hk] at hmap
    | access t' i => simp at hmap
    | batch i => simp at hmap
  · intro h
    exact ⟨_, h.1, by simp [h.2]⟩

section Invariant

variable (base : HashRing) (listener : Bytes → Int → Option Int) (key : Bytes) (p : NodeInfo)

/-- A packet that does not write `key` on its primary. -/
def Harmless (packet : Packet) : Prop :=
  packet.msg.IsOneWay ∧ (packet.msg.type = .replicate → packet.msg.key = key →
    listener packet.host packet.port ≠ some p.id)

/-- The request has not reached the store. -/
structure Underway (msg : Message) (th : Thread) : Prop where
  path : (th.callers = [] ∧ base.Owns th.node) ∨
    (th.node = p.id ∧ ∃ caller, th.callers = [caller] ∧ Passes caller.next)
  prog : th.prog = onMessage th.node msg ∨ th.prog = handle th.node msg ∨
    (th.node = p.id ∧ th.prog = execute p.id msg) ∨
    (th.callers = [] ∧ ∃ next, th.prog = .sendMessage p.host p.port msg next ∧ Passes next)

/-- What may still be called once the reply is settled. -/
def Finishing (reply : Message) : Prog → Prop
  | .done r => r = reply
  | .nowMs _ => True
  | .sendAndForget packet _ => Harmless listener key p packet
  | _ => False

/-- The request has been executed and `reply` is on its way back. -/
structure Settled (reply : Message) (th : Thread) : Prop where
  path : th.callers = [] ∨ ∃ caller, th.callers = [caller] ∧ Passes caller.next
  prog : th.prog.Every (Finishing listener key p reply) ∨
    (th.node = p.id ∧ ∃ value op, th.prog = .getReplicas key replicationFactor fun replicas =>
      Replication.replicate p.id key value op replicas (.done reply))

/-- What is known of thread `t`, with the order of the requests executed so
far. -/
inductive ThreadOk (trace : List DistributedDb.Event) (order : List (Entry Message Message))
    (t : Nat) (th : Thread) : Prop where
  | background (horigin : th.origin = none) (hcallers : th.callers = [])
      (hlocal : th.prog.Every Prog.IsLocal)
      (hleaves : th.node = p.id → th.prog.Every (Footprint.avoiding key).Within)
  | elsewhere {msg : Message} (horigin : th.origin = some msg) (hkey : msg.key ≠ key)
      (hprog : th.prog.Every (Footprint.avoiding key).Within)
      (hcallers : ∀ caller ∈ th.callers, ∀ r, (caller.next r).Every (Footprint.avoiding key).Within)
  | underway {msg : Message} (horigin : th.origin = some msg) (hreq : msg.IsRequest)
      (hkey : msg.key = key) (hinvoked : DistributedDb.Event.invoke t msg ∈ trace)
      (hopen : t ∉ order.map Entry.id) (hstage : Underway base p msg th)
  | settled {msg reply : Message} (horigin : th.origin = some msg) (hkey : msg.key = key)
      (hdone : ⟨t, msg, reply⟩ ∈ order) (hstage : Settled listener key p reply th)

/-- The invariant of a run that started with `held` in the store of the primary. -/
structure Inv (held : Option Bytes) (m : Machine) (order : List (Entry Message Message)) :
    Prop where
  healthy : Healthy m.cluster base
  wired : m.cluster.listener = listener
  packets : ∀ packet ∈ m.cluster.inFlight, Harmless listener key p packet
  threads : ∀ t th, m.threads t = some th →
    t < m.next ∧ ThreadOk base listener key p m.trace order t th
  fresh : ∀ t msg, DistributedDb.Event.invoke t msg ∈ m.trace → t < m.next
  recorded : Recorded (register p.id) held (history key m.trace) order
  store : (m.cluster.node p.id).storage.get key = final (register p.id) held order

end Invariant

section Steps

variable {base : HashRing} {listener : Bytes → Int → Option Int} {key : Bytes} {p : NodeInfo}
  {held : Option Bytes} {m : Machine} {order : List (Entry Message Message)}

/-- What is known of a thread stays true while others run: the trace grows, and
the order grows by requests of other threads. -/
theorem ThreadOk.extend {trace ext : List DistributedDb.Event}
    {more : List (Entry Message Message)} {t : Nat} {th : Thread}
    (h : ThreadOk base listener key p trace order t th) (hmore : t ∉ more.map Entry.id) :
    ThreadOk base listener key p (trace ++ ext) (order ++ more) t th := by
  cases h with
  | background horigin hcallers hlocal hleaves =>
    exact .background horigin hcallers hlocal hleaves
  | elsewhere horigin hkey hprog hcallers => exact .elsewhere horigin hkey hprog hcallers
  | underway horigin hreq hkey hinvoked hopen hstage =>
    refine .underway horigin hreq hkey (List.mem_append_left ext hinvoked) ?_ hstage
    rw [List.map_append, List.mem_append]
    exact fun hmem => hmem.elim hopen hmore
  | settled horigin hkey hdone hstage =>
    exact .settled horigin hkey (List.mem_append_left more hdone) hstage

theorem ThreadOk.extend_trace {trace : List DistributedDb.Event} {t : Nat} {th : Thread}
    (h : ThreadOk base listener key p trace order t th) (ext : List DistributedDb.Event) :
    ThreadOk base listener key p (trace ++ ext) order t th := by
  have hext : ThreadOk base listener key p (trace ++ ext) (order ++ []) t th :=
    h.extend List.not_mem_nil
  rwa [List.append_nil] at hext

/-- One thread moves, and with it the cluster and possibly the order. -/
theorem Inv.update (h : Inv base listener key p held m order) (m' : Machine)
    (more : List (Entry Message Message)) (ext : List DistributedDb.Event) (t : Nat)
    (hnext : m.next ≤ m'.next) (ht : t < m'.next)
    (hothers : ∀ u, u ≠ t → m'.threads u = m.threads u)
    (hself : ∀ th, m'.threads t = some th →
      ThreadOk base listener key p m'.trace (order ++ more) t th)
    (hmore : ∀ e ∈ more, e.id = t) (htrace : m'.trace = m.trace ++ ext)
    (hext : ∀ u msg, DistributedDb.Event.invoke u msg ∈ ext → u = t)
    (hhealthy : Healthy m'.cluster base) (hwired : m'.cluster.listener = listener)
    (hpackets : ∀ packet ∈ m'.cluster.inFlight, Harmless listener key p packet)
    (hrecorded : Recorded (register p.id) held (history key m'.trace) (order ++ more))
    (hstore : (m'.cluster.node p.id).storage.get key =
      final (register p.id) held (order ++ more)) :
    Inv base listener key p held m' (order ++ more) where
  healthy := hhealthy
  wired := hwired
  packets := hpackets
  threads u th hu := by
    by_cases hut : u = t
    · subst hut
      exact ⟨ht, hself th hu⟩
    · rw [hothers u hut] at hu
      obtain ⟨hlt, hok⟩ := h.threads u th hu
      refine ⟨by omega, ?_⟩
      rw [htrace]
      refine hok.extend fun hmem => ?_
      obtain ⟨e, he, hid⟩ := List.mem_map.mp hmem
      exact hut (hid.symm.trans (hmore e he))
  fresh u msg hu := by
    rw [htrace] at hu
    rcases List.mem_append.mp hu with hu | hu
    · have := h.fresh u msg hu
      omega
    · rw [hext u msg hu]
      exact ht
  recorded := hrecorded
  store := hstore

theorem history_concat_label (t : Nat) (th : Thread) :
    history key (m.trace ++ Machine.label t th.node th.prog) = history key m.trace := by
  rw [history_append, history_label, List.append_nil]

/-- A thread makes a call on its own node. -/
theorem Inv.continues (h : Inv base listener key p held m order)
    (more : List (Entry Message Message)) {t : Nat} {th : Thread} {n : Node} {rest : Prog}
    {sent : List Packet} (ht : m.threads t = some th)
    (hperf : th.prog.perform th.node (m.cluster.node th.node) = .continues n rest sent)
    (hsent : ∀ packet ∈ sent, Harmless listener key p packet)
    (hmore : ∀ e ∈ more, e.id = t)
    (hok : ThreadOk base listener key p (m.trace ++ Machine.label t th.node th.prog)
      (order ++ more) t { th with prog := rest })
    (hrecorded : Recorded (register p.id) held (history key m.trace) (order ++ more))
    (hstore : ((m.cluster.setNode th.node n).node p.id).storage.get key =
      final (register p.id) held (order ++ more)) :
    Inv base listener key p held (m.runThread t th) (order ++ more) := by
  rw [Machine.runThread_continues hperf]
  refine h.update _ more _ t (le_refl _) (h.threads t th ht).1 (fun u hu => ?_) (fun th' hth' => ?_)
    hmore rfl ?_ (h.healthy.perform hperf) h.wired ?_ ?_ hstore
  · exact Function.update_of_ne hu ..
  · have hth : some { th with prog := rest } = some th' :=
      (Function.update_self t _ m.threads).symm.trans hth'
    exact Option.some.inj hth ▸ hok
  · intro u msg hu
    cases hprog : th.prog <;> simp [hprog, Machine.label] at hu
  · intro packet hp
    rcases List.mem_append.mp hp with hp | hp
    · exact h.packets packet hp
    · exact hsent packet hp
  · show Recorded _ _ (history key (m.trace ++ Machine.label t th.node th.prog)) _
    rw [history_concat_label]
    exact hrecorded

/-- A call that does not change what the primary stores under the key. -/
theorem Inv.continues_quiet {t : Nat} {th : Thread} {n : Node} {rest : Prog} {sent : List Packet}
    (h : Inv base listener key p held m order) (ht : m.threads t = some th)
    (hperf : th.prog.perform th.node (m.cluster.node th.node) = .continues n rest sent)
    (hsent : ∀ packet ∈ sent, Harmless listener key p packet)
    (hget : th.node = p.id → n.storage.get key = (m.cluster.node th.node).storage.get key)
    (hok : ThreadOk base listener key p (m.trace ++ Machine.label t th.node th.prog) order t
      { th with prog := rest }) :
    Inv base listener key p held (m.runThread t th) order := by
  have hmain := h.continues [] ht hperf hsent (by simp)
  rw [List.append_nil] at hmain
  refine hmain hok h.recorded ?_
  rw [← h.store]
  by_cases hnode : th.node = p.id
  · rw [← hnode, setNode_node_self]
    exact hget hnode
  · rw [setNode_node_of_ne m.cluster n (Ne.symm hnode)]

/-- A thread moves to another program without touching the cluster. -/
theorem Inv.moves {t : Nat} {th th' : Thread} (h : Inv base listener key p held m order)
    (ht : m.threads t = some th) (hok : ThreadOk base listener key p m.trace order t th') :
    Inv base listener key p held (m.setThread t (some th')) order := by
  have hmain := h.update (m.setThread t (some th')) [] [] t
    (le_refl _) (h.threads t th ht).1 (fun u hu => Function.update_of_ne hu ..)
  rw [List.append_nil] at hmain
  refine hmain (fun th'' hth'' => ?_) (by simp) (List.append_nil _).symm (by simp) h.healthy
    h.wired h.packets h.recorded h.store
  have hth : some th' = some th'' := (Function.update_self t _ m.threads).symm.trans hth''
  exact Option.some.inj hth ▸ hok

/-- A thread ends. -/
theorem Inv.ends {t : Nat} {th : Thread} {ext : List DistributedDb.Event}
    (h : Inv base listener key p held m order) (ht : m.threads t = some th)
    (hext : ∀ u msg, DistributedDb.Event.invoke u msg ∉ ext)
    (hrecorded : Recorded (register p.id) held (history key (m.trace ++ ext)) order) :
    Inv base listener key p held { m.setThread t none with trace := m.trace ++ ext } order := by
  have hmain := h.update { m.setThread t none with trace := m.trace ++ ext } [] ext t
    (le_refl _) (h.threads t th ht).1 (fun u hu => Function.update_of_ne hu ..)
  rw [List.append_nil] at hmain
  refine hmain (fun th' hth' => ?_) (by simp) rfl (fun u msg hu => absurd hu (hext u msg))
    h.healthy h.wired h.packets hrecorded h.store
  have hth : none = some th' := (Function.update_self t _ m.threads).symm.trans hth'
  exact absurd hth (by simp)

/-! ## The steps of a thread -/

theorem harmless_of_avoiding {packet : Packet} (h : (Footprint.avoiding key).OneWay packet.msg) :
    Harmless listener key p packet := by
  refine ⟨h.isOneWay, fun hrep hkey => ?_⟩
  by_cases herror : packet.msg.error = ascii "DEL"
  · exact absurd hkey (h.del hrep herror)
  · exact absurd hkey (h.put hrep herror)

theorem inv_background (h : Inv base listener key p held m order) {t : Nat} {th : Thread}
    (ht : m.threads t = some th) (horigin : th.origin = none) (hcallers : th.callers = [])
    (hlocal : th.prog.Every Prog.IsLocal)
    (hleaves : th.node = p.id → th.prog.Every (Footprint.avoiding key).Within) :
    Inv base listener key p held (m.runThread t th) order := by
  cases hperf : th.prog.perform th.node (m.cluster.node th.node) with
  | finished reply =>
    simp only [Machine.runThread, hperf, hcallers, horigin, Machine.answer]
    refine h.ends ht (by simp) ?_
    rw [List.append_nil]
    exact h.recorded
  | continues n rest sent =>
    have hsent := Prog.sent_of_isLocal hlocal.head hperf
    refine h.continues_quiet ht hperf (by simp [hsent])
      (fun hnode => Footprint.get_of_within_avoiding (hleaves hnode).head hperf) ?_
    exact .background horigin hcallers (hlocal.continues hperf)
      fun hnode => (hleaves hnode).continues hperf
  | calls host port msg next => exact absurd (hlocal.calls hperf).1 id

theorem inv_elsewhere (h : Inv base listener key p held m order) {t : Nat} {th : Thread}
    {msg : Message} (ht : m.threads t = some th) (horigin : th.origin = some msg)
    (hkey : msg.key ≠ key) (hprog : th.prog.Every (Footprint.avoiding key).Within)
    (hcallers : ∀ caller ∈ th.callers, ∀ r, (caller.next r).Every (Footprint.avoiding key).Within) :
    Inv base listener key p held (m.runThread t th) order := by
  cases hperf : th.prog.perform th.node (m.cluster.node th.node) with
  | finished reply =>
    cases hc : th.callers with
    | nil =>
      simp only [Machine.runThread, hperf, hc, horigin, Machine.answer]
      refine h.ends ht (by simp) ?_
      rw [history_append]
      simpa [history, hkey] using h.recorded
    | cons caller rest =>
      simp only [Machine.runThread, hperf, hc]
      rw [hc] at hcallers
      exact h.moves ht (.elsewhere horigin hkey (hcallers caller List.mem_cons_self _)
        fun c hmem => hcallers c (List.mem_cons_of_mem caller hmem))
  | continues n rest sent =>
    refine h.continues_quiet ht hperf ?_
      (fun _ => Footprint.get_of_within_avoiding hprog.head hperf)
      (.elsewhere horigin hkey (hprog.continues hperf) hcallers)
    intro packet hmem
    exact harmless_of_avoiding (Footprint.oneWay_of_sent hprog.head hperf packet hmem)
  | calls host port msg' next =>
    obtain ⟨hreq, hnext⟩ := hprog.calls hperf
    cases hl : m.cluster.listener host port with
    | none =>
      simp only [Machine.runThread, hperf, hl]
      exact h.moves ht (.elsewhere horigin hkey (hnext none) hcallers)
    | some j =>
      simp only [Machine.runThread, hperf, hl]
      refine h.moves ht (.elsewhere horigin hkey (Footprint.within_onMessage hreq trivial) ?_)
      intro caller hmem
      rcases List.mem_cons.mp hmem with rfl | hmem
      · exact hnext
      · exact hcallers caller hmem

/-- Sending the copies of a write leads to the settled reply. -/
theorem finishing_replicate (hhealthy : Healthy m.cluster base)
    (hwired : m.cluster.listener = listener) (value : Bytes) (op : MsgType) (reply : Message) :
    (Replication.replicate p.id key value op (base.getReplicas key replicationFactor)
      (.done reply)).Every (Finishing listener key p reply) := by
  have hdone : (Prog.done reply).Every (Finishing listener key p reply) := rfl
  refine ⟨trivial, fun now => Footprint.every_sendAll hdone fun r hr hne _ => ?_⟩
  refine ⟨Or.inl rfl, fun _ _ hl => hne ?_⟩
  have hup := hhealthy.listener_replica hr
  rw [hwired] at hup
  exact Option.some.inj (hup.symm.trans hl)

theorem finishing_finished {prog : Prog} {reply r : Message} {me : Int} {n : Node}
    (h : Finishing listener key p reply prog) (hperf : prog.perform me n = .finished r) :
    r = reply := by
  cases prog with
  | done r' =>
    simp only [Prog.perform, Outcome.finished.injEq] at hperf
    exact hperf.symm.trans h
  | _ => simp [Prog.perform] at hperf

theorem finishing_continues {prog rest : Prog} {reply : Message} {me : Int} {n n' : Node}
    {sent : List Packet} (h : Finishing listener key p reply prog)
    (hperf : prog.perform me n = .continues n' rest sent) :
    n' = n ∧ ∀ packet ∈ sent, Harmless listener key p packet := by
  cases prog with
  | nowMs next =>
    simp only [Prog.perform, Outcome.continues.injEq] at hperf
    exact ⟨hperf.1.symm, by simp [← hperf.2.2]⟩
  | sendAndForget packet next =>
    simp only [Prog.perform, Outcome.continues.injEq] at hperf
    refine ⟨hperf.1.symm, fun packet' hmem => ?_⟩
    rw [← hperf.2.2, List.mem_singleton] at hmem
    exact hmem ▸ h
  | done r => simp [Prog.perform] at hperf
  | _ => exact absurd h id

theorem inv_settled (h : Inv base listener key p held m order)
    (hprim : base.getPrimary key = some p) {t : Nat} {th : Thread} {msg reply : Message}
    (ht : m.threads t = some th) (horigin : th.origin = some msg) (hkey : msg.key = key)
    (hdone : ⟨t, msg, reply⟩ ∈ order) (hstage : Settled listener key p reply th) :
    Inv base listener key p held (m.runThread t th) order := by
  rcases hstage.prog with hprog | ⟨hnode, value, op, hprog⟩
  · cases hperf : th.prog.perform th.node (m.cluster.node th.node) with
    | finished r =>
      obtain rfl : r = reply := finishing_finished hprog.head hperf
      rcases hstage.path with hc | ⟨caller, hc, hpass⟩
      · simp only [Machine.runThread, hperf, hc, horigin, Machine.answer]
        refine h.ends ht (by simp) ?_
        rw [history_append]
        simpa [history, hkey] using h.recorded.respond hdone
      · simp only [Machine.runThread, hperf, hc]
        refine h.moves ht (.settled horigin hkey hdone ⟨Or.inl rfl, Or.inl ?_⟩)
        show (caller.next (some r)).Every _
        rw [hpass r]
        exact rfl
    | continues n rest sent =>
      obtain ⟨hn, hsent⟩ := finishing_continues hprog.head hperf
      refine h.continues_quiet ht hperf hsent (fun _ => by rw [hn]) ?_
      have hok : ThreadOk base listener key p m.trace order t { th with prog := rest } :=
        .settled horigin hkey hdone ⟨hstage.path, Or.inl (hprog.continues hperf)⟩
      exact hok.extend_trace _
    | calls host port msg' next => exact absurd (hprog.calls hperf).1 id
  · have howns := owns_of_getPrimary hprim
    have hreplicas := h.healthy.getReplicas howns key
    have hperf : th.prog.perform th.node (m.cluster.node th.node) =
        .continues (m.cluster.node th.node) (Replication.replicate p.id key value op
          (base.getReplicas key replicationFactor) (.done reply)) [] := by
      rw [hprog, Prog.perform, hnode, hreplicas]
    refine h.continues_quiet ht hperf (by simp) (fun _ => rfl) ?_
    have hok : ThreadOk base listener key p m.trace order t { th with
        prog := Replication.replicate p.id key value op
          (base.getReplicas key replicationFactor) (.done reply) } :=
      .settled horigin hkey hdone
        ⟨hstage.path, Or.inl (finishing_replicate h.healthy h.wired value op reply)⟩
    exact hok.extend_trace _

/-- The first call of the primary reads or writes the key as the sequential map
does, and settles the reply. -/
theorem perform_execute {msg : Message} (hreq : msg.IsRequest) (hkey : msg.key = key) (n : Node) :
    ∃ n' rest, (execute p.id msg).perform p.id n = .continues n' rest [] ∧
      n'.storage.get key = (register p.id (n.storage.get key) msg).1 ∧
      (rest = .done (register p.id (n.storage.get key) msg).2 ∨
        ∃ value op, rest = .getReplicas key replicationFactor fun replicas =>
          Replication.replicate p.id key value op replicas
            (.done (register p.id (n.storage.get key) msg).2)) := by
  subst hkey
  rcases hreq with htype | htype | htype
  · rw [execute, htype, register_put htype]
    refine ⟨_, _, rfl, ?_, Or.inr ⟨msg.value, .put, rfl⟩⟩
    exact (StorageEngine.get_put _ _ _ _ _).trans (if_pos rfl)
  · rw [execute, htype, register_get htype]
    refine ⟨_, _, rfl, ?_, Or.inl ?_⟩
    · cases hs : n.storage.get msg.key <;> rfl
    · cases hs : n.storage.get msg.key <;> rfl
  · rw [execute, htype]
    have hget : ((n.storage.del msg.key n.clock).2).get msg.key = none :=
      (StorageEngine.get_del _ _ _ _).trans (if_pos rfl)
    cases hs : n.storage.get msg.key with
    | none =>
      have hdel : n.storage.del msg.key n.clock = (false, n.storage) := by
        rw [StorageEngine.del, show n.storage.store.lookup msg.key = none from hs]
      rw [register_del htype]
      exact ⟨_, _, rfl, hget, Or.inl (by rw [hdel]; rfl)⟩
    | some v =>
      have hdel : (n.storage.del msg.key n.clock).1 = true := by
        rw [StorageEngine.del, show n.storage.store.lookup msg.key = some v from hs]
      rw [register_del htype]
      exact ⟨_, _, rfl, hget, Or.inr ⟨[], .del, by rw [hdel]; rfl⟩⟩

/-- The store is read or written: the request takes its place in the order. -/
theorem inv_executes (h : Inv base listener key p held m order) {t : Nat} {th : Thread}
    {msg : Message} (ht : m.threads t = some th) (horigin : th.origin = some msg)
    (hreq : msg.IsRequest) (hkey : msg.key = key)
    (hinvoked : DistributedDb.Event.invoke t msg ∈ m.trace) (hopen : t ∉ order.map Entry.id)
    (hpath : (th.callers = [] ∧ base.Owns th.node) ∨
      (th.node = p.id ∧ ∃ caller, th.callers = [caller] ∧ Passes caller.next))
    (hnode : th.node = p.id) (hprog : th.prog = execute p.id msg) :
    Inv base listener key p held (m.runThread t th)
      (order ++ [⟨t, msg, (register p.id (final (register p.id) held order) msg).2⟩]) := by
  obtain ⟨n, rest, hperf, hget, hrest⟩ := perform_execute hreq hkey (m.cluster.node th.node)
  have hstore := h.store
  rw [hnode] at hget hrest
  rw [hstore] at hget hrest
  have hperf' : th.prog.perform th.node (m.cluster.node th.node) = .continues n rest [] := by
    rw [hprog, ← hperf, hnode]
  have hinvoked' : Linearize.Event.invoke t msg ∈ history key m.trace :=
    invoke_mem_history.mpr ⟨hinvoked, hkey⟩
  refine h.continues _ ht hperf' (by simp) (by simp) ?_ (h.recorded.commit hinvoked' hopen) ?_
  · refine .settled horigin hkey (List.mem_append_right order (List.mem_singleton_self _))
      ⟨?_, ?_⟩
    · rcases hpath with ⟨hc, -⟩ | ⟨-, hc⟩
      · exact Or.inl hc
      · exact Or.inr hc
    · rcases hrest with hrest | hrest
      · left
        show rest.Every _
        rw [hrest]
        exact rfl
      · exact Or.inr ⟨hnode, hrest⟩
  · rw [hnode, setNode_node_self, final_concat]
    exact hget

theorem inv_underway (h : Inv base listener key p held m order)
    (hprim : base.getPrimary key = some p) {t : Nat} {th : Thread} {msg : Message}
    (ht : m.threads t = some th) (horigin : th.origin = some msg) (hreq : msg.IsRequest)
    (hkey : msg.key = key) (hinvoked : DistributedDb.Event.invoke t msg ∈ m.trace)
    (hopen : t ∉ order.map Entry.id) (hstage : Underway base p msg th) :
    ∃ order', Inv base listener key p held (m.runThread t th) order' := by
  have howns : base.Owns th.node := by
    rcases hstage.path with ⟨-, howns⟩ | ⟨hnode, -⟩
    · exact howns
    · exact hnode ▸ owns_of_getPrimary hprim
  have hok : ∀ th' : Thread, th'.origin = some msg → Underway base p msg th' →
      ThreadOk base listener key p (m.trace ++ Machine.label t th.node th.prog) order t th' :=
    fun th' ho hs => (ThreadOk.underway ho hreq hkey hinvoked hopen hs).extend_trace _
  rcases hstage.prog with hprog | hprog | ⟨hnode, hprog⟩ | ⟨hcallers, next, hprog, hpass⟩
  · -- The sender is marked alive.
    have hperf : th.prog.perform th.node (m.cluster.node th.node) =
        .continues ((m.cluster.node th.node).markAlive msg.nodeId) (handle th.node msg) [] := by
      rw [hprog]
      rfl
    refine ⟨order, h.continues_quiet ht hperf (by simp) (fun _ => rfl) (hok _ horigin ?_)⟩
    exact ⟨hstage.path, Or.inr (Or.inl rfl)⟩
  · -- The primary is looked up.
    have hperf : th.prog.perform th.node (m.cluster.node th.node) =
        .continues (m.cluster.node th.node)
          (if p.id = th.node then execute th.node msg else forwardTo th.node p msg) [] := by
      rw [hprog, handle_of_isRequest hreq, route, Prog.perform, hkey,
        h.healthy.getPrimary howns, hprim]
    refine ⟨order, h.continues_quiet ht hperf (by simp) (fun _ => rfl) (hok _ horigin ?_)⟩
    by_cases hself : p.id = th.node
    · rw [if_pos hself]
      exact ⟨hstage.path, Or.inr (Or.inr (Or.inl ⟨hself.symm, by rw [hself]⟩))⟩
    · rw [if_neg hself]
      have hcallers : th.callers = [] := by
        rcases hstage.path with ⟨hc, -⟩ | ⟨hnode, -⟩
        · exact hc
        · exact absurd hnode.symm hself
      exact ⟨hstage.path, Or.inr (Or.inr (Or.inr ⟨hcallers, _, rfl, fun _ => rfl⟩))⟩
  · exact ⟨_, inv_executes h ht horigin hreq hkey hinvoked hopen hstage.path hnode hprog⟩
  · -- The request is forwarded to the primary.
    have hperf : th.prog.perform th.node (m.cluster.node th.node) =
        .calls p.host p.port msg next := by
      rw [hprog]
      rfl
    have hl := h.healthy.listener_primary hprim
    refine ⟨order, ?_⟩
    simp only [Machine.runThread, hperf, hl]
    refine h.moves ht (.underway horigin hreq hkey hinvoked hopen ⟨Or.inr ⟨rfl, ?_⟩, Or.inl rfl⟩)
    exact ⟨_, by rw [hcallers], hpass⟩

theorem inv_run (h : Inv base listener key p held m order) (hprim : base.getPrimary key = some p)
    {t : Nat} {th : Thread} (ht : m.threads t = some th) :
    ∃ order', Inv base listener key p held (m.runThread t th) order' := by
  cases (h.threads t th ht).2 with
  | background horigin hcallers hlocal hleaves =>
    exact ⟨order, inv_background h ht horigin hcallers hlocal hleaves⟩
  | elsewhere horigin hkey hprog hcallers =>
    exact ⟨order, inv_elsewhere h ht horigin hkey hprog hcallers⟩
  | underway horigin hreq hkey hinvoked hopen hstage =>
    exact inv_underway h hprim ht horigin hreq hkey hinvoked hopen hstage
  | settled horigin hkey hdone hstage =>
    exact ⟨order, inv_settled h hprim ht horigin hkey hdone hstage⟩

/-! ## The other actions -/

/-- A new thread starts, for a client or for a packet. -/
theorem Inv.spawn (h : Inv base listener key p held m order) (th : Thread)
    (ext : List DistributedDb.Event) {inFlight : List Packet}
    (hok : ThreadOk base listener key p (m.trace ++ ext) order m.next th)
    (hext : ∀ u msg, DistributedDb.Event.invoke u msg ∈ ext → u = m.next)
    (hflight : ∀ packet ∈ inFlight, packet ∈ m.cluster.inFlight)
    (hrecorded : Recorded (register p.id) held (history key (m.trace ++ ext)) order) :
    Inv base listener key p held { m.spawn th with
      cluster := { m.cluster with inFlight := inFlight }, trace := m.trace ++ ext } order := by
  have hmain := h.update { m.spawn th with
    cluster := { m.cluster with inFlight := inFlight }, trace := m.trace ++ ext } [] ext m.next
    (Nat.le_succ _) (Nat.lt_succ_self _) (fun u hu => Function.update_of_ne hu ..)
  rw [List.append_nil] at hmain
  refine hmain (fun th' hth' => ?_) (by simp) rfl hext
    ⟨h.healthy.alive, h.healthy.ring, h.healthy.up⟩
    h.wired (fun packet hp => h.packets packet (hflight packet hp)) hrecorded h.store
  have hth : some th = some th' := (Function.update_self m.next _ m.threads).symm.trans hth'
  exact Option.some.inj hth ▸ hok

theorem inv_invoke (h : Inv base listener key p held m order) {i : Int} {msg : Message}
    (hreq : msg.IsRequest) (hi : base.Owns i) {m' : Machine}
    (hstep : m.step (.invoke i msg) = some m') : Inv base listener key p held m' order := by
  obtain rfl := Option.some.inj hstep
  refine h.spawn _ [.invoke m.next msg] ?_ (by simp) (fun _ hp => hp) ?_
  · by_cases hkey : msg.key = key
    · refine .underway rfl hreq hkey (by simp) ?_ ⟨Or.inl ⟨rfl, hi⟩, Or.inl rfl⟩
      intro hmem
      obtain ⟨e, he, hid⟩ := List.mem_map.mp hmem
      have hold := h.fresh _ _ (invoke_mem_history.mp (h.recorded.linearizes.invoked e he)).1
      omega
    · exact .elsewhere rfl hkey
        (Footprint.within_onMessage (Footprint.request_avoiding hreq hkey) trivial) (by simp)
  · rw [history_append]
    by_cases hkey : msg.key = key
    · have hnew : history key [.invoke m.next msg] = [.invoke m.next msg] := by
        simp [history, hkey]
      rw [hnew]
      refine h.recorded.invoke fun op hop => ?_
      have hold := h.fresh _ _ (invoke_mem_history.mp hop).1
      omega
    · simpa [history, hkey] using h.recorded

theorem inv_deliver (h : Inv base listener key p held m order) {packet : Packet} {again : Bool}
    {m' : Machine} (hstep : m.step (.deliver packet again) = some m') :
    Inv base listener key p held m' order := by
  obtain ⟨hmem, j, flight, hl, hflight, rfl⟩ := Machine.exists_of_step_deliver hstep
  obtain ⟨honeWay, hharmless⟩ := h.packets packet hmem
  have hleaves : j = p.id → (onMessage j packet.msg).Every (Footprint.avoiding key).Within := by
    intro hj
    refine Footprint.within_onMessage_of_oneWay
      (Footprint.oneWay_avoiding honeWay fun hrep hkey => hharmless hrep hkey ?_)
    rw [← h.wired, hl, hj]
  let th : Thread := { origin := none, node := j, prog := onMessage j packet.msg, callers := [] }
  have hspawn := h.spawn th []
    (.background rfl rfl (Prog.isLocal_onMessage honeWay) hleaves) (by simp) hflight
    (by rw [List.append_nil]; exact h.recorded)
  rw [List.append_nil] at hspawn
  exact hspawn

/-- The cluster changes without a thread: packets come or go, or a clock moves. -/
theorem Inv.environment (h : Inv base listener key p held m order) {c : Cluster}
    (hrouting : SameRouting m.cluster c)
    (hstorage : ∀ i, (c.node i).storage = (m.cluster.node i).storage)
    (hpackets : ∀ packet ∈ c.inFlight, Harmless listener key p packet) :
    Inv base listener key p held { m with cluster := c } order where
  healthy := h.healthy.sameRouting hrouting
  wired := hrouting.listener.trans h.wired
  packets := hpackets
  threads := h.threads
  fresh := h.fresh
  recorded := h.recorded
  store := by
    show (c.node p.id).storage.get key = _
    rw [hstorage]
    exact h.store

end Steps

/-- Clients send requests to the nodes of the ring, and the nodes also exchange
heartbeats and election messages.  No node restarts and no batch is loaded. -/
def Allowed (base : HashRing) : Action → Prop
  | .invoke i msg => msg.IsRequest ∧ base.Owns i
  | .run _ | .deliver _ _ | .lose _ | .tick _ _ => True
  | .send packet =>
    packet.msg.type = .heartbeat ∨ packet.msg.type = .election ∨ packet.msg.type = .leader
  | .restart _ _ | .sync _ _ => False

theorem inv_step {base : HashRing} {listener : Bytes → Int → Option Int} {key : Bytes}
    {p : NodeInfo} {held : Option Bytes} (hprim : base.getPrimary key = some p) {m m' : Machine}
    {a : Action} (ha : Allowed base a) (h : ∃ order, Inv base listener key p held m order)
    (hstep : m.step a = some m') : ∃ order, Inv base listener key p held m' order := by
  obtain ⟨order, h⟩ := h
  cases a with
  | invoke i msg => exact ⟨order, inv_invoke h ha.1 ha.2 hstep⟩
  | run t =>
    obtain ⟨th, ht, rfl⟩ := Option.map_eq_some_iff.mp hstep
    exact inv_run h hprim ht
  | deliver packet again => exact ⟨order, inv_deliver h hstep⟩
  | lose packet =>
    obtain rfl := Option.some.inj hstep
    exact ⟨order, h.environment ⟨rfl, fun _ => rfl⟩ (fun _ => rfl)
      fun q hq => h.packets q (List.mem_of_mem_erase hq)⟩
  | send packet =>
    obtain rfl := Option.some.inj hstep
    refine ⟨order, h.environment ⟨rfl, fun _ => rfl⟩ (fun _ => rfl) fun q hq => ?_⟩
    rcases List.mem_append.mp hq with hq | hq
    · exact h.packets q hq
    · obtain rfl := List.mem_singleton.mp hq
      refine ⟨Or.inr ha, fun hrep => ?_⟩
      rcases ha with ha | ha | ha <;> exact absurd (ha.symm.trans hrep) (by decide)
  | tick i now =>
    obtain rfl := Option.some.inj hstep
    refine ⟨order, h.environment (SameRouting.setNode rfl) (fun j => ?_) h.packets⟩
    by_cases hj : j = i
    · subst hj
      rw [setNode_node_self]
    · rw [setNode_node_of_ne m.cluster _ hj]
  | restart self peers => exact absurd ha id
  | sync i peer => exact absurd ha id

theorem inv_idle {base : HashRing} {c : Cluster} (hhealthy : Healthy c base)
    (hidle : c.inFlight = []) (key : Bytes) (p : NodeInfo) :
    Inv base c.listener key p ((c.node p.id).storage.get key) (Machine.idle c) [] where
  healthy := hhealthy
  wired := rfl
  packets := by simp [Machine.idle, hidle]
  threads := by simp [Machine.idle]
  fresh := by simp [Machine.idle]
  recorded := .start
  store := rfl

/-- In every run of a healthy cluster, the requests on a key and their replies
are those of one sequential map that starts as the store of the primary. -/
theorem healthy_cluster_is_single_copy {base : HashRing} {c : Cluster} (hhealthy : Healthy c base)
    (hidle : c.inFlight = []) {key : Bytes} {p : NodeInfo}
    (hprim : base.getPrimary key = some p) {actions : List Action} {m : Machine}
    (hallowed : ∀ a ∈ actions, Allowed base a)
    (hrun : Runs.exec Machine.step (Machine.idle c) actions = some m) :
    Linearizable (register p.id) ((c.node p.id).storage.get key) (history key m.trace) := by
  obtain ⟨order, hinv⟩ := Runs.exec_invariant
    (fun s a s' ha hs hstep => inv_step hprim ha hs hstep) ⟨[], inv_idle hhealthy hidle key p⟩
    hallowed hrun
  exact ⟨order, hinv.recorded.linearizes⟩

/-- A read of a key that nobody wrote, sent to its primary. -/
theorem single_copy_read :
    ∃ m, Runs.exec Machine.step (Machine.idle (launchCluster [] fun _ => []))
        [.invoke 1 getMsg, .run 0, .run 0, .run 0, .run 0] = some m ∧
      .respond 0 getMsg (makeError 1 (ascii "Key not found: " ++ ascii "user1")) ∈ m.trace ∧
      Linearizable (register 1) none (history (ascii "user1") m.trace) := by
  have hroute : ∀ n : Node, n.ring = HashRing.launchRing →
      (handle 1 getMsg).perform 1 n = .continues n (executeGet 1 getMsg) [] := by
    intro n hn
    have hprim : n.ring.getPrimary getMsg.key = some (launchNode 1) := by
      rw [hn]
      exact HashRing.getPrimary_launchRing
    rw [handle_of_isRequest (Or.inr (Or.inl rfl)), route, Prog.perform, hprim]
    rfl
  have howns : HashRing.launchRing.Owns 1 := owns_of_getPrimary HashRing.getPrimary_launchRing
  have hallowed : ∀ a ∈ [.invoke 1 getMsg, .run 0, .run 0, .run 0, .run 0],
      Allowed HashRing.launchRing a := by
    intro a ha
    simp only [List.mem_cons, List.not_mem_nil, or_false] at ha
    rcases ha with rfl | rfl | rfl | rfl | rfl
    · exact ⟨by decide, howns⟩
    · trivial
    · trivial
    · trivial
    · trivial
  have hrun : ∃ m, Runs.exec Machine.step (Machine.idle (launchCluster [] fun _ => []))
      [.invoke 1 getMsg, .run 0, .run 0, .run 0, .run 0] = some m ∧
      .respond 0 getMsg (makeError 1 (ascii "Key not found: " ++ ascii "user1")) ∈ m.trace := by
    refine ⟨_, Runs.exec_cons.mpr ⟨_, rfl, Runs.exec_cons.mpr
      ⟨_, Machine.step_run_continues rfl rfl, Runs.exec_cons.mpr
      ⟨_, Machine.step_run_continues rfl (hroute _ rfl), Runs.exec_cons.mpr
      ⟨_, Machine.step_run_continues rfl rfl, Runs.exec_cons.mpr ⟨_, rfl, rfl⟩⟩⟩⟩⟩, ?_⟩
    exact List.mem_append_right _ (List.mem_singleton_self _)
  obtain ⟨m, hrun, hmem⟩ := hrun
  exact ⟨m, hrun, hmem, healthy_cluster_is_single_copy healthy_launchCluster rfl
    HashRing.getPrimary_launchRing hallowed hrun⟩

end SingleCopy
end DistributedDb
