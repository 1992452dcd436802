import DistributedDb.Cluster.Footprint
import DistributedDb.Cluster.SharedRing

/-
A write while its primary is down, and the return of the primary.

Node `P` comes first among the owners of `k` and is down.  The acting primary
`A` executes a write of `v`, and nothing else is written under `k`.  When `P`
starts again, every node routes reads of `k` back to `P` as soon as it has heard
from `P`, while the data of `P` arrives with a later exchange with a peer.  So a
read is answered by `A`, which holds `v`, or by `P`, which holds `v` once the
exchange has been applied.
-/

namespace DistributedDb
namespace Rejoin

open Coordinator Cluster HashRing

variable (base : HashRing) (k v : Bytes) (P A Q : NodeInfo) (live : Int → Bool)

/-- All writes on `k` write `v`.  No message names a node as its sender that is
down; `up` says whether `P` has started again. -/
def writing (up : Bool) : Footprint :=
  { put := fun key value => key = k → value = v
    del := fun key => key ≠ k
    sender := fun id => base.Owns id → live id = true ∨ (up = true ∧ id = P.id) }

/-- Whom a live node believes in: the live nodes, and `P` when it has heard from
it. -/
def view (heard : Bool) (id : Int) : Bool := live id || (heard && decide (id = P.id))

/-- The routing state of the nodes that run. -/
structure Routing (up : Bool) (c : Cluster) : Prop where
  seen : ∀ i, live i = true → ∃ heard, (heard = true → up = true) ∧
    (c.node i).ring.Sees base (view P live heard)
  rejoined : up = true → (c.node P.id).ring.ring.entries = base.ring.entries
  reach : ∀ e ∈ base.ring.entries, live e.2.id = true →
    c.listener e.2.host e.2.port = some e.2.id
  reachP : c.listener P.host P.port = if up then some P.id else none
  listens : ∀ host port j, c.listener host port = some j → live j = true ∨ (up = true ∧ j = P.id)

/-- Node `i` stores `v` under `k`. -/
def Holds (c : Cluster) (i : Int) : Prop := (c.node i).storage.get k = some v

/-- The facts about the ring that the section shares: `P` is the primary of `k`
and is down, and `A` is the first live owner. -/
structure Owners : Prop where
  alive : ∀ e ∈ base.ring.entries, e.2.alive = true
  primary : base.getPrimary k = some P
  down : live P.id = false
  acting : (base.owners k).find? (fun n => live n.id) = some A

namespace Owners

variable {base k P A live} (h : Owners base k P A live)
include h

theorem exists_cons : ∃ others, base.owners k = P :: others := by
  have hp := h.primary
  rw [getPrimary_eq_head?, ← owners_eq_preference h.alive] at hp
  cases ho : base.owners k with
  | nil => simp [ho] at hp
  | cons n others =>
    rw [ho] at hp
    exact ⟨others, by rw [Option.some.inj hp]⟩

theorem mem_acting : A ∈ base.owners k := List.mem_of_find?_eq_some h.acting

theorem live_acting : live A.id = true := by
  simpa using List.find?_some h.acting

/-- The first owner a live node believes in. -/
theorem head?_view (heard : Bool) :
    ((base.owners k).filter fun n => view P live heard n.id).head? =
      some (if heard then P else A) := by
  obtain ⟨others, ho⟩ := h.exists_cons
  cases heard with
  | true =>
    rw [ho, List.filter_cons_of_pos (by simp [view])]
    rfl
  | false =>
    have hview : ∀ n : NodeInfo, view P live false n.id = live n.id := by simp [view]
    simp only [hview, List.head?_filter, h.acting]
    rfl

end Owners

/-! ## Routing while messages arrive -/

section Arrivals

variable {base k v P A Q live}

/-- Hearing from a sender changes what is believed of `P` at most. -/
theorem sees_updateNodeStatus {r : HashRing} {heard up : Bool} {id : Int}
    (h : r.Sees base (view P live heard)) (hup : heard = true → up = true)
    (hid : (writing base k v P live up).sender id) :
    ∃ heard', (heard' = true → up = true) ∧
      (r.updateNodeStatus id true).Sees base (view P live heard') := by
  by_cases hreg : r.nodesById.find? id = none
  · rw [updateNodeStatus_of_unknown r true hreg]
    exact ⟨heard, hup, h⟩
  · by_cases hP : id = P.id ∧ live id = false ∧ base.Owns id
    · obtain ⟨rfl, hdead, howns⟩ := hP
      have hup' : up = true := by
        rcases hid howns with hl | ⟨hu, -⟩
        · rw [hdead] at hl
          exact absurd hl (by simp)
        · exact hu
      refine ⟨true, fun _ => hup', ?_⟩
      rw [Sees, entries_updateNodeStatus r true hreg, h, List.map_map]
      refine List.map_congr_left fun e _ => ?_
      by_cases he : e.2.id = P.id
      · simp [setAlive, flagged, view, he]
      · simp [setAlive, flagged, view, he]
    · refine ⟨heard, hup, ?_⟩
      rw [Sees, entries_updateNodeStatus r true hreg, h, List.map_map]
      refine List.map_congr_left fun e he => ?_
      by_cases hide : e.2.id = id
      · -- The sender owns an entry, so it is live and seen alive already.
        have hlive : live id = true := by
          rcases hid ⟨e, he, hide⟩ with hl | ⟨-, hl⟩
          · exact hl
          · by_contra hdead
            exact hP ⟨hl, by simpa using hdead, e, he, hide⟩
        simp [setAlive, flagged, view, hide, hlive]
      · simp [setAlive, flagged, hide]

/-- A call within the footprint keeps the routing state. -/
theorem Routing.perform {up : Bool} {c : Cluster} (h : Routing base P live up c)
    (halive : ∀ e ∈ base.ring.entries, e.2.alive = true) {me : Int} {n : Node}
    {sent : List Packet}
    (hring : n.ring = (c.node me).ring ∨ ∃ id, (writing base k v P live up).sender id ∧
      n.ring = (c.node me).ring.updateNodeStatus id true) :
    Routing base P live up ((c.setNode me n).send sent) where
  seen i hi := by
    obtain ⟨heard, hup, hsees⟩ := h.seen i hi
    by_cases him : i = me
    · subst him
      rw [send_node, setNode_node_self]
      rcases hring with hring | ⟨id, hid, hring⟩
      · rw [hring]
        exact ⟨heard, hup, hsees⟩
      · rw [hring]
        exact sees_updateNodeStatus hsees hup hid
    · rw [send_node, setNode_node_of_ne c _ him]
      exact ⟨heard, hup, hsees⟩
  rejoined hup := by
    by_cases hPm : P.id = me
    · subst hPm
      rw [send_node, setNode_node_self]
      rcases hring with hring | ⟨id, -, hring⟩
      · rw [hring]
        exact h.rejoined hup
      · rw [hring, entries_updateNodeStatus_true, h.rejoined hup]
        rw [h.rejoined hup]
        exact halive
    · rw [send_node, setNode_node_of_ne c _ hPm]
      exact h.rejoined hup
  reach := h.reach
  reachP := h.reachP
  listens := h.listens

end Arrivals

/-! ## The threads -/

/-- The thread stays within the footprint. -/
structure Loose (up : Bool) (th : Thread) : Prop where
  prog : th.prog.Every (writing base k v P live up).Within
  callers : ∀ caller ∈ th.callers, ∀ r, (caller.next r).Every (writing base k v P live up).Within

/-- What `sync_from_peer` does with the reply. -/
def afterSync (resp : Option Message) : Prog :=
  match resp with
  | none => .done {}
  | some reply =>
    if reply.type ≠ .syncData then .done {} else Replication.handleSyncData reply (.done {})

/-- The reply is a copy of a store that holds `v` under `k`. -/
structure Carries (reply : Message) : Prop where
  type : reply.type = .syncData
  mem : (k, v) ∈ reply.kvPairs
  only : ∀ pair ∈ reply.kvPairs, pair.1 = k → pair.2 = v

/-- The request of `P` for the data of a peer. -/
def syncMsg : Message := { type := .syncRequest, nodeId := P.id }

/-- The reply of a peer: everything it stores. -/
def syncReply (i : Int) (n : Node) : Message :=
  { type := .syncData, nodeId := i, kvPairs := n.storage.getAllPairs, success := true }

/-- The exchange of `P` with its peer `Q`. -/
inductive Syncing (th : Thread) : Prop where
  | asking (hnode : th.node = P.id) (hcallers : th.callers = [])
      (hprog : th.prog = Replication.syncFromPeer P.id Q)
  | asked (hnode : th.node = Q.id) (hcallers : th.callers = [⟨P.id, afterSync⟩])
      (hprog : th.prog = onMessage Q.id (syncMsg P) ∨ th.prog = handle Q.id (syncMsg P))
  | replying {reply : Message} (hcallers : th.callers = [⟨P.id, afterSync⟩])
      (hprog : th.prog = .done reply) (hreply : Carries k v reply)
  | applying {reply : Message} (hnode : th.node = P.id) (hcallers : th.callers = [])
      (hprog : th.prog = afterSync (some reply)) (hreply : Carries k v reply)

/-- A write of `k` that has not reached the store of the acting primary. -/
structure Approaching (msg : Message) (th : Thread) : Prop where
  node : live th.node = true
  prog : th.prog = onMessage th.node msg ∨ th.prog = handle th.node msg ∨
    (th.node = A.id ∧ th.prog = executePut A.id msg) ∨
    ∃ next, th.prog = .sendMessage A.host A.port msg next

/-- Thread `t` read the store of `P` before any batch was loaded there. -/
def ReadBeforeSync (t : Nat) (trace : List Event) : Prop :=
  ∃ front back, trace = front ++ .access t P.id :: back ∧ .batch P.id ∉ front

/-- The reply to a read is `v`, or `P` gave it before its exchange. -/
def Good (t : Nat) (reply : Message) (trace : List Event) : Prop :=
  (reply.success = true ∧ reply.value = v) ∨ ReadBeforeSync P t trace

/-- The node runs. -/
def IsUp (up : Bool) (i : Int) : Prop := live i = true ∨ (up = true ∧ i = P.id)

/-- A read of `k` on its way through the nodes. -/
inductive Reading (up : Bool) (trace : List Event) (t : Nat) (msg : Message) (th : Thread) :
    Prop where
  | routing (hnode : IsUp P live up th.node)
      (hprog : th.prog = onMessage th.node msg ∨ th.prog = handle th.node msg)
  | executing (hnode : th.node = A.id ∨ th.node = P.id)
      (hprog : th.prog = executeGet th.node msg)
  | forwarding {next : Option Message → Prog} (hpass : Passes next)
      (hprog : th.prog = .sendMessage A.host A.port msg next ∨
        (up = true ∧ th.prog = .sendMessage P.host P.port msg next))
  | settled {reply : Message} (hprog : th.prog = .done reply) (hgood : Good v P t reply trace)

/-- What is known of a thread.  `later` are the threads that started after the
write was acknowledged. -/
structure ThreadOk (up : Bool) (later : Nat → Prop) (c : Cluster) (trace : List Event) (t : Nat)
    (th : Thread) : Prop where
  kind : Loose base k v P live up th ∨ (up = true ∧ th.origin = none ∧ Syncing k v P Q th)
  writes : ∀ msg, th.origin = some msg → msg.key = k → msg.type = .put →
    Approaching A live msg th ∨ Holds k v c A.id
  reads : ∀ msg, th.origin = some msg → msg.key = k → msg.type = .get → later t →
    (∀ caller ∈ th.callers, Passes caller.next) ∧ Reading v P A live up trace t msg th

structure Inv (up : Bool) (later : Nat → Prop) (m : Machine) : Prop where
  routing : Routing base P live up m.cluster
  packets : ∀ packet ∈ m.cluster.inFlight, (writing base k v P live up).OneWay packet.msg
  threads : ∀ t th, m.threads t = some th →
    t < m.next ∧ ThreadOk base k v P A Q live up later m.cluster m.trace t th
  acting : up = true ∨ (∃ t, later t) → Holds k v m.cluster A.id
  peer : up = true → Holds k v m.cluster Q.id
  synced : .batch P.id ∈ m.trace → up = true ∧ Holds k v m.cluster P.id
  acked : ∀ t msg reply, .respond t msg reply ∈ m.trace → msg.key = k → msg.type = .put →
    Holds k v m.cluster A.id
  answered : ∀ t msg reply, .respond t msg reply ∈ m.trace → msg.key = k → msg.type = .get →
    later t → Good v P t reply m.trace
  past : ∀ t msg reply, .respond t msg reply ∈ m.trace → t < m.next

/-! ## The steps of a thread -/

section Steps

variable {base k v P A Q live} {up : Bool} {later : Nat → Prop} {m : Machine}

theorem Good.append {t : Nat} {reply : Message} {trace : List Event} (h : Good v P t reply trace)
    (ext : List Event) : Good v P t reply (trace ++ ext) := by
  rcases h with h | ⟨front, back, rfl, hfront⟩
  · exact Or.inl h
  · exact Or.inr ⟨front, back ++ ext, by simp, hfront⟩

theorem Reading.append {trace : List Event} {t : Nat} {msg : Message} {th : Thread}
    (h : Reading v P A live up trace t msg th) (ext : List Event) :
    Reading v P A live up (trace ++ ext) t msg th := by
  cases h with
  | routing hnode hprog => exact .routing hnode hprog
  | executing hnode hprog => exact .executing hnode hprog
  | forwarding hpass hprog => exact .forwarding hpass hprog
  | settled hprog hgood => exact .settled hprog (hgood.append ext)

/-- What is known of a thread stays true while others run. -/
theorem ThreadOk.extend {c c' : Cluster} {trace : List Event} {t : Nat} {th : Thread}
    (h : ThreadOk base k v P A Q live up later c trace t th)
    (hholds : Holds k v c A.id → Holds k v c' A.id) (ext : List Event) :
    ThreadOk base k v P A Q live up later c' (trace ++ ext) t th where
  kind := h.kind
  writes msg horigin hkey htype := (h.writes msg horigin hkey htype).imp id hholds
  reads msg horigin hkey htype hlater :=
    ⟨(h.reads msg horigin hkey htype hlater).1,
      (h.reads msg horigin hkey htype hlater).2.append ext⟩

/-- One thread moves, and with it the cluster.  No step takes `v` away. -/
theorem Inv.update (h : Inv base k v P A Q live up later m) (m' : Machine) (ext : List Event)
    (t : Nat) (hnext : m.next ≤ m'.next) (ht : t < m'.next)
    (hothers : ∀ u, u ≠ t → m'.threads u = m.threads u)
    (hself : ∀ th, m'.threads t = some th →
      ThreadOk base k v P A Q live up later m'.cluster m'.trace t th)
    (htrace : m'.trace = m.trace ++ ext)
    (hrouting : Routing base P live up m'.cluster)
    (hpackets : ∀ packet ∈ m'.cluster.inFlight, (writing base k v P live up).OneWay packet.msg)
    (hholds : ∀ i, Holds k v m.cluster i → Holds k v m'.cluster i)
    (hbatch : .batch P.id ∈ ext → up = true ∧ Holds k v m'.cluster P.id)
    (hrespond : ∀ u msg reply, .respond u msg reply ∈ ext → u = t ∧ (msg.key = k →
      (msg.type = .put → Holds k v m'.cluster A.id) ∧
      (msg.type = .get → later u → Good v P u reply m'.trace))) :
    Inv base k v P A Q live up later m' where
  routing := hrouting
  packets := hpackets
  threads u th hu := by
    by_cases hut : u = t
    · subst hut
      exact ⟨ht, hself th hu⟩
    · rw [hothers u hut] at hu
      obtain ⟨hlt, hok⟩ := h.threads u th hu
      rw [htrace]
      exact ⟨by omega, hok.extend (hholds A.id) ext⟩
  acting hact := hholds A.id (h.acting hact)
  peer hup := hholds Q.id (h.peer hup)
  synced hmem := by
    rw [htrace] at hmem
    rcases List.mem_append.mp hmem with hmem | hmem
    · exact ⟨(h.synced hmem).1, hholds P.id (h.synced hmem).2⟩
    · exact hbatch hmem
  acked u msg reply hmem hkey htype := by
    rw [htrace] at hmem
    rcases List.mem_append.mp hmem with hmem | hmem
    · exact hholds A.id (h.acked u msg reply hmem hkey htype)
    · exact ((hrespond u msg reply hmem).2 hkey).1 htype
  answered u msg reply hmem hkey htype hlater := by
    have hcases := hmem
    rw [htrace] at hcases
    rcases List.mem_append.mp hcases with hold | hnew
    · rw [htrace]
      exact (h.answered u msg reply hold hkey htype hlater).append ext
    · exact ((hrespond u msg reply hnew).2 hkey).2 htype hlater
  past u msg reply hmem := by
    rw [htrace] at hmem
    rcases List.mem_append.mp hmem with hmem | hmem
    · have := h.past u msg reply hmem
      omega
    · rw [(hrespond u msg reply hmem).1]
      exact ht

/-- A thread makes a call on its own node. -/
theorem Inv.continues (h : Inv base k v P A Q live up later m)
    (halive : ∀ e ∈ base.ring.entries, e.2.alive = true) {t : Nat} {th : Thread} {n : Node}
    {rest : Prog} {sent : List Packet} (ht : m.threads t = some th)
    (hperf : th.prog.perform th.node (m.cluster.node th.node) = .continues n rest sent)
    (hring : n.ring = (m.cluster.node th.node).ring ∨
      ∃ id, (writing base k v P live up).sender id ∧
        n.ring = (m.cluster.node th.node).ring.updateNodeStatus id true)
    (hsent : ∀ packet ∈ sent, (writing base k v P live up).OneWay packet.msg)
    (hholds : Holds k v m.cluster th.node → n.storage.get k = some v)
    (hbatch : .batch P.id ∈ Machine.label t th.node th.prog →
      up = true ∧ Holds k v (m.cluster.setNode th.node n) P.id)
    (hok : (∀ i, Holds k v m.cluster i → Holds k v (m.cluster.setNode th.node n) i) →
      ThreadOk base k v P A Q live up later ((m.cluster.setNode th.node n).send sent)
        (m.trace ++ Machine.label t th.node th.prog) t { th with prog := rest }) :
    Inv base k v P A Q live up later (m.runThread t th) := by
  have hstay : ∀ i, Holds k v m.cluster i → Holds k v (m.cluster.setNode th.node n) i := by
    intro i hi
    by_cases hnode : i = th.node
    · subst hnode
      rw [Holds, setNode_node_self]
      exact hholds hi
    · rw [Holds, setNode_node_of_ne m.cluster n hnode]
      exact hi
  rw [Machine.runThread_continues hperf]
  refine h.update _ _ t (le_refl _) (h.threads t th ht).1 (fun u hu => ?_) (fun th' hth' => ?_)
    rfl (h.routing.perform halive hring) (fun packet hp => ?_) hstay hbatch ?_
  · exact Function.update_of_ne hu ..
  · have hth : some { th with prog := rest } = some th' :=
      (Function.update_self t _ m.threads).symm.trans hth'
    exact Option.some.inj hth ▸ hok hstay
  · rcases List.mem_append.mp hp with hp | hp
    · exact h.packets packet hp
    · exact hsent packet hp
  · exact fun u msg reply hmem => absurd hmem Machine.respond_notMem_label

/-- A thread moves to another program without touching the cluster. -/
theorem Inv.moves (h : Inv base k v P A Q live up later m) {t : Nat} {th th' : Thread}
    (ht : m.threads t = some th)
    (hok : ThreadOk base k v P A Q live up later m.cluster m.trace t th') :
    Inv base k v P A Q live up later (m.setThread t (some th')) := by
  refine h.update (m.setThread t (some th')) [] t (le_refl _) (h.threads t th ht).1
    (fun u hu => Function.update_of_ne hu ..) (fun th'' hth'' => ?_) (List.append_nil _).symm
    h.routing h.packets (fun _ hi => hi) (by simp) (by simp)
  have hth : some th' = some th'' := (Function.update_self t _ m.threads).symm.trans hth''
  exact Option.some.inj hth ▸ hok

/-- A thread ends with a reply. -/
theorem Inv.ends (h : Inv base k v P A Q live up later m) {t : Nat} {th : Thread}
    {reply : Message} (ht : m.threads t = some th)
    (hreply : ∀ msg, th.origin = some msg → msg.key = k →
      (msg.type = .put → Holds k v m.cluster A.id) ∧
      (msg.type = .get → later t → Good v P t reply m.trace)) :
    Inv base k v P A Q live up later
      { m.setThread t none with trace := m.trace ++ Machine.answer t th.origin reply } := by
  refine h.update _ (Machine.answer t th.origin reply) t (le_refl _) (h.threads t th ht).1
    (fun u hu => Function.update_of_ne hu ..) (fun th' hth' => ?_) rfl h.routing h.packets
    (fun _ hi => hi) ?_ ?_
  · have hth : none = some th' := (Function.update_self t _ m.threads).symm.trans hth'
    exact absurd hth (by simp)
  · intro hmem
    cases horigin : th.origin <;> simp [horigin, Machine.answer] at hmem
  · intro u msg reply' hmem
    cases horigin : th.origin with
    | none => simp [horigin, Machine.answer] at hmem
    | some msg' =>
      simp only [horigin, Machine.answer, List.mem_singleton, Event.respond.injEq] at hmem
      obtain ⟨rfl, rfl, rfl⟩ := hmem
      refine ⟨rfl, fun hkey => ⟨(hreply msg horigin hkey).1, fun htype hlater => ?_⟩⟩
      exact ((hreply msg horigin hkey).2 htype hlater).append _

/-- Where a node that runs sends requests on `k`. -/
theorem Routing.getPrimary {c : Cluster} (h : Routing base P live up c)
    (ho : Owners base k P A live) {i : Int} (hi : IsUp P live up i) :
    ∃ p flags, (c.node i).ring.getPrimary k = some (flagged flags p) ∧
      (p = A ∨ (up = true ∧ p = P)) := by
  rcases hi with hi | ⟨hup, rfl⟩
  · obtain ⟨heard, hup, hsees⟩ := h.seen i hi
    refine ⟨if heard then P else A, view P live heard, ?_, ?_⟩
    · rw [hsees.getPrimary, ho.head?_view]
      rfl
    · cases heard with
      | true => exact Or.inr ⟨hup rfl, rfl⟩
      | false => exact Or.inl rfl
  · refine ⟨P, fun _ => P.alive, ?_, Or.inr ⟨hup, rfl⟩⟩
    rw [getPrimary_congr (h.rejoined hup), ho.primary]
    rfl

/-- The lookup of a request on `k`. -/
theorem perform_handle_of_getPrimary {n : Node} {i : Int} {msg : Message} {p : NodeInfo}
    {flags : Int → Bool} (hprim : n.ring.getPrimary k = some (flagged flags p))
    (hkey : msg.key = k) (hreq : msg.IsRequest) :
    ∃ next, Passes next ∧ (handle i msg).perform i n = .continues n
      (if p.id = i then execute i msg else .sendMessage p.host p.port msg next) [] := by
  obtain ⟨next, hnext, hpass⟩ : ∃ next,
      forwardTo i (flagged flags p) msg = .sendMessage p.host p.port msg next ∧ Passes next :=
    ⟨_, rfl, fun _ => rfl⟩
  refine ⟨next, hpass, ?_⟩
  rw [handle_of_isRequest hreq, route, Prog.perform, hkey, hprim, ← hnext]
  rfl

theorem perform_handle {c : Cluster} (h : Routing base P live up c)
    (ho : Owners base k P A live) {i : Int} (hi : IsUp P live up i) {msg : Message}
    (hkey : msg.key = k) (hreq : msg.IsRequest) :
    ∃ p next, (p = A ∨ (up = true ∧ p = P)) ∧ Passes next ∧
      (handle i msg).perform i (c.node i) = .continues (c.node i)
        (if p.id = i then execute i msg else .sendMessage p.host p.port msg next) [] := by
  obtain ⟨p, flags, hprim, hp⟩ := h.getPrimary ho hi
  obtain ⟨next, hpass, hperf⟩ := perform_handle_of_getPrimary hprim hkey hreq
  exact ⟨p, next, hp, hpass, hperf⟩

/-- The rejoined primary executes requests on `k` itself. -/
theorem perform_handle_rejoined {c : Cluster} (h : Routing base P live true c)
    (ho : Owners base k P A live) {msg : Message} (hkey : msg.key = k) (hreq : msg.IsRequest) :
    (handle P.id msg).perform P.id (c.node P.id) =
      .continues (c.node P.id) (execute P.id msg) [] := by
  have hprim : (c.node P.id).ring.getPrimary k = some (flagged (fun _ => P.alive) P) := by
    rw [getPrimary_congr (h.rejoined rfl), ho.primary]
    rfl
  obtain ⟨next, -, hperf⟩ := perform_handle_of_getPrimary (i := P.id) hprim hkey hreq
  rw [hperf, if_pos rfl]

theorem eq_done_of_perform {p : Prog} {me : Int} {n : Node} {reply : Message}
    (h : p.perform me n = .finished reply) : p = .done reply := by
  cases p with
  | done r =>
    rw [Prog.perform, Outcome.finished.injEq] at h
    rw [h]
  | _ => simp [Prog.perform] at h

theorem eq_sendMessage_of_perform {p : Prog} {me : Int} {n : Node} {host : Bytes} {port : Int}
    {msg : Message} {next : Option Message → Prog}
    (h : p.perform me n = .calls host port msg next) :
    p = .sendMessage host port msg next := by
  cases p with
  | sendMessage host' port' msg' next' =>
    simp only [Prog.perform, Outcome.calls.injEq] at h
    obtain ⟨rfl, rfl, rfl, rfl⟩ := h
    rfl
  | _ => simp [Prog.perform] at h

/-- A write that has not reached the store of the acting primary gets closer or
reaches it. -/
theorem approaching_continues (h : Inv base k v P A Q live false later m)
    (ho : Owners base k P A live) {th : Thread} {msg : Message} {n : Node} {rest : Prog}
    {sent : List Packet} (hkey : msg.key = k) (htype : msg.type = .put)
    (hloose : Loose base k v P live false th) (happ : Approaching A live msg th)
    (hperf : th.prog.perform th.node (m.cluster.node th.node) = .continues n rest sent) :
    Approaching A live msg { th with prog := rest } ∨
      (th.node = A.id ∧ n.storage.get k = some v) := by
  rcases happ.prog with hprog | hprog | ⟨hnode, hprog⟩ | ⟨next, hprog⟩
  · rw [hprog] at hperf
    simp only [onMessage, Prog.perform, Outcome.continues.injEq] at hperf
    exact Or.inl ⟨happ.node, Or.inr (Or.inl hperf.2.1.symm)⟩
  · obtain ⟨p, next, hp, -, hlookup⟩ :=
      perform_handle h.routing ho (Or.inl happ.node) hkey (Or.inl htype)
    obtain rfl : p = A := by
      rcases hp with hp | ⟨hup, -⟩
      · exact hp
      · exact absurd hup (by simp)
    rw [hprog, hlookup] at hperf
    simp only [Outcome.continues.injEq] at hperf
    refine Or.inl ⟨happ.node, ?_⟩
    rw [← hperf.2.1]
    by_cases hself : p.id = th.node
    · rw [if_pos hself, execute, htype]
      exact Or.inr (Or.inr (Or.inl ⟨hself.symm, by rw [hself]⟩))
    · rw [if_neg hself]
      exact Or.inr (Or.inr (Or.inr ⟨next, rfl⟩))
  · have hvalue : msg.value = v := by
      have hput := hloose.prog.head
      rw [hprog] at hput
      exact hput hkey
    rw [hprog] at hperf
    simp only [executePut, Prog.perform, Outcome.continues.injEq] at hperf
    refine Or.inr ⟨hnode, ?_⟩
    rw [← hperf.1, hkey, hvalue]
    exact (StorageEngine.get_put ..).trans (if_pos rfl)
  · rw [hprog] at hperf
    simp [Prog.perform] at hperf

theorem good_executeGet {t : Nat} {n : Node} {i : Int} {msg : Message} {trace : List Event}
    (hkey : msg.key = k) (hget : n.storage.get k = some v ∨
      (i = P.id ∧ .batch P.id ∉ trace)) :
    ∃ reply, (executeGet i msg).perform i n = .continues n (.done reply) [] ∧
      Good v P t reply (trace ++ [.access t i]) := by
  cases hs : n.storage.get k with
  | some w =>
    refine ⟨makeAck i true w, ?_, ?_⟩
    · rw [executeGet, Prog.perform, hkey, hs]
    · rcases hget with hget | ⟨rfl, hbatch⟩
      · exact Or.inl ⟨rfl, Option.some.inj (hs.symm.trans hget)⟩
      · exact Or.inr ⟨trace, [], rfl, hbatch⟩
  | none =>
    refine ⟨makeError i (ascii "Key not found: " ++ msg.key), ?_, ?_⟩
    · rw [executeGet, Prog.perform, hkey, hs]
    · rcases hget with hget | ⟨rfl, hbatch⟩
      · exact absurd (hs.symm.trans hget) (by simp)
      · exact Or.inr ⟨trace, [], rfl, hbatch⟩

/-- A read is routed on, or its reply is settled. -/
theorem reading_continues (h : Inv base k v P A Q live up later m)
    (ho : Owners base k P A live) {t : Nat} {th : Thread} {msg : Message} {n : Node}
    {rest : Prog} {sent : List Packet} (hkey : msg.key = k) (htype : msg.type = .get)
    (hlater : later t) (hread : Reading v P A live up m.trace t msg th)
    (hperf : th.prog.perform th.node (m.cluster.node th.node) = .continues n rest sent) :
    Reading v P A live up (m.trace ++ Machine.label t th.node th.prog) t msg
      { th with prog := rest } := by
  cases hread with
  | routing hnode hprog =>
    rcases hprog with hprog | hprog
    · rw [hprog] at hperf
      simp only [onMessage, Prog.perform, Outcome.continues.injEq] at hperf
      exact .routing hnode (Or.inr hperf.2.1.symm)
    · obtain ⟨p, next, hp, hpass, hlookup⟩ :=
        perform_handle h.routing ho hnode hkey (Or.inr (Or.inl htype))
      rw [hprog, hlookup] at hperf
      simp only [Outcome.continues.injEq] at hperf
      by_cases hself : p.id = th.node
      · rw [if_pos hself, execute, htype] at hperf
        refine .executing ?_ hperf.2.1.symm
        rcases hp with rfl | ⟨-, rfl⟩
        · exact Or.inl hself.symm
        · exact Or.inr hself.symm
      · rw [if_neg hself] at hperf
        refine .forwarding hpass ?_
        rcases hp with rfl | ⟨hup, rfl⟩
        · exact Or.inl hperf.2.1.symm
        · exact Or.inr ⟨hup, hperf.2.1.symm⟩
  | executing hnode hprog =>
    have hget : (m.cluster.node th.node).storage.get k = some v ∨
        (th.node = P.id ∧ .batch P.id ∉ m.trace) := by
      rcases hnode with hnode | hnode
      · rw [hnode]
        exact Or.inl (h.acting (Or.inr ⟨t, hlater⟩))
      · by_cases hbatch : .batch P.id ∈ m.trace
        · rw [hnode]
          exact Or.inl (h.synced hbatch).2
        · exact Or.inr ⟨hnode, hbatch⟩
    obtain ⟨reply, hdone, hgood⟩ := good_executeGet (t := t) hkey hget
    rw [hprog, hdone] at hperf
    simp only [Outcome.continues.injEq] at hperf
    rw [hprog]
    exact .settled hperf.2.1.symm hgood
  | forwarding hpass hprog =>
    rcases hprog with hprog | ⟨-, hprog⟩ <;> simp [hprog, Prog.perform] at hperf
  | settled hprog hgood => simp [hprog, Prog.perform] at hperf

theorem Approaching.ne_done {msg reply : Message} {th : Thread} (h : Approaching A live msg th)
    (htype : msg.type = .put) : th.prog ≠ .done reply := by
  intro hdone
  rcases h.prog with hprog | hprog | ⟨-, hprog⟩ | ⟨next, hprog⟩
  · exact absurd (hprog.symm.trans hdone) (by simp [onMessage])
  · exact absurd (hprog.symm.trans hdone) (by simp [handle, htype, handlePut, route])
  · exact absurd (hprog.symm.trans hdone) (by simp [executePut])
  · exact absurd (hprog.symm.trans hdone) (by simp)

theorem Reading.good_of_done {t : Nat} {msg reply : Message} {th : Thread} {trace : List Event}
    (h : Reading v P A live up trace t msg th) (htype : msg.type = .get)
    (hdone : th.prog = .done reply) : Good v P t reply trace := by
  cases h with
  | routing hnode hprog =>
    rcases hprog with hprog | hprog
    · exact absurd (hprog.symm.trans hdone) (by simp [onMessage])
    · exact absurd (hprog.symm.trans hdone) (by simp [handle, htype, handleGet, route])
  | executing hnode hprog => exact absurd (hprog.symm.trans hdone) (by simp [executeGet])
  | forwarding hpass hprog =>
    rcases hprog with hprog | ⟨-, hprog⟩ <;> exact absurd (hprog.symm.trans hdone) (by simp)
  | settled hprog hgood =>
    rw [hprog, Prog.done.injEq] at hdone
    exact hdone ▸ hgood

theorem loose_finishes (h : Inv base k v P A Q live up later m) {t : Nat} {th : Thread}
    {reply : Message} (ht : m.threads t = some th) (hloose : Loose base k v P live up th)
    (hperf : th.prog.perform th.node (m.cluster.node th.node) = .finished reply) :
    Inv base k v P A Q live up later (m.runThread t th) := by
  have hdone := eq_done_of_perform hperf
  have hok := (h.threads t th ht).2
  have hwrites : ∀ msg, th.origin = some msg → msg.key = k → msg.type = .put →
      Holds k v m.cluster A.id := by
    intro msg horigin hkey htype
    rcases hok.writes msg horigin hkey htype with happ | hholds
    · exact absurd hdone (happ.ne_done htype)
    · exact hholds
  have hreads : ∀ msg, th.origin = some msg → msg.key = k → msg.type = .get → later t →
      Good v P t reply m.trace :=
    fun msg horigin hkey htype hlater =>
      (hok.reads msg horigin hkey htype hlater).2.good_of_done htype hdone
  cases hcallers : th.callers with
  | nil =>
    simp only [Machine.runThread, hperf, hcallers]
    exact h.ends ht fun msg horigin hkey =>
      ⟨hwrites msg horigin hkey, hreads msg horigin hkey⟩
  | cons caller rest =>
    simp only [Machine.runThread, hperf, hcallers]
    refine h.moves ht ⟨Or.inl ⟨?_, ?_⟩, ?_, ?_⟩
    · exact hloose.callers caller (by rw [hcallers]; exact List.mem_cons_self) _
    · exact fun c hc => hloose.callers c (by rw [hcallers]; exact List.mem_cons_of_mem caller hc)
    · exact fun msg horigin hkey htype => Or.inr (hwrites msg horigin hkey htype)
    · intro msg horigin hkey htype hlater
      have hpass := (hok.reads msg horigin hkey htype hlater).1
      rw [hcallers] at hpass
      exact ⟨fun c hc => hpass c (List.mem_cons_of_mem caller hc),
        .settled (hpass caller List.mem_cons_self reply) (hreads msg horigin hkey htype hlater)⟩

theorem loose_continues (h : Inv base k v P A Q live up later m) (ho : Owners base k P A live)
    {t : Nat} {th : Thread} {n : Node} {rest : Prog} {sent : List Packet}
    (ht : m.threads t = some th) (hloose : Loose base k v P live up th)
    (hperf : th.prog.perform th.node (m.cluster.node th.node) = .continues n rest sent) :
    Inv base k v P A Q live up later (m.runThread t th) := by
  have hok := (h.threads t th ht).2
  have hwithin := hloose.prog.head
  refine h.continues ho.alive ht hperf (Footprint.ring_of_within hwithin hperf)
    (Footprint.oneWay_of_sent hwithin hperf) ?_ ?_ fun hstay => ⟨?_, ?_, ?_⟩
  · intro hholds
    rcases Footprint.get_of_within hwithin hperf k with hget | ⟨w, hw, hget⟩ | ⟨hne, -⟩
    · exact hget.trans hholds
    · rw [hget, hw rfl]
    · exact absurd rfl hne
  · intro hbatch
    cases hprog : th.prog with
    | storagePutBatch pairs next =>
      rw [hprog] at hwithin
      exact absurd hwithin id
    | _ => simp [hprog, Machine.label] at hbatch
  · exact Or.inl ⟨hloose.prog.continues hperf, hloose.callers⟩
  · intro msg horigin hkey htype
    rcases hok.writes msg horigin hkey htype with happ | hholds
    · cases up with
      | true => exact Or.inr (hstay A.id (h.acting (Or.inl rfl)))
      | false =>
        rcases approaching_continues h ho hkey htype hloose happ hperf with happ | ⟨hnode, hget⟩
        · exact Or.inl happ
        · refine Or.inr ?_
          rw [Holds, send_node, ← hnode, setNode_node_self]
          exact hget
    · exact Or.inr (hstay A.id hholds)
  · intro msg horigin hkey htype hlater
    obtain ⟨hpass, hread⟩ := hok.reads msg horigin hkey htype hlater
    exact ⟨hpass, reading_continues h ho hkey htype hlater hread hperf⟩

/-- A write that waits for the connection waits for the acting primary. -/
theorem Approaching.calls {msg msg' : Message} {th : Thread} {host : Bytes} {port : Int}
    {next : Option Message → Prog} (h : Approaching A live msg th) (htype : msg.type = .put)
    (hsend : th.prog = .sendMessage host port msg' next) :
    host = A.host ∧ port = A.port ∧ msg' = msg := by
  rcases h.prog with hprog | hprog | ⟨-, hprog⟩ | ⟨next', hprog⟩
  · exact absurd (hprog.symm.trans hsend) (by simp [onMessage])
  · exact absurd (hprog.symm.trans hsend) (by simp [handle, htype, handlePut, route])
  · exact absurd (hprog.symm.trans hsend) (by simp [executePut])
  · have hsame := hsend.symm.trans hprog
    simp only [Prog.sendMessage.injEq] at hsame
    exact ⟨hsame.1, hsame.2.1, hsame.2.2.1⟩

/-- A read that waits for the connection waits for the acting primary or `P`,
and passes the reply on. -/
theorem Reading.calls {t : Nat} {msg msg' : Message} {th : Thread} {trace : List Event}
    {host : Bytes} {port : Int} {next : Option Message → Prog}
    (h : Reading v P A live up trace t msg th) (htype : msg.type = .get)
    (hsend : th.prog = .sendMessage host port msg' next) :
    msg' = msg ∧ Passes next ∧
      ∃ p, (p = A ∨ (up = true ∧ p = P)) ∧ host = p.host ∧ port = p.port := by
  cases h with
  | routing hnode hprog =>
    rcases hprog with hprog | hprog
    · exact absurd (hprog.symm.trans hsend) (by simp [onMessage])
    · exact absurd (hprog.symm.trans hsend) (by simp [handle, htype, handleGet, route])
  | executing hnode hprog => exact absurd (hprog.symm.trans hsend) (by simp [executeGet])
  | forwarding hpass hprog =>
    rcases hprog with hprog | ⟨hup, hprog⟩
    · have hsame := hsend.symm.trans hprog
      simp only [Prog.sendMessage.injEq] at hsame
      obtain ⟨rfl, rfl, rfl, rfl⟩ := hsame
      exact ⟨rfl, hpass, A, Or.inl rfl, rfl, rfl⟩
    · have hsame := hsend.symm.trans hprog
      simp only [Prog.sendMessage.injEq] at hsame
      obtain ⟨rfl, rfl, rfl, rfl⟩ := hsame
      exact ⟨rfl, hpass, P, Or.inr ⟨hup, rfl⟩, rfl, rfl⟩
  | settled hprog hgood => exact absurd (hprog.symm.trans hsend) (by simp)

theorem Routing.listener_acting {c : Cluster} (h : Routing base P live up c)
    (ho : Owners base k P A live) : c.listener A.host A.port = some A.id := by
  obtain ⟨pos, hpos⟩ := exists_entry_of_mem_owners ho.mem_acting
  exact h.reach (pos, A) hpos ho.live_acting

/-- The nodes that requests on `k` are sent to accept them. -/
theorem Routing.listener_target {c : Cluster} (h : Routing base P live up c)
    (ho : Owners base k P A live) {p : NodeInfo} (hp : p = A ∨ (up = true ∧ p = P)) :
    c.listener p.host p.port = some p.id ∧ IsUp P live up p.id := by
  rcases hp with rfl | ⟨hup, rfl⟩
  · exact ⟨h.listener_acting ho, Or.inl ho.live_acting⟩
  · refine ⟨?_, Or.inr ⟨hup, rfl⟩⟩
    rw [h.reachP, hup]
    rfl

theorem loose_calls (h : Inv base k v P A Q live up later m) (ho : Owners base k P A live)
    {t : Nat} {th : Thread} {host : Bytes} {port : Int} {msg' : Message}
    {next : Option Message → Prog} (ht : m.threads t = some th)
    (hloose : Loose base k v P live up th)
    (hperf : th.prog.perform th.node (m.cluster.node th.node) = .calls host port msg' next) :
    Inv base k v P A Q live up later (m.runThread t th) := by
  have hsend := eq_sendMessage_of_perform hperf
  have hok := (h.threads t th ht).2
  obtain ⟨hreq, hnext⟩ := hloose.prog.calls hperf
  cases hl : m.cluster.listener host port with
  | none =>
    simp only [Machine.runThread, hperf, hl]
    refine h.moves ht ⟨Or.inl ⟨hnext none, hloose.callers⟩, ?_, ?_⟩
    · intro msg horigin hkey htype
      rcases hok.writes msg horigin hkey htype with happ | hholds
      · obtain ⟨rfl, rfl, -⟩ := happ.calls htype hsend
        exact absurd (hl.symm.trans (h.routing.listener_acting ho)) (by simp)
      · exact Or.inr hholds
    · intro msg horigin hkey htype hlater
      obtain ⟨-, -, p, hp, rfl, rfl⟩ :=
        (hok.reads msg horigin hkey htype hlater).2.calls htype hsend
      exact absurd (hl.symm.trans (h.routing.listener_target ho hp).1) (by simp)
  | some j =>
    simp only [Machine.runThread, hperf, hl]
    have hj : (writing base k v P live up).sender j := fun _ => h.routing.listens host port j hl
    refine h.moves ht ⟨Or.inl ⟨Footprint.within_onMessage hreq hj, ?_⟩, ?_, ?_⟩
    · intro caller hcaller
      rcases List.mem_cons.mp hcaller with rfl | hcaller
      · exact hnext
      · exact hloose.callers caller hcaller
    · intro msg horigin hkey htype
      rcases hok.writes msg horigin hkey htype with happ | hholds
      · obtain ⟨rfl, rfl, rfl⟩ := happ.calls htype hsend
        obtain rfl : j = A.id := Option.some.inj (hl.symm.trans (h.routing.listener_acting ho))
        exact Or.inl ⟨ho.live_acting, Or.inl rfl⟩
      · exact Or.inr hholds
    · intro msg horigin hkey htype hlater
      obtain ⟨hpass, hread⟩ := hok.reads msg horigin hkey htype hlater
      obtain ⟨rfl, hpass', p, hp, rfl, rfl⟩ := hread.calls htype hsend
      obtain ⟨hlp, hup⟩ := h.routing.listener_target ho hp
      obtain rfl : j = p.id := Option.some.inj (hl.symm.trans hlp)
      refine ⟨fun caller hcaller => ?_, .routing hup (Or.inl rfl)⟩
      rcases List.mem_cons.mp hcaller with rfl | hcaller
      · exact hpass'
      · exact hpass caller hcaller

theorem inv_loose (h : Inv base k v P A Q live up later m) (ho : Owners base k P A live)
    {t : Nat} {th : Thread} (ht : m.threads t = some th) (hloose : Loose base k v P live up th) :
    Inv base k v P A Q live up later (m.runThread t th) := by
  cases hperf : th.prog.perform th.node (m.cluster.node th.node) with
  | finished reply => exact loose_finishes h ht hloose hperf
  | continues n rest sent => exact loose_continues h ho ht hloose hperf
  | calls host port msg next => exact loose_calls h ho ht hloose hperf

theorem carries_syncReply {n : Node} {i : Int} (h : n.storage.get k = some v) :
    Carries k v (syncReply i n) where
  type := rfl
  mem := StorageEngine.mem_getAllPairs.mpr h
  only := by
    intro pair hpair hkey
    obtain ⟨key, value⟩ := pair
    obtain rfl : key = k := hkey
    have hget := StorageEngine.mem_getAllPairs.mp hpair
    exact Option.some.inj (hget.symm.trans h)

/-- A thread that serves no client. -/
theorem ThreadOk.background {c : Cluster} {trace : List Event} {t : Nat} {th : Thread}
    (horigin : th.origin = none)
    (hkind : Loose base k v P live up th ∨ (up = true ∧ th.origin = none ∧ Syncing k v P Q th)) :
    ThreadOk base k v P A Q live up later c trace t th where
  kind := hkind
  writes msg hmsg := absurd (horigin.symm.trans hmsg) (by simp)
  reads msg hmsg := absurd (horigin.symm.trans hmsg) (by simp)

/-- The exchange of `P` with its peer.  The batch that it loads holds `v`. -/
theorem inv_syncing (h : Inv base k v P A Q live true later m) (ho : Owners base k P A live)
    (hQ : m.cluster.listener Q.host Q.port = some Q.id) {t : Nat} {th : Thread}
    (ht : m.threads t = some th) (horigin : th.origin = none) (hsync : Syncing k v P Q th) :
    Inv base k v P A Q live true later (m.runThread t th) := by
  cases hsync with
  | asking hnode hcallers hprog =>
    have hperf : th.prog.perform th.node (m.cluster.node th.node) =
        .calls Q.host Q.port (syncMsg P) afterSync := by
      rw [hprog]
      rfl
    simp only [Machine.runThread, hperf, hQ]
    refine h.moves ht (.background horigin (Or.inr ⟨rfl, horigin, ?_⟩))
    exact .asked rfl (by rw [hcallers, hnode]) (Or.inl rfl)
  | asked hnode hcallers hprog =>
    rcases hprog with hprog | hprog
    · have hperf : th.prog.perform th.node (m.cluster.node th.node) =
          .continues ((m.cluster.node th.node).markAlive P.id) (handle Q.id (syncMsg P)) [] := by
        rw [hprog]
        rfl
      have hsender : (writing base k v P live true).Within th.prog := by
        rw [hprog]
        exact fun _ => Or.inr ⟨rfl, rfl⟩
      refine h.continues ho.alive ht hperf (Footprint.ring_of_within hsender hperf) (by simp) id ?_
        fun _ => .background horigin (Or.inr ⟨rfl, horigin, .asked hnode hcallers (Or.inr rfl)⟩)
      rw [hprog]
      exact fun hmem => absurd hmem List.not_mem_nil
    · have hperf : th.prog.perform th.node (m.cluster.node th.node) =
          .continues (m.cluster.node th.node) (.done (syncReply Q.id (m.cluster.node th.node)))
            [] := by
        rw [hprog]
        rfl
      have hholds : (m.cluster.node th.node).storage.get k = some v := by
        rw [hnode]
        exact h.peer rfl
      refine h.continues ho.alive ht hperf (Or.inl rfl) (by simp) id ?_ fun _ =>
        .background horigin
          (Or.inr ⟨rfl, horigin, .replying hcallers rfl (carries_syncReply hholds)⟩)
      rw [hprog]
      exact fun hmem => absurd hmem List.not_mem_nil
  | replying hcallers hprog hreply =>
    rename_i reply
    have hperf : th.prog.perform th.node (m.cluster.node th.node) = .finished reply := by
      rw [hprog]
      rfl
    simp only [Machine.runThread, hperf, hcallers]
    exact h.moves ht (.background horigin (Or.inr ⟨rfl, horigin, .applying rfl rfl rfl hreply⟩))
  | applying hnode hcallers hprog hreply =>
    rename_i reply
    have hne : reply.kvPairs ≠ [] := List.ne_nil_of_mem hreply.mem
    have hbatch : th.prog = .storagePutBatch reply.kvPairs (.done {}) := by
      rw [hprog, afterSync]
      simp [hreply.type, Replication.handleSyncData, hne]
    have hget : ((m.cluster.node th.node).storage.putBatch reply.kvPairs
        fun _ => (m.cluster.node th.node).clock).get k = some v :=
      StorageEngine.get_putBatch hreply.mem hreply.only _
    refine h.continues ho.alive ht (n := { m.cluster.node th.node with
        storage := (m.cluster.node th.node).storage.putBatch reply.kvPairs
          fun _ => (m.cluster.node th.node).clock })
      (by rw [hbatch]; rfl) (Or.inl rfl) (by simp) (fun _ => hget) (fun _ => ⟨rfl, ?_⟩) fun _ => ?_
    · rw [Holds, hnode, setNode_node_self, ← hnode]
      exact hget
    · refine .background horigin (Or.inl ⟨trivial, ?_⟩)
      show ∀ caller ∈ th.callers, _
      rw [hcallers]
      exact fun caller hmem => absurd hmem List.not_mem_nil

theorem inv_run (h : Inv base k v P A Q live up later m) (ho : Owners base k P A live)
    (hQ : m.cluster.listener Q.host Q.port = some Q.id) {t : Nat} {th : Thread}
    (ht : m.threads t = some th) : Inv base k v P A Q live up later (m.runThread t th) := by
  rcases (h.threads t th ht).2.kind with hloose | ⟨rfl, horigin, hsync⟩
  · exact inv_loose h ho ht hloose
  · exact inv_syncing h ho hQ ht horigin hsync

end Steps

end Rejoin
end DistributedDb
