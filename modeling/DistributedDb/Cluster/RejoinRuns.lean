import DistributedDb.Cluster.Rejoin

/-
Runs across the return of the primary.

A run has three parts: `P` is down until the write is acknowledged and for some
time after, it starts again from its log, and it exchanges data with a peer.
Reads that start after the acknowledgement are followed through all of them.
-/

namespace DistributedDb
namespace Rejoin

open Coordinator Cluster HashRing

section Steps

variable {base : HashRing} {k v : Bytes} {P A Q : NodeInfo} {live : Int → Bool} {up : Bool}
  {later : Nat → Prop} {m : Machine}

/-! ## The other actions -/

/-- A new thread starts, for a client, for a packet or in the background. -/
theorem Inv.spawn (h : Inv base k v P A Q live up later m) (th : Thread) {event : List Event}
    {inFlight : List Packet}
    (hok : ThreadOk base k v P A Q live up later m.cluster m.trace m.next th)
    (hevent : event = [] ∨ ∃ msg, event = [.invoke m.next msg])
    (hflight : ∀ packet ∈ inFlight, packet ∈ m.cluster.inFlight) :
    Inv base k v P A Q live up later { m.spawn th with
      cluster := { m.cluster with inFlight := inFlight }, trace := m.trace ++ event } := by
  refine h.update _ event m.next (Nat.le_succ _) (Nat.lt_succ_self _)
    (fun u hu => Function.update_of_ne hu ..) (fun th' hth' => ?_) rfl
    ⟨h.routing.seen, h.routing.rejoined, h.routing.reach, h.routing.reachP, h.routing.listens⟩
    (fun packet hp => h.packets packet (hflight packet hp)) (fun _ hi => hi) ?_ ?_
  · have hth : some th = some th' := (Function.update_self m.next _ m.threads).symm.trans hth'
    obtain rfl := Option.some.inj hth
    refine hok.extend ?_ event
    exact id
  · intro hmem
    rcases hevent with rfl | ⟨msg, rfl⟩ <;> simp at hmem
  · intro u msg reply hmem
    rcases hevent with rfl | ⟨msg, rfl⟩ <;> simp at hmem

theorem inv_invoke (h : Inv base k v P A Q live up later m) {i : Int} {msg : Message}
    (hi : IsUp P live up i) (hreq : (writing base k v P live up).Request msg) {m' : Machine}
    (hstep : m.step (.invoke i msg) = some m') : Inv base k v P A Q live up later m' := by
  obtain rfl := Option.some.inj hstep
  have hme : (writing base k v P live up).sender i := fun _ => hi
  refine h.spawn _ ⟨Or.inl ⟨Footprint.within_onMessage hreq hme, by simp⟩, ?_, ?_⟩
    (Or.inr ⟨msg, rfl⟩) (fun _ hp => hp)
  · intro msg' horigin _ _
    obtain rfl := Option.some.inj horigin
    cases up with
    | true => exact Or.inr (h.acting (Or.inl rfl))
    | false =>
      have hlive : live i = true := by
        rcases hi with hlive | ⟨hup, -⟩
        · exact hlive
        · exact absurd hup (by simp)
      exact Or.inl ⟨hlive, Or.inl rfl⟩
  · intro msg' horigin _ _ _
    obtain rfl := Option.some.inj horigin
    exact ⟨by simp, .routing hi (Or.inl rfl)⟩

theorem inv_deliver (h : Inv base k v P A Q live up later m) {packet : Packet} {again : Bool}
    {m' : Machine} (hstep : m.step (.deliver packet again) = some m') :
    Inv base k v P A Q live up later m' := by
  obtain ⟨hmem, j, flight, -, hflight, rfl⟩ := Machine.exists_of_step_deliver hstep
  have hloose : (onMessage j packet.msg).Every (writing base k v P live up).Within :=
    Footprint.within_onMessage_of_oneWay (h.packets packet hmem)
  let th : Thread := { origin := none, node := j, prog := onMessage j packet.msg, callers := [] }
  have hspawn := h.spawn th (.background rfl (Or.inl ⟨hloose, by simp [th]⟩)) (Or.inl rfl) hflight
  rw [List.append_nil] at hspawn
  exact hspawn

theorem inv_sync (h : Inv base k v P A Q live true later m) {m' : Machine}
    (hstep : m.step (.sync P.id Q) = some m') : Inv base k v P A Q live true later m' := by
  obtain rfl := Option.some.inj hstep
  let th : Thread :=
    { origin := none, node := P.id, prog := Replication.syncFromPeer P.id Q, callers := [] }
  have hspawn := h.spawn th
    (.background rfl (Or.inr ⟨rfl, rfl, .asking rfl rfl rfl⟩)) (Or.inl rfl) (fun _ hp => hp)
  rw [List.append_nil] at hspawn
  exact hspawn

/-- The cluster changes without a thread.  `rejoining` says that `P` comes up in
this step. -/
theorem Inv.environment {up' : Bool} (h : Inv base k v P A Q live up later m) {c : Cluster}
    (hrouting : Routing base P live up' c)
    (hpackets : ∀ packet ∈ c.inFlight, (writing base k v P live up').OneWay packet.msg)
    (hthreads : ∀ t th, m.threads t = some th →
      ThreadOk base k v P A Q live up' later c m.trace t th)
    (hacting : Holds k v m.cluster A.id → Holds k v c A.id)
    (hup : up' = true → Holds k v c A.id ∧ Holds k v c Q.id)
    (hsynced : .batch P.id ∈ m.trace → up' = true ∧ Holds k v c P.id) :
    Inv base k v P A Q live up' later { m with cluster := c } where
  routing := hrouting
  packets := hpackets
  threads t th ht := ⟨(h.threads t th ht).1, hthreads t th ht⟩
  acting hact := by
    rcases hact with hact | hact
    · exact (hup hact).1
    · exact hacting (h.acting (Or.inr hact))
  peer hact := (hup hact).2
  synced := hsynced
  acked t msg reply hmem hkey htype := hacting (h.acked t msg reply hmem hkey htype)
  answered := h.answered
  past := h.past

/-- Packets come or go, or a clock moves. -/
theorem Inv.quiet (h : Inv base k v P A Q live up later m) {c : Cluster}
    (hsame : SameRouting m.cluster c)
    (hstorage : ∀ i, (c.node i).storage = (m.cluster.node i).storage)
    (hpackets : ∀ packet ∈ c.inFlight, (writing base k v P live up).OneWay packet.msg) :
    Inv base k v P A Q live up later { m with cluster := c } := by
  have hholds : ∀ i, Holds k v m.cluster i → Holds k v c i := by
    intro i hi
    rw [Holds, hstorage]
    exact hi
  have hrouting : Routing base P live up c := by
    refine ⟨fun i hi => ?_, fun hup => ?_, ?_, ?_, ?_⟩
    · rw [hsame.ring]
      exact h.routing.seen i hi
    · rw [hsame.ring]
      exact h.routing.rejoined hup
    · rw [hsame.listener]
      exact h.routing.reach
    · rw [hsame.listener]
      exact h.routing.reachP
    · rw [hsame.listener]
      exact h.routing.listens
  refine h.environment hrouting hpackets (fun t th ht => ?_) (hholds A.id) (fun hup => ?_)
    (fun hmem => ?_)
  · have hok := (h.threads t th ht).2.extend (hholds A.id) []
    rwa [List.append_nil] at hok
  · exact ⟨hholds A.id (h.acting (Or.inl hup)), hholds Q.id (h.peer hup)⟩
  · exact ⟨(h.synced hmem).1, hholds P.id (h.synced hmem).2⟩

/-! ## The return of the primary -/

theorem writing_sub : (writing base k v P live false).Sub (writing base k v P live true) where
  put _ _ h := h
  del _ h := h
  sender id h := by
    intro howns
    rcases h howns with hl | ⟨hup, -⟩
    · exact Or.inl hl
    · exact absurd hup (by simp)

theorem Loose.mono {th : Thread} (h : Loose base k v P live false th) :
    Loose base k v P live true th where
  prog := h.prog.mono fun _ => Footprint.Within.mono writing_sub
  callers caller hcaller r :=
    (h.callers caller hcaller r).mono fun _ => Footprint.Within.mono writing_sub

theorem Reading.mono {trace : List Event} {t : Nat} {msg : Message} {th : Thread}
    (h : Reading v P A live false trace t msg th) : Reading v P A live true trace t msg th := by
  cases h with
  | routing hnode hprog =>
    rcases hnode with hnode | ⟨hup, -⟩
    · exact .routing (Or.inl hnode) hprog
    · exact absurd hup (by simp)
  | executing hnode hprog => exact .executing hnode hprog
  | forwarding hpass hprog =>
    rcases hprog with hprog | ⟨hup, -⟩
    · exact .forwarding hpass (Or.inl hprog)
    · exact absurd hup (by simp)
  | settled hprog hgood => exact .settled hprog hgood

/-- `P` starts with the ring of the cluster and accepts connections. -/
theorem Routing.restart {c : Cluster} (h : Routing base P live false c)
    (hdown : live P.id = false) {peers : List NodeInfo}
    (hpeers : (peers.foldl HashRing.addNode (HashRing.empty.addNode P)).ring.entries =
      base.ring.entries) : Routing base P live true (Machine.restartNode c P peers) where
  seen i hi := by
    obtain ⟨heard, hup, hsees⟩ := h.seen i hi
    have hne : i ≠ P.id := by
      rintro rfl
      rw [hdown] at hi
      exact absurd hi (by simp)
    refine ⟨heard, fun _ => rfl, ?_⟩
    show ((c.setNode P.id _).node i).ring.Sees base _
    rw [setNode_node_of_ne c _ hne]
    exact hsees
  rejoined _ := by
    show ((c.setNode P.id _).node P.id).ring.ring.entries = _
    rw [setNode_node_self]
    exact hpeers
  reach e he hlive := by
    have hold := h.reach e he hlive
    show (if e.2.host = P.host ∧ e.2.port = P.port then _ else _) = _
    by_cases haddr : e.2.host = P.host ∧ e.2.port = P.port
    · -- Nobody accepted connections at the address of `P`.
      rw [haddr.1, haddr.2, h.reachP] at hold
      exact absurd hold (by simp)
    · rw [if_neg haddr]
      exact hold
  reachP := if_pos ⟨rfl, rfl⟩
  listens host port j hj := by
    change (if host = P.host ∧ port = P.port then some P.id else c.listener host port) =
      some j at hj
    by_cases haddr : host = P.host ∧ port = P.port
    · rw [if_pos haddr] at hj
      exact Or.inr ⟨rfl, (Option.some.inj hj).symm⟩
    · rw [if_neg haddr] at hj
      rcases h.listens host port j hj with hl | ⟨hup, -⟩
      · exact Or.inl hl
      · exact absurd hup (by simp)

theorem inv_restart (h : Inv base k v P A Q live false later m) (ho : Owners base k P A live)
    (hlater : ∃ t, later t) (hQ : live Q.id = true) (hpeer : Holds k v m.cluster Q.id)
    {peers : List NodeInfo}
    (hpeers : (peers.foldl HashRing.addNode (HashRing.empty.addNode P)).ring.entries =
      base.ring.entries) {m' : Machine} (hstep : m.step (.restart P peers) = some m') :
    Inv base k v P A Q live true later m' := by
  obtain rfl := Option.some.inj hstep
  have hholds : ∀ i, live i = true → Holds k v m.cluster i →
      Holds k v (Machine.restartNode m.cluster P peers) i := by
    intro i hi hold
    have hne : i ≠ P.id := by
      rintro rfl
      rw [ho.down] at hi
      exact absurd hi (by simp)
    show ((m.cluster.setNode P.id _).node i).storage.get k = some v
    rw [setNode_node_of_ne m.cluster _ hne]
    exact hold
  have hacting := hholds A.id ho.live_acting (h.acting (Or.inr hlater))
  refine h.environment (h.routing.restart ho.down hpeers)
    (fun packet hp => (h.packets packet hp).mono writing_sub) (fun t th ht => ?_)
    (fun _ => hacting) (fun _ => ⟨hacting, hholds Q.id hQ hpeer⟩) fun hmem => ?_
  · have hok := (h.threads t th ht).2
    refine ⟨?_, fun msg _ _ _ => Or.inr hacting, fun msg horigin hkey htype hl => ?_⟩
    · rcases hok.kind with hloose | ⟨hup, -⟩
      · exact Or.inl hloose.mono
      · exact absurd hup (by simp)
    · obtain ⟨hpass, hread⟩ := hok.reads msg horigin hkey htype hl
      exact ⟨hpass, hread.mono⟩
  · exact absurd (h.synced hmem).1 (by simp)

end Steps

/-! ## Runs -/

/-- Clients send requests to nodes that run, and write nothing but `v` under
`k`.  The nodes exchange heartbeats and election messages, and `P`, once it is
up, asks `Q` for its data. -/
def Allowed (base : HashRing) (k v : Bytes) (P Q : NodeInfo) (live : Int → Bool) (up : Bool) :
    Action → Prop
  | .invoke i msg => IsUp P live up i ∧ (writing base k v P live up).Request msg
  | .run _ | .deliver _ _ | .lose _ | .tick _ _ => True
  | .send packet =>
    (packet.msg.type = .heartbeat ∨ packet.msg.type = .election ∨ packet.msg.type = .leader) ∧
      (writing base k v P live up).sender packet.msg.nodeId
  | .restart _ _ => False
  | .sync i peer => up = true ∧ i = P.id ∧ peer = Q

section Runs

variable {base : HashRing} {k v : Bytes} {P A Q : NodeInfo} {live : Int → Bool} {up : Bool}
  {later : Nat → Prop}

theorem inv_step (ho : Owners base k P A live) (hQ : ∃ pos, (pos, Q) ∈ base.ring.entries)
    (hQlive : live Q.id = true) {m m' : Machine} {a : Action}
    (ha : Allowed base k v P Q live up a) (h : Inv base k v P A Q live up later m)
    (hstep : m.step a = some m') : Inv base k v P A Q live up later m' := by
  cases a with
  | invoke i msg => exact inv_invoke h ha.1 ha.2 hstep
  | run t =>
    obtain ⟨th, ht, rfl⟩ := Option.map_eq_some_iff.mp hstep
    obtain ⟨pos, hpos⟩ := hQ
    exact inv_run h ho (h.routing.reach (pos, Q) hpos hQlive) ht
  | deliver packet again => exact inv_deliver h hstep
  | lose packet =>
    obtain rfl := Option.some.inj hstep
    exact h.quiet ⟨rfl, fun _ => rfl⟩ (fun _ => rfl)
      fun q hq => h.packets q (List.mem_of_mem_erase hq)
  | send packet =>
    obtain rfl := Option.some.inj hstep
    refine h.quiet ⟨rfl, fun _ => rfl⟩ (fun _ => rfl) fun q hq => ?_
    rcases List.mem_append.mp hq with hq | hq
    · exact h.packets q hq
    · obtain rfl := List.mem_singleton.mp hq
      have hne : q.msg.type ≠ .replicate := by
        intro hrep
        rcases ha.1 with htype | htype | htype <;> exact absurd (htype.symm.trans hrep) (by simp)
      exact ⟨Or.inr ha.1, ha.2, fun hrep => absurd hrep hne, fun hrep => absurd hrep hne⟩
  | tick i now =>
    obtain rfl := Option.some.inj hstep
    refine h.quiet (SameRouting.setNode rfl) (fun j => ?_) h.packets
    by_cases hj : j = i
    · subst hj
      rw [setNode_node_self]
    · rw [setNode_node_of_ne m.cluster _ hj]
  | restart self peers => exact absurd ha id
  | sync i peer =>
    obtain ⟨rfl, rfl, rfl⟩ := ha
    exact inv_sync h hstep

theorem inv_idle {c : Cluster} (hrouting : Routing base P live false c)
    (hpackets : ∀ packet ∈ c.inFlight, (writing base k v P live false).OneWay packet.msg) :
    Inv base k v P A Q live false (fun _ => False) (Machine.idle c) where
  routing := hrouting
  packets := hpackets
  threads := by simp [Machine.idle]
  acting := by simp
  peer := by simp
  synced := by simp [Machine.idle]
  acked := by simp [Machine.idle]
  answered := by simp
  past := by simp [Machine.idle]

/-- Once the write is acknowledged, the acting primary holds it, and reads that
start from now on are watched. -/
theorem Inv.acknowledged {m : Machine} (h : Inv base k v P A Q live false (fun _ => False) m)
    {w : Nat} {put ack : Message} (hack : .respond w put ack ∈ m.trace) (hkey : put.key = k)
    (htype : put.type = .put) : Inv base k v P A Q live false (fun t => m.next ≤ t) m where
  routing := h.routing
  packets := h.packets
  threads t th ht := by
    obtain ⟨hlt, hok⟩ := h.threads t th ht
    exact ⟨hlt, hok.kind, hok.writes, fun _ _ _ _ hlater => absurd hlt (by omega)⟩
  acting _ := h.acked w put ack hack hkey htype
  peer := h.peer
  synced := h.synced
  acked := h.acked
  answered t msg reply hmem _ _ hlater := absurd (h.past t msg reply hmem) (by omega)
  past := h.past

/-! ## Reads come to an end -/

/-- Running thread `t` alone leads to a reply. -/
def Finishes (m : Machine) (t : Nat) (msg : Message) : Prop :=
  ∃ steps m', Runs.exec Machine.step m (List.replicate steps (.run t)) = some m' ∧
    ∃ reply, .respond t msg reply ∈ m'.trace

theorem Finishes.step {m m' : Machine} {t : Nat} {msg : Message}
    (hstep : m.step (.run t) = some m') (h : Finishes m' t msg) : Finishes m t msg := by
  obtain ⟨steps, m'', hrun, hreply⟩ := h
  exact ⟨steps + 1, m'', Runs.exec_cons.mpr ⟨m', hstep, hrun⟩, hreply⟩

/-- A settled reply passes through the callers to the client. -/
theorem finishes_of_done {m : Machine} {t : Nat} {th : Thread} {msg reply : Message}
    (ht : m.threads t = some th) (horigin : th.origin = some msg)
    (hcallers : ∀ caller ∈ th.callers, Passes caller.next) (hprog : th.prog = .done reply) :
    Finishes m t msg := by
  generalize hlist : th.callers = callers at hcallers
  induction callers generalizing m th with
  | nil =>
    refine ⟨1, _, Runs.exec_cons.mpr ⟨_, Machine.step_run_finished ht hprog hlist, rfl⟩, reply, ?_⟩
    rw [horigin]
    exact List.mem_append_right _ (List.mem_singleton_self _)
  | cons caller rest ih =>
    obtain ⟨m', hstep, ht', -, -⟩ := Machine.exists_run_returns ht hprog hlist
    exact .step hstep (ih ht' horigin (hcallers caller List.mem_cons_self reply) rfl
      fun c hc => hcallers c (List.mem_cons_of_mem caller hc))

/-- How far a read is from its reply: at most this many calls away. -/
inductive Ahead (P A : NodeInfo) (live : Int → Bool) (up : Bool) (msg : Message) (th : Thread) :
    Nat → Prop where
  | executing (hprog : th.prog = executeGet th.node msg) : Ahead P A live up msg th 1
  | routedAtP (hup : up = true) (hnode : th.node = P.id) (hprog : th.prog = handle th.node msg) :
      Ahead P A live up msg th 2
  | receivedAtP (hup : up = true) (hnode : th.node = P.id)
      (hprog : th.prog = onMessage th.node msg) : Ahead P A live up msg th 3
  | sentToP {next : Option Message → Prog} (hup : up = true) (hpass : Passes next)
      (hprog : th.prog = .sendMessage P.host P.port msg next) : Ahead P A live up msg th 4
  | routedAtA (hnode : th.node = A.id) (hprog : th.prog = handle th.node msg) :
      Ahead P A live up msg th 5
  | receivedAtA (hnode : th.node = A.id) (hprog : th.prog = onMessage th.node msg) :
      Ahead P A live up msg th 6
  | sentToA {next : Option Message → Prog} (hpass : Passes next)
      (hprog : th.prog = .sendMessage A.host A.port msg next) : Ahead P A live up msg th 7
  | routed (hnode : live th.node = true) (hprog : th.prog = handle th.node msg) :
      Ahead P A live up msg th 8
  | received (hnode : live th.node = true) (hprog : th.prog = onMessage th.node msg) :
      Ahead P A live up msg th 9

theorem ahead_of_reading {trace : List Event} {t : Nat} {msg : Message} {th : Thread}
    (h : Reading v P A live up trace t msg th) :
    (∃ reply, th.prog = .done reply) ∨ ∃ n, Ahead P A live up msg th n := by
  cases h with
  | routing hnode hprog =>
    rcases hnode with hnode | ⟨hup, hnode⟩
    · rcases hprog with hprog | hprog
      · exact Or.inr ⟨9, .received hnode hprog⟩
      · exact Or.inr ⟨8, .routed hnode hprog⟩
    · rcases hprog with hprog | hprog
      · exact Or.inr ⟨3, .receivedAtP hup hnode hprog⟩
      · exact Or.inr ⟨2, .routedAtP hup hnode hprog⟩
  | executing hnode hprog => exact Or.inr ⟨1, .executing hprog⟩
  | forwarding hpass hprog =>
    rcases hprog with hprog | ⟨hup, hprog⟩
    · exact Or.inr ⟨7, .sentToA hpass hprog⟩
    · exact Or.inr ⟨4, .sentToP hup hpass hprog⟩
  | settled hprog hgood => exact Or.inl ⟨_, hprog⟩

/-- One call takes a read closer to its reply. -/
structure Closer (P A : NodeInfo) (live : Int → Bool) (up : Bool) (msg : Message) (n : Nat)
    (th : Thread) : Prop where
  callers : ∀ caller ∈ th.callers, Passes caller.next
  prog : (∃ reply, th.prog = .done reply) ∨ ∃ n', n' < n ∧ Ahead P A live up msg th n'

theorem closer_of_received {m : Machine} {t n : Nat} {th : Thread} {msg : Message}
    (ht : m.threads t = some th) (hcallers : ∀ caller ∈ th.callers, Passes caller.next)
    (hprog : th.prog = onMessage th.node msg)
    (hahead : ∀ th' : Thread, th'.node = th.node → th'.prog = handle th'.node msg →
      ∃ n', n' < n ∧ Ahead P A live up msg th' n') :
    ∃ m' th', m.step (.run t) = some m' ∧ m'.threads t = some th' ∧ th'.origin = th.origin ∧
      Closer P A live up msg n th' := by
  have hperf : th.prog.perform th.node (m.cluster.node th.node) =
      .continues ((m.cluster.node th.node).markAlive msg.nodeId) (handle th.node msg) [] := by
    rw [hprog]
    rfl
  obtain ⟨m', hstep, ht', -⟩ := Machine.exists_run_continues ht hperf
  exact ⟨m', _, hstep, ht', rfl, hcallers, Or.inr (hahead _ rfl rfl)⟩

theorem closer_of_sent {m : Machine} {t n : Nat} {th : Thread} {msg : Message} {p : NodeInfo}
    {next : Option Message → Prog} (ht : m.threads t = some th)
    (hcallers : ∀ caller ∈ th.callers, Passes caller.next) (hpass : Passes next)
    (hprog : th.prog = .sendMessage p.host p.port msg next)
    (hl : m.cluster.listener p.host p.port = some p.id)
    (hahead : ∀ th' : Thread, th'.node = p.id → th'.prog = onMessage th'.node msg →
      ∃ n', n' < n ∧ Ahead P A live up msg th' n') :
    ∃ m' th', m.step (.run t) = some m' ∧ m'.threads t = some th' ∧ th'.origin = th.origin ∧
      Closer P A live up msg n th' := by
  obtain ⟨m', hstep, ht', -⟩ := Machine.exists_run_calls ht hprog hl
  refine ⟨m', _, hstep, ht', rfl, fun caller hcaller => ?_, Or.inr (hahead _ rfl rfl)⟩
  rcases List.mem_cons.mp hcaller with rfl | hcaller
  · exact hpass
  · exact hcallers caller hcaller

/-- The lookup sends a read to a node that is closer to `P`. -/
theorem closer_of_routed {m : Machine} {t n : Nat} {th : Thread} {msg : Message} {p : NodeInfo}
    {next : Option Message → Prog} (ht : m.threads t = some th)
    (hcallers : ∀ caller ∈ th.callers, Passes caller.next) (htype : msg.type = .get)
    (hperf : th.prog.perform th.node (m.cluster.node th.node) = .continues
      (m.cluster.node th.node)
      (if p.id = th.node then execute th.node msg else .sendMessage p.host p.port msg next) [])
    (hn : 1 < n) (hahead : p.id ≠ th.node → ∀ th' : Thread,
      th'.prog = .sendMessage p.host p.port msg next →
        ∃ n', n' < n ∧ Ahead P A live up msg th' n') :
    ∃ m' th', m.step (.run t) = some m' ∧ m'.threads t = some th' ∧ th'.origin = th.origin ∧
      Closer P A live up msg n th' := by
  obtain ⟨m', hstep, ht', -⟩ := Machine.exists_run_continues ht hperf
  refine ⟨m', _, hstep, ht', rfl, hcallers, Or.inr ?_⟩
  by_cases hself : p.id = th.node
  · rw [if_pos hself, execute, htype]
    exact ⟨1, hn, .executing rfl⟩
  · rw [if_neg hself]
    exact hahead hself _ rfl

theorem perform_executeGet (i : Int) (msg : Message) (n : Node) :
    ∃ reply, (executeGet i msg).perform i n = .continues n (.done reply) [] := by
  rw [executeGet, Prog.perform]
  cases n.storage.get msg.key with
  | none => exact ⟨_, rfl⟩
  | some v => exact ⟨_, rfl⟩

/-- One call of a read on its way. -/
theorem ahead_step {m : Machine} (h : Inv base k v P A Q live up later m)
    (ho : Owners base k P A live) {t n : Nat} {th : Thread} {msg : Message}
    (ht : m.threads t = some th) (hkey : msg.key = k) (htype : msg.type = .get)
    (hcallers : ∀ caller ∈ th.callers, Passes caller.next) (hahead : Ahead P A live up msg th n) :
    ∃ m' th', m.step (.run t) = some m' ∧ m'.threads t = some th' ∧ th'.origin = th.origin ∧
      Closer P A live up msg n th' := by
  have hreq : msg.IsRequest := Or.inr (Or.inl htype)
  cases hahead with
  | executing hprog =>
    obtain ⟨reply, hperf⟩ := perform_executeGet th.node msg (m.cluster.node th.node)
    rw [← hprog] at hperf
    obtain ⟨m', hstep, ht', -⟩ := Machine.exists_run_continues ht hperf
    exact ⟨m', _, hstep, ht', rfl, hcallers, Or.inl ⟨reply, rfl⟩⟩
  | routedAtP hup hnode hprog =>
    subst hup
    have hperf := perform_handle_rejoined h.routing ho hkey hreq
    rw [← hnode, ← hprog, execute, htype] at hperf
    obtain ⟨m', hstep, ht', -⟩ := Machine.exists_run_continues ht hperf
    exact ⟨m', _, hstep, ht', rfl, hcallers, Or.inr ⟨1, by omega, .executing rfl⟩⟩
  | receivedAtP hup hnode hprog =>
    exact closer_of_received ht hcallers hprog fun th' hnode' hprog' =>
      ⟨2, by omega, .routedAtP hup (hnode'.trans hnode) hprog'⟩
  | sentToP hup hpass hprog =>
    have hl := (h.routing.listener_target ho (Or.inr ⟨hup, rfl⟩)).1
    exact closer_of_sent ht hcallers hpass hprog hl fun th' hnode' hprog' =>
      ⟨3, by omega, .receivedAtP hup hnode' hprog'⟩
  | routedAtA hnode hprog =>
    have hlive : IsUp P live up th.node := by
      rw [hnode]
      exact Or.inl ho.live_acting
    obtain ⟨p, next, hp, hpass, hperf⟩ := perform_handle h.routing ho hlive hkey hreq
    rw [← hprog] at hperf
    refine closer_of_routed ht hcallers htype hperf (by omega) fun hne th' hprog' => ?_
    rcases hp with rfl | ⟨hup, rfl⟩
    · exact absurd hnode.symm hne
    · exact ⟨4, by omega, .sentToP hup hpass hprog'⟩
  | receivedAtA hnode hprog =>
    exact closer_of_received ht hcallers hprog fun th' hnode' hprog' =>
      ⟨5, by omega, .routedAtA (hnode'.trans hnode) hprog'⟩
  | sentToA hpass hprog =>
    exact closer_of_sent ht hcallers hpass hprog (h.routing.listener_acting ho)
      fun th' hnode' hprog' => ⟨6, by omega, .receivedAtA hnode' hprog'⟩
  | routed hnode hprog =>
    obtain ⟨p, next, hp, hpass, hperf⟩ := perform_handle h.routing ho (Or.inl hnode) hkey hreq
    rw [← hprog] at hperf
    refine closer_of_routed ht hcallers htype hperf (by omega) fun _ th' hprog' => ?_
    rcases hp with rfl | ⟨hup, rfl⟩
    · exact ⟨7, by omega, .sentToA hpass hprog'⟩
    · exact ⟨4, by omega, .sentToP hup hpass hprog'⟩
  | received hnode hprog =>
    refine closer_of_received ht hcallers hprog fun th' hnode' hprog' =>
      ⟨8, by omega, .routed ?_ hprog'⟩
    rw [hnode']
    exact hnode

theorem finishes_of_ahead (ho : Owners base k P A live) (hQ : ∃ pos, (pos, Q) ∈ base.ring.entries)
    (hQlive : live Q.id = true) {t : Nat} {msg : Message} (hkey : msg.key = k)
    (htype : msg.type = .get) (n : Nat) {m : Machine} {th : Thread}
    (h : Inv base k v P A Q live up later m) (ht : m.threads t = some th)
    (horigin : th.origin = some msg) (hcallers : ∀ caller ∈ th.callers, Passes caller.next)
    (hahead : Ahead P A live up msg th n) : Finishes m t msg := by
  induction n using Nat.strong_induction_on generalizing m th with
  | _ n ih =>
    obtain ⟨m', th', hstep, ht', horigin', hcloser⟩ :=
      ahead_step h ho ht hkey htype hcallers hahead
    have hinv' : Inv base k v P A Q live up later m' :=
      inv_step ho hQ hQlive (a := .run t) trivial h hstep
    refine .step hstep ?_
    rcases hcloser.prog with ⟨reply, hdone⟩ | ⟨n', hlt, hahead'⟩
    · exact finishes_of_done ht' (horigin'.trans horigin) hcloser.callers hdone
    · exact ih n' hlt hinv' ht' (horigin'.trans horigin) hcloser.callers hahead'

/-- A read that runs can be brought to its reply by running its thread. -/
theorem Inv.finishes {m : Machine} (h : Inv base k v P A Q live up later m)
    (ho : Owners base k P A live) (hQ : ∃ pos, (pos, Q) ∈ base.ring.entries)
    (hQlive : live Q.id = true) {t : Nat} {th : Thread} {msg : Message}
    (ht : m.threads t = some th) (horigin : th.origin = some msg) (hkey : msg.key = k)
    (htype : msg.type = .get) (hlater : later t) : Finishes m t msg := by
  obtain ⟨hcallers, hread⟩ := (h.threads t th ht).2.reads msg horigin hkey htype hlater
  rcases ahead_of_reading hread with ⟨reply, hdone⟩ | ⟨n, hahead⟩
  · exact finishes_of_done ht horigin hcallers hdone
  · exact finishes_of_ahead ho hQ hQlive hkey htype n h ht horigin hcallers hahead

end Runs

/-! ## A run of the launched cluster -/

/-- Node 1 is down, and nodes 2 and 3 know it. -/
def degraded : Cluster := launchCluster [1] fun _ => [1]

/-- The copy of the write that node 2 sends to node 3. -/
def copy : Packet :=
  { host := (launchNode 3).host
    port := (launchNode 3).port
    msg := Replication.replicateMsg 2 (ascii "user1") (ascii "new") .put 0 }

def writeActions : List Action :=
  [.invoke 2 (putMsg "new"), .run 0, .run 0, .run 0, .run 0, .run 0, .run 0, .run 0,
   .deliver copy false, .run 1, .run 1, .run 1]

theorem sharedRing_degraded :
    SharedRing degraded launchRing (fun _ id => decide (id ∉ ([1] : List Int)))
      (fun i => i ∉ ([1] : List Int)) :=
  sharedRing_launchCluster [1] (fun _ => [1]) fun _ hi => hi

theorem getPrimary_markDead :
    (launchRing.markDead [1]).getPrimary (ascii "user1") = some (launchNode 2) := by
  have h := sharedRing_degraded.getPrimary (i := 2) (by decide) (ascii "user1")
  rw [owners_launchRing] at h
  refine Eq.trans h ?_
  decide

theorem getReplicas_markDead :
    (launchRing.markDead [1]).getReplicas (ascii "user1") replicationFactor =
      [launchNode 2, launchNode 3] := by
  have h := sharedRing_degraded.getReplicas (i := 2) (by decide) (ascii "user1")
  rw [owners_launchRing] at h
  refine Eq.trans h ?_
  decide

theorem perform_handle_putMsg {n : Node} (hn : n.ring = launchRing.markDead [1]) :
    (handle 2 (putMsg "new")).perform 2 n = .continues n (executePut 2 (putMsg "new")) [] := by
  have hprim : n.ring.getPrimary (putMsg "new").key = some (launchNode 2) := by
    rw [hn]
    exact getPrimary_markDead
  rw [handle_of_isRequest (Or.inl rfl), route, Prog.perform, hprim]
  rfl

theorem perform_getReplicas {n : Node} (hn : n.ring = launchRing.markDead [1])
    (next : List NodeInfo → Prog) :
    (Prog.getReplicas (ascii "user1") replicationFactor next).perform 2 n =
      .continues n (next [launchNode 2, launchNode 3]) [] := by
  rw [Prog.perform, hn, getReplicas_markDead]

def peers : List NodeInfo := [launchNode 2, launchNode 3]

def isLive (i : Int) : Bool := decide (i ∉ ([1] : List Int))

/-- The write at node 2 and the delivery of its copy to node 3. -/
def Written (m : Machine) : Prop :=
  Runs.exec Machine.step (Machine.idle degraded) writeActions = some m ∧
    .respond 0 (putMsg "new") (makeAck 2 true []) ∈ m.trace ∧ m.next = 2 ∧ m.cluster.inFlight = [] ∧
    m.cluster.listener = degraded.listener ∧
    (m.cluster.node 3).storage.getAllPairs = [(ascii "user1", ascii "new")] ∧
    (m.cluster.node 1).storage.log = []

set_option maxRecDepth 8000 in
theorem exists_written : ∃ m, Written m := by
  refine ⟨_, Runs.exec_cons.mpr ⟨_, rfl, Runs.exec_cons.mpr
      ⟨_, Machine.step_run_continues rfl rfl, Runs.exec_cons.mpr
      ⟨_, Machine.step_run_continues rfl (perform_handle_putMsg rfl), Runs.exec_cons.mpr
      ⟨_, Machine.step_run_continues rfl rfl, Runs.exec_cons.mpr
      ⟨_, Machine.step_run_continues rfl (perform_getReplicas rfl _), Runs.exec_cons.mpr
      ⟨_, Machine.step_run_continues rfl rfl, Runs.exec_cons.mpr
      ⟨_, Machine.step_run_continues rfl rfl, Runs.exec_cons.mpr
      ⟨_, rfl, Runs.exec_cons.mpr
      ⟨_, rfl, Runs.exec_cons.mpr
      ⟨_, Machine.step_run_continues rfl rfl, Runs.exec_cons.mpr
      ⟨_, Machine.step_run_continues rfl rfl, Runs.exec_cons.mpr
      ⟨_, rfl, rfl⟩⟩⟩⟩⟩⟩⟩⟩⟩⟩⟩⟩, ?_, rfl, rfl, rfl, rfl, rfl⟩
  decide

theorem holds_of_pairs {c : Cluster} {i : Int} {key value : Bytes}
    (h : (c.node i).storage.getAllPairs = [(key, value)]) : Holds key value c i := by
  refine StorageEngine.mem_getAllPairs.mp ?_
  rw [h]
  exact List.mem_singleton_self _

theorem exists_run_done {m : Machine} {t : Nat} {th : Thread} {msg reply : Message}
    (ht : m.threads t = some th) (hprog : th.prog = .done reply) (hcallers : th.callers = [])
    (horigin : th.origin = some msg) :
    ∃ m', m.step (.run t) = some m' ∧ .respond t msg reply ∈ m'.trace := by
  refine ⟨_, Machine.step_run_finished ht hprog hcallers, ?_⟩
  rw [horigin]
  exact List.mem_append_right _ (List.mem_singleton_self _)

/-- A read at its primary, with no other thread in between. -/
theorem exec_read {m : Machine} {i : Int} {msg : Message} {p : NodeInfo}
    (htype : msg.type = .get)
    (hprim : ((m.cluster.node i).markAlive msg.nodeId).ring.getPrimary msg.key = some p)
    (hp : p.id = i) :
    ∃ m', Runs.exec Machine.step m (.invoke i msg :: List.replicate 4 (.run m.next)) = some m' ∧
      .respond m.next msg (match (m.cluster.node i).storage.get msg.key with
        | none => makeError i (ascii "Key not found: " ++ msg.key)
        | some v => makeAck i true v) ∈ m'.trace := by
  let th : Thread := { origin := some msg, node := i, prog := onMessage i msg, callers := [] }
  let m₀ : Machine := { m.spawn th with trace := m.trace ++ [.invoke m.next msg] }
  have ht₀ : m₀.threads m.next = some th := Function.update_self ..
  obtain ⟨m₁, hstep₁, ht₁, hc₁, -⟩ := Machine.exists_run_continues ht₀ rfl
  have hnode₁ : m₁.cluster.node i = (m.cluster.node i).markAlive msg.nodeId := by
    rw [hc₁, send_node]
    exact setNode_node_self ..
  have hroute : (handle i msg).perform i (m₁.cluster.node i) =
      .continues (m₁.cluster.node i) (executeGet i msg) [] := by
    rw [handle_of_isRequest (Or.inr (Or.inl htype)), route, Prog.perform, hnode₁, hprim, execute,
      htype]
    exact congrArg (fun q => Outcome.continues _ q []) (if_pos hp)
  obtain ⟨m₂, hstep₂, ht₂, hc₂, -⟩ := Machine.exists_run_continues ht₁ hroute
  have hnode₂ : (m₂.cluster.node i).storage = (m.cluster.node i).storage := by
    rw [hc₂, send_node]
    refine (congrArg Node.storage (setNode_node_self ..)).trans ?_
    rw [hnode₁]
    rfl
  obtain ⟨m₃, hstep₃, ht₃, -⟩ := Machine.exists_run_continues ht₂ rfl
  have hdone : (match (m₂.cluster.node i).storage.get msg.key with
      | none => Prog.done (makeError i (ascii "Key not found: " ++ msg.key))
      | some v => .done (makeAck i true v)) =
      .done (match (m.cluster.node i).storage.get msg.key with
        | none => makeError i (ascii "Key not found: " ++ msg.key)
        | some v => makeAck i true v) := by
    rw [hnode₂]
    cases (m.cluster.node i).storage.get msg.key <;> rfl
  obtain ⟨m₄, hstep₄, hmem⟩ := exists_run_done ht₃ hdone rfl rfl
  exact ⟨m₄, Runs.exec_cons.mpr ⟨m₀, rfl, Runs.exec_cons.mpr ⟨m₁, hstep₁, Runs.exec_cons.mpr
    ⟨m₂, hstep₂, Runs.exec_cons.mpr ⟨m₃, hstep₃, Runs.exec_cons.mpr ⟨m₄, hstep₄, rfl⟩⟩⟩⟩⟩, hmem⟩

/-- The exchange of a node with a peer, with no other thread in between. -/
theorem exec_sync {m : Machine} {i : Int} {peer : NodeInfo}
    (hl : m.cluster.listener peer.host peer.port = some peer.id) (hi : i ≠ peer.id)
    (hpairs : (m.cluster.node peer.id).storage.getAllPairs ≠ []) :
    ∃ m', Runs.exec Machine.step m (.sync i peer :: List.replicate 6 (.run m.next)) = some m' ∧
      m'.next = m.next + 1 ∧ (m'.cluster.node i).ring = (m.cluster.node i).ring ∧
      (m'.cluster.node i).storage = (m.cluster.node i).storage.putBatch
        (m.cluster.node peer.id).storage.getAllPairs fun _ => (m.cluster.node i).clock := by
  let th : Thread :=
    { origin := none, node := i, prog := Replication.syncFromPeer i peer, callers := [] }
  have ht₀ : (m.spawn th).threads m.next = some th := Function.update_self ..
  obtain ⟨m₁, hstep₁, ht₁, hc₁, hnext₁⟩ := Machine.exists_run_calls (j := peer.id) ht₀ rfl hl
  obtain ⟨m₂, hstep₂, ht₂, hc₂, hnext₂, -⟩ := Machine.exists_run_continues ht₁ rfl
  have hpeer₂ : (m₂.cluster.node peer.id).storage = (m.cluster.node peer.id).storage := by
    rw [hc₂, send_node]
    refine (congrArg Node.storage (setNode_node_self ..)).trans ?_
    rw [hc₁]
    rfl
  obtain ⟨m₃, hstep₃, ht₃, hc₃, hnext₃, -⟩ := Machine.exists_run_continues ht₂ rfl
  obtain ⟨m₄, hstep₄, ht₄, hc₄, hnext₄⟩ := Machine.exists_run_returns ht₃ rfl rfl
  have hnode₄ : m₄.cluster.node i = m.cluster.node i := by
    rw [hc₄, hc₃, send_node]
    refine (setNode_node_of_ne _ _ hi).trans ?_
    rw [hc₂, send_node]
    refine (setNode_node_of_ne _ _ hi).trans ?_
    rw [hc₁]
    rfl
  have hbatch : (afterSync (some (syncReply peer.id (m₂.cluster.node peer.id)))).perform i
      (m₄.cluster.node i) = .continues { m.cluster.node i with
        storage := (m.cluster.node i).storage.putBatch
          (m.cluster.node peer.id).storage.getAllPairs fun _ => (m.cluster.node i).clock }
        (.done {}) [] := by
    rw [hnode₄]
    simp [afterSync, syncReply, Replication.handleSyncData, hpeer₂, hpairs, Prog.perform]
  obtain ⟨m₅, hstep₅, ht₅, hc₅, hnext₅, -⟩ := Machine.exists_run_continues ht₄ hbatch
  have hstep₆ := Machine.step_run_finished ht₅ rfl rfl
  have hnode₅ : m₅.cluster.node i = _ := (congrFun (congrArg Cluster.node hc₅) i).trans
    (setNode_node_self ..)
  refine ⟨_, Runs.exec_cons.mpr ⟨_, rfl, Runs.exec_cons.mpr ⟨m₁, hstep₁, Runs.exec_cons.mpr
    ⟨m₂, hstep₂, Runs.exec_cons.mpr ⟨m₃, hstep₃, Runs.exec_cons.mpr ⟨m₄, hstep₄, Runs.exec_cons.mpr
    ⟨m₅, hstep₅, Runs.exec_cons.mpr ⟨_, hstep₆, rfl⟩⟩⟩⟩⟩⟩⟩, ?_, ?_, ?_⟩
  · exact hnext₅.trans (hnext₄.trans (hnext₃.trans (hnext₂.trans hnext₁)))
  · show (m₅.cluster.node i).ring = _
    rw [hnode₅]
  · show (m₅.cluster.node i).storage = _
    rw [hnode₅]

theorem getPrimary_markAlive {n : Node} (h : n.ring.ring.entries = launchRing.ring.entries)
    (id : Int) : (n.markAlive id).ring.getPrimary (ascii "user1") = some (launchNode 1) := by
  have halive : ∀ e ∈ n.ring.ring.entries, e.2.alive = true := by
    rw [h]
    exact alive_launchRing
  have hentries : (n.markAlive id).ring.ring.entries = launchRing.ring.entries := by
    rw [Node.markAlive]
    dsimp only
    split
    · rw [entries_updateNodeStatus_true halive, h]
    · exact h
  rw [getPrimary_congr hentries, getPrimary_launchRing]

theorem owners_degraded :
    Owners launchRing (ascii "user1") (launchNode 1) (launchNode 2) isLive where
  alive := alive_launchRing
  primary := getPrimary_launchRing
  down := rfl
  acting := by
    rw [owners_launchRing]
    rfl

theorem routing_degraded : Routing launchRing (launchNode 1) isLive false degraded where
  seen i hi := by
    refine ⟨false, by simp, ?_⟩
    have hview : view (launchNode 1) isLive false = fun id => decide (id ∉ ([1] : List Int)) := by
      funext id
      simp [view, isLive]
    rw [hview]
    exact sharedRing_degraded.sees i (of_decide_eq_true hi)
  rejoined := by simp
  reach e he hlive := sharedRing_degraded.up e he (of_decide_eq_true hlive)
  reachP := rfl
  listens host port j hj := by
    left
    by_cases haddr : host = ascii "localhost" ∧ port - 8000 ∈ ([1, 2, 3] : List Int) ∧
        port - 8000 ∉ ([1] : List Int)
    · have hport : some (port - 8000) = some j := (if_pos haddr).symm.trans hj
      rw [← Option.some.inj hport]
      exact decide_eq_true haddr.2.2
    · exact absurd ((if_neg haddr).symm.trans hj) (by simp)

theorem ring_peers :
    peers.foldl HashRing.addNode (HashRing.empty.addNode (launchNode 1)) = launchRing := rfl

section Example

variable {up : Bool} {m : Machine}

theorem request_putMsg :
    (writing launchRing (ascii "user1") (ascii "new") (launchNode 1) isLive up).Request
      (putMsg "new") where
  isRequest := Or.inl rfl
  sender _ := Or.inl rfl
  put _ _ := rfl
  del h := absurd h (by decide)

theorem request_getMsg :
    (writing launchRing (ascii "user1") (ascii "new") (launchNode 1) isLive up).Request getMsg where
  isRequest := Or.inr (Or.inl rfl)
  sender _ := Or.inl rfl
  put h := absurd h (by decide)
  del h := absurd h (by decide)

theorem allowed_write : ∀ a ∈ writeActions,
    Allowed launchRing (ascii "user1") (ascii "new") (launchNode 1) (launchNode 3) isLive
      false a := by
  intro a ha
  rcases List.mem_cons.mp ha with rfl | ha
  · exact ⟨Or.inl rfl, request_putMsg⟩
  · simp only [List.mem_cons, List.not_mem_nil, or_false] at ha
    rcases ha with rfl | rfl | rfl | rfl | rfl | rfl | rfl | rfl | rfl | rfl | rfl <;> trivial

theorem allowed_read (t : Nat) : ∀ a ∈ Action.invoke 1 getMsg :: List.replicate 4 (.run t),
    Allowed launchRing (ascii "user1") (ascii "new") (launchNode 1) (launchNode 3) isLive
      true a := by
  intro a ha
  rcases List.mem_cons.mp ha with rfl | ha
  · exact ⟨Or.inr ⟨rfl, rfl⟩, request_getMsg⟩
  · rw [List.eq_of_mem_replicate ha]
    trivial

/-- The exchange of node 1 with node 3, and then a read at node 1. -/
def rejoinActions (t : Nat) : List Action :=
  (.sync 1 (launchNode 3) :: List.replicate 6 (.run t)) ++
    (.invoke 1 getMsg :: List.replicate 4 (.run (t + 1)))

theorem allowed_rejoin (t : Nat) : ∀ a ∈ rejoinActions t,
    Allowed launchRing (ascii "user1") (ascii "new") (launchNode 1) (launchNode 3) isLive
      true a := by
  intro a ha
  rcases List.mem_append.mp ha with ha | ha
  · rcases List.mem_cons.mp ha with rfl | ha
    · exact ⟨rfl, rfl, rfl⟩
    · rw [List.eq_of_mem_replicate ha]
      trivial
  · exact allowed_read (t + 1) a ha

end Example

end Rejoin
end DistributedDb
