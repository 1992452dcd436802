import DistributedDb.Gateway.Service

/-
What the gateway reports about the cluster.

`/cluster/status` pings the three nodes it is configured with and asks the
coordinator for the leader.  The question travels as a member `query` that no node
decodes, and a node answers a ping with its own id in every state of its election.
So the endpoint reports who listens at the address of the coordinator.
-/

namespace DistributedDb
namespace Gateway

open Json TcpServer Coordinator Cluster

variable {φ : Type}

/-! ## The endpoint -/

/-- An entry of `CLUSTER_NODES`. -/
structure ClusterNode where
  id : Int
  host : Text
  port : Int
  deriving DecidableEq, Repr

/-- The three nodes, with the hosts and ports of the environment. -/
def clusterNodes (host : Int → Text) (port : Int → Int) : List ClusterNode :=
  [1, 2, 3].map fun i => { id := i, host := host i, port := port i }

/-- How the response models convert a value for a field of type `bool` or `int`. -/
structure Models (φ : Type) where
  bool : Json φ → Option Bool
  int : Json φ → Option Int
  bool_boolean : ∀ b, bool (.boolean b) = some b
  int_integer : ∀ n, int (.integer n) = some n

structure NodeStatus extends ClusterNode where
  alive : Bool
  deriving DecidableEq, Repr

structure ClusterStatusResponse where
  nodes : List NodeStatus
  leader : Int
  deriving DecidableEq, Repr

def addressOf (host : Text) (port : Int) : Text :=
  host ++ ":".toList ++ (toString port).toList

/-- `resp.get(key, default)` on a reply; `none` when it raises. -/
def getMember (key : Bytes) (default : Json φ) : Json φ → Option (Json φ)
  | .object members => some ((lookup key members).getD default)
  | _ => none

/-- Every exception counts as a dead node. -/
def checkNodeAlive (x : Externals φ) (node : ClusterNode) (events : List Recv) : Json φ :=
  match receive x (addressOf node.host node.port) events with
  | .reply resp => (getMember (ascii "success") (.boolean false) resp).getD (.boolean false)
  | _ => .boolean false

/-- The two calls of `cluster_status` on the coordinator; the reply to the first one
is not looked at. -/
def leaderId (g : Settings φ) (call query : List Recv) : Json φ :=
  match receive g.json g.address call with
  | .reply _ =>
    match receive g.json g.address query with
    | .reply resp => (getMember (ascii "node_id") (.integer (-1)) resp).getD (.integer (-1))
    | _ => .integer (-1)
  | _ => .integer (-1)

/-- `none` is an exception that the endpoint does not catch: a value that a response
model refuses. -/
def clusterStatus (g : Settings φ) (models : Models φ) (nodes : List ClusterNode)
    (ping : Int → List Recv) (call query : List Recv) : Option ClusterStatusResponse := do
  let status ← nodes.mapM fun n =>
    (models.bool (checkNodeAlive g.json n (ping n.id))).map fun alive =>
      { toClusterNode := n, alive := alive }
  let leader ← models.int (leaderId g call query)
  some { nodes := status.mergeSort fun a b => decide (a.id ≤ b.id), leader := leader }

/-! ## The nodes behind the addresses -/

/-- The reply of node `j` to a message that meets the cluster in the state `c`. -/
def ReplyOf (c : Cluster) (j : Int) (req reply : Message) : Prop :=
  ∃ budget d, runWith (serve budget) j (onMessage j req) c = some (d, reply)

/-- What may come in when the gateway sends a line to an address: an exception when
nobody listens there, and otherwise some part of the answer of the node. -/
def Comes (x : Externals φ) (c : Cluster) (host : Text) (port : Int) (line : Bytes)
    (events : List Recv) : Prop :=
  match c.listener (utf8 host) port with
  | none => arrived events = ([], true)
  | some j => ∃ handler : Message → Message,
      (∀ req, request x line = some req → ReplyOf c j req (handler req)) ∧
        (arrived events).1 <+: TcpClient.answer x handler line

/-- The answer to a ping. -/
def pong (j : Int) : Message := makeAck j true []

theorem inRange_pong {j : Int} (h : -2 ^ 31 ≤ j ∧ j < 2 ^ 31) : Codec.InRange (pong j) where
  nodeId := h
  term := ⟨by simp [pong, makeAck], by simp [pong, makeAck]⟩
  timestamp := ⟨by simp [pong, makeAck], by simp [pong, makeAck]⟩

/-- Node `j` listens at the address and its answer to a ping came in whole. -/
def Answered (x : Externals φ) (c : Cluster) (host : Text) (port : Int) (events : List Recv)
    (j : Int) : Prop :=
  c.listener (utf8 host) port = some j ∧ Whole x (pong j) events

/-- The calls that a node takes for a ping, the question for the leader among them. -/
def IsPing (c : Call) : Prop := c = .checkNodeAlive ∨ c = .queryLeader

theorem type_message {c : Call} (hc : IsPing c) (now : Int) :
    (c.message now).type = .heartbeat := by
  rcases hc with rfl | rfl <;> rfl

/-- A ping is answered with the own id, whatever state the node is in. -/
theorem eq_pong_of_replyOf {c : Cluster} {j : Int} {req reply : Message}
    (htype : req.type = .heartbeat) (h : ReplyOf c j req reply) : reply = pong j := by
  obtain ⟨budget, d, h⟩ := h
  simp only [onMessage, handle, htype, runWith, Option.some.injEq, Prod.mk.injEq] at h
  exact h.2.symm

section Calls

variable {x : Externals φ} {c : Cluster} {host : Text} {port : Int}
  (hids : ∀ j, c.listener (utf8 host) port = some j → -2 ^ 31 ≤ j ∧ j < 2 ^ 31)
  {call : Call} (hcall : IsPing call) {now : Int} (hlow : -2 ^ 63 ≤ now) (hhigh : now < 2 ^ 63)
  {events : List Recv} (hcomes : Comes x c host port (clientLine call.fields now) events)

include hids hcall hlow hhigh hcomes

/-- The client returns the answer of the node that listens at the address, and only
that. -/
theorem receive_ping_iff (address : Text) (resp : Json φ) :
    receive x address events = .reply resp ↔
      ∃ j, resp = Codec.toJson (pong j) ∧ Answered x c host port events j := by
  unfold Comes at hcomes
  cases hlistener : c.listener (utf8 host) port with
  | none =>
    rw [hlistener] at hcomes
    refine iff_of_false (receive_nothing x address (by rw [hcomes]) resp) ?_
    rintro ⟨j, -, hj, -⟩
    exact absurd (hlistener.symm.trans hj) (by simp)
  | some j =>
    rw [hlistener] at hcomes
    obtain ⟨handler, hhandler, harrived⟩ := hcomes
    have hreq := request_clientLine x call hlow hhigh []
    rw [List.append_nil] at hreq
    have hpong : handler (call.message now) = pong j :=
      eq_pong_of_replyOf (type_message hcall now) (hhandler _ hreq)
    have hrange : Codec.InRange (handler (call.message now)) := by
      rw [hpong]
      exact inRange_pong (hids j hlistener)
    rw [receive_answer_iff x address hreq hrange harrived resp, hpong]
    constructor
    · rintro ⟨rfl, hwhole⟩
      exact ⟨j, rfl, hlistener, hwhole⟩
    · rintro ⟨k, rfl, hk, hwhole⟩
      obtain rfl := Option.some.inj (hlistener.symm.trans hk)
      exact ⟨rfl, hwhole⟩

/-- Either one node answered, and the client returns its reply, or none did, and the
client returns no reply. -/
theorem receive_ping_cases (address : Text) :
    (∃ j, Answered x c host port events j ∧
        receive x address events = .reply (Codec.toJson (pong j))) ∨
      ((∀ j, ¬Answered x c host port events j) ∧
        ∀ resp, receive x address events ≠ .reply resp) := by
  by_cases h : ∃ j, Answered x c host port events j
  · obtain ⟨j, hj⟩ := h
    exact Or.inl ⟨j, hj, (receive_ping_iff hids hcall hlow hhigh hcomes address _).mpr ⟨j, rfl, hj⟩⟩
  · right
    refine ⟨fun j hj => h ⟨j, hj⟩, fun resp hresp => h ?_⟩
    obtain ⟨j, -, hj⟩ := (receive_ping_iff hids hcall hlow hhigh hcomes address resp).mp hresp
    exact ⟨j, hj⟩

end Calls

theorem getMember_toJson {m : Message} {key : Bytes} {v : Json φ}
    (h : (Codec.members m).find? key = some v) (default : Json φ) :
    getMember key default (Codec.toJson m) = some v := by
  rw [Codec.toJson, getMember, lookup_entries, h, Option.getD_some]

theorem getMember_success (j : Int) (default : Json φ) :
    getMember (ascii "success") default (Codec.toJson (pong j)) = some (.boolean true) := by
  obtain ⟨-, -, -, -, -, -, hsuccess, -, -⟩ := Codec.find?_members (φ := φ) (pong j)
  exact getMember_toJson hsuccess default

theorem getMember_nodeId (j : Int) (default : Json φ) :
    getMember (ascii "node_id") default (Codec.toJson (pong j)) = some (.integer j) := by
  obtain ⟨-, -, -, hnode, -⟩ := Codec.find?_members (φ := φ) (pong j)
  exact getMember_toJson hnode default

/-! ## The reports -/

/-- The gateway sends a call to an address, at some time of its clock, and the events
are what its `recv` sees.  The ids of the nodes are values of an `int`. -/
structure Sends (x : Externals φ) (c : Cluster) (host : Text) (port : Int) (call : Call)
    (events : List Recv) : Prop where
  ids : ∀ j, c.listener (utf8 host) port = some j → -2 ^ 31 ≤ j ∧ j < 2 ^ 31
  comes : ∃ now : Int, -2 ^ 63 ≤ now ∧ now < 2 ^ 63 ∧
    Comes x c host port (clientLine call.fields now) events

theorem Sends.receive_cases {x : Externals φ} {c : Cluster} {host : Text} {port : Int} {call : Call}
    {events : List Recv} (h : Sends x c host port call events) (hcall : IsPing call)
    (address : Text) :
    (∃ j, Answered x c host port events j ∧
        receive x address events = .reply (Codec.toJson (pong j))) ∨
      ((∀ j, ¬Answered x c host port events j) ∧
        ∀ resp, receive x address events ≠ .reply resp) := by
  obtain ⟨now, hlow, hhigh, hcomes⟩ := h.comes
  exact receive_ping_cases h.ids hcall hlow hhigh hcomes address

/-- A node counts as alive when its answer came in whole. -/
theorem checkNodeAlive_eq {x : Externals φ} {c : Cluster} {node : ClusterNode} {events : List Recv}
    (h : Sends x c node.host node.port .checkNodeAlive events) :
    ∃ alive, checkNodeAlive x node events = .boolean alive ∧
      (alive = true ↔ ∃ j, Answered x c node.host node.port events j) := by
  unfold checkNodeAlive
  rcases h.receive_cases (Or.inl rfl) (addressOf node.host node.port) with
    ⟨j, hj, hreceive⟩ | ⟨hnone, hreceive⟩
  · refine ⟨true, ?_, iff_of_true rfl ⟨j, hj⟩⟩
    rw [hreceive]
    dsimp only
    rw [getMember_success, Option.getD_some]
  · refine ⟨false, ?_, iff_of_false (by simp) fun ⟨j, hj⟩ => hnone j hj⟩
    split
    · rename_i resp hresp
      exact absurd hresp (hreceive resp)
    · rfl

/-- The id of the node that answers the second call, when both are answered. -/
theorem leaderId_eq {g : Settings φ} {before after : Cluster} {call query : List Recv}
    (hcall : Sends g.json before g.coordHost g.coordPort .checkNodeAlive call)
    (hquery : Sends g.json after g.coordHost g.coordPort .queryLeader query) :
    ∃ leader, leaderId g call query = .integer leader ∧
      ((∃ i, Answered g.json before g.coordHost g.coordPort call i ∧
          Answered g.json after g.coordHost g.coordPort query leader) ∨
        (leader = -1 ∧ ((∀ i, ¬Answered g.json before g.coordHost g.coordPort call i) ∨
          ∀ j, ¬Answered g.json after g.coordHost g.coordPort query j))) := by
  unfold leaderId
  rcases hcall.receive_cases (Or.inl rfl) g.address with
    ⟨i, hi, hreceive⟩ | ⟨hnone, hreceive⟩
  · rw [hreceive]
    dsimp only
    rcases hquery.receive_cases (Or.inr rfl) g.address with
      ⟨j, hj, hreceive⟩ | ⟨hnone, hreceive⟩
    · refine ⟨j, ?_, Or.inl ⟨i, hi, hj⟩⟩
      rw [hreceive]
      dsimp only
      rw [getMember_nodeId, Option.getD_some]
    · refine ⟨-1, ?_, Or.inr ⟨rfl, Or.inr hnone⟩⟩
      split
      · rename_i resp hresp
        exact absurd hresp (hreceive resp)
      · rfl
  · refine ⟨-1, ?_, Or.inr ⟨rfl, Or.inl hnone⟩⟩
    split
    · rename_i resp hresp
      exact absurd hresp (hreceive resp)
    · rfl

theorem exists_mapM {α β : Type} {f : α → Option β} {origin : β → α} {P : β → Prop} {l : List α}
    (h : ∀ a ∈ l, ∃ b, f a = some b ∧ origin b = a ∧ P b) :
    ∃ bs, l.mapM f = some bs ∧ bs.map origin = l ∧ ∀ b ∈ bs, P b := by
  induction l with
  | nil => exact ⟨[], rfl, rfl, List.forall_mem_nil P⟩
  | cons a rest ih =>
    obtain ⟨b, hb, rfl, hP⟩ := h a List.mem_cons_self
    obtain ⟨bs, hbs, rfl, hrest⟩ := ih fun a' ha' => h a' (List.mem_cons_of_mem _ ha')
    exact ⟨b :: bs, by simp [hb, hbs], rfl, List.forall_mem_cons.mpr ⟨hP, hrest⟩⟩

/-- Whatever state the cluster is in at each of the calls: the endpoint lists every
configured node once, in the order of the ids, as alive exactly when its whole
answer came in, and the leader is the id of the node that answered at the address
of the coordinator, or -1. -/
theorem status_reports_listeners {g : Settings φ} (models : Models φ) {nodes : List ClusterNode}
    {state : Int → Cluster} {ping : Int → List Recv}
    (hping : ∀ n ∈ nodes, Sends g.json (state n.id) n.host n.port .checkNodeAlive (ping n.id))
    {before after : Cluster} {call query : List Recv}
    (hcall : Sends g.json before g.coordHost g.coordPort .checkNodeAlive call)
    (hquery : Sends g.json after g.coordHost g.coordPort .queryLeader query) :
    ∃ status, clusterStatus g models nodes ping call query = some status ∧
      (status.nodes.map NodeStatus.toClusterNode).Perm nodes ∧
      (status.nodes.Pairwise fun a b => a.id ≤ b.id) ∧
      (∀ n ∈ status.nodes, n.alive = true ↔
        ∃ j, Answered g.json (state n.id) n.host n.port (ping n.id) j) ∧
      ((∃ i, Answered g.json before g.coordHost g.coordPort call i ∧
          Answered g.json after g.coordHost g.coordPort query status.leader) ∨
        (status.leader = -1 ∧ ((∀ i, ¬Answered g.json before g.coordHost g.coordPort call i) ∨
          ∀ j, ¬Answered g.json after g.coordHost g.coordPort query j))) := by
  have hlisted : ∀ n ∈ nodes, ∃ s : NodeStatus,
      (models.bool (checkNodeAlive g.json n (ping n.id))).map
          (fun alive => { toClusterNode := n, alive := alive }) = some s ∧ s.toClusterNode = n ∧
        (s.alive = true ↔ ∃ j, Answered g.json (state s.id) s.host s.port (ping s.id) j) := by
    intro n hn
    obtain ⟨alive, heq, halive⟩ := checkNodeAlive_eq (hping n hn)
    refine ⟨{ toClusterNode := n, alive := alive }, ?_, rfl, halive⟩
    rw [heq, models.bool_boolean, Option.map_some]
  obtain ⟨status, hstatus, horigin, hall⟩ := exists_mapM hlisted
  obtain ⟨leader, hleader, hcases⟩ := leaderId_eq hcall hquery
  have hperm := List.mergeSort_perm status fun a b => decide (a.id ≤ b.id)
  refine ⟨{ nodes := status.mergeSort fun a b => decide (a.id ≤ b.id), leader := leader },
    ?_, ?_, ?_, fun n hn => hall n (hperm.mem_iff.mp hn), hcases⟩
  · rw [clusterStatus, hstatus, hleader, models.int_integer]
    rfl
  · rw [← horigin]
    exact hperm.map _
  · have hsorted : (status.mergeSort fun a b => decide (a.id ≤ b.id)).Pairwise
        fun a b => decide (a.id ≤ b.id) = true :=
      List.pairwise_mergeSort
        (fun a b c hab hbc => by simp only [decide_eq_true_eq] at *; omega)
        (fun a b => by simp only [Bool.or_eq_true, decide_eq_true_eq]; omega) status
    exact hsorted.imp fun h => of_decide_eq_true h

/-- Only values of the type of the field are converted. -/
def strictModels : Models Empty where
  bool
    | .boolean b => some b
    | _ => none
  int
    | .integer n => some n
    | _ => none
  bool_boolean _ := rfl
  int_integer _ := rfl

def pongLine (j : Int) : Bytes :=
  ascii "\x7b\"error\":\"\",\"key\":\"\",\"node_id\":" ++ dumpInteger j ++
    ascii ",\"success\":true,\"term\":0,\"timestamp\":0,\"type\":\"ACK\",\"value\":\"\"\x7d\n"

/-- The answer of node 1 comes in whole, that of node 2 is cut, and node 3 is down. -/
def pingEvents (i : Int) : List Recv :=
  if i = 1 then [.chunk (pongLine 1)]
  else if i = 2 then [.chunk ((pongLine 2).take 9), .raises "timed out".toList]
  else [.raises "Connection refused".toList]

/-- The cluster without node 3. -/
def withoutThree : Cluster := launchCluster [3] fun _ => []

theorem replyOf_ping (c : Cluster) (j : Int) {req : Message} (htype : req.type = .heartbeat) :
    ReplyOf c j req (pong j) := by
  refine ⟨0, c.setNode j ((c.node j).markAlive req.nodeId), ?_⟩
  simp [onMessage, handle, htype, runWith, pong, makeAck]

theorem sends_withoutThree {call : Call} (hcall : IsPing call) {port j : Int} {line : Bytes}
    (hj : withoutThree.listener (utf8 "localhost".toList) port = some j)
    (hrange : -2 ^ 31 ≤ j ∧ j < 2 ^ 31)
    (hline : Codec.serializeMessage integersOnly (pong j) = some line) {events : List Recv}
    (harrived : (arrived events).1 <+: line) :
    Sends integersOnly withoutThree "localhost".toList port call events where
  ids k hk := Option.some.inj (hj.symm.trans hk) ▸ hrange
  comes := by
    have hreq := request_clientLine integersOnly call (show -2 ^ 63 ≤ (0 : Int) by decide)
      (by decide) []
    rw [List.append_nil] at hreq
    refine ⟨0, by decide, by decide, ?_⟩
    rw [Comes, hj]
    refine ⟨fun _ => pong j, fun req hreq' => ?_, ?_⟩
    · rw [← Option.some.inj (hreq.symm.trans hreq')]
      exact replyOf_ping _ j (type_message hcall 0)
    · rw [TcpClient.answer, hreq]
      dsimp only
      rw [hline]
      exact harrived

/-- The node that is down is listed as dead, the first one as alive and as the leader. -/
theorem status_reports_listeners_withoutThree :
    ∃ status, clusterStatus System.localGateway strictModels
        (clusterNodes (fun _ => "localhost".toList) fun i => 8000 + i) pingEvents
        [.chunk (pongLine 1)] [.chunk (pongLine 1)] = some status ∧
      status.leader = 1 ∧ ∀ n ∈ status.nodes, (n.id = 1 → n.alive = true) ∧
        (n.id = 3 → n.alive = false) := by
  have hone : Codec.serializeMessage integersOnly (pong 1) = some (pongLine 1) := by
    decide +kernel
  have htwo : Codec.serializeMessage integersOnly (pong 2) = some (pongLine 2) := by
    decide +kernel
  have hall : (arrived [.chunk (pongLine 1)]).1 = pongLine 1 := by
    decide +kernel
  have hfirst : withoutThree.listener (utf8 "localhost".toList) 8001 = some 1 := by decide
  have hsecond : withoutThree.listener (utf8 "localhost".toList) 8002 = some 2 := by decide
  have hthird : withoutThree.listener (utf8 "localhost".toList) 8003 = none := by decide
  have hcoord : ∀ {call}, IsPing call →
      Sends integersOnly withoutThree "localhost".toList 8001 call [.chunk (pongLine 1)] :=
    fun hcall => sends_withoutThree hcall hfirst (by decide) hone (hall ▸ List.prefix_rfl)
  have hping : ∀ n ∈ clusterNodes (fun _ => "localhost".toList) fun i => 8000 + i,
      Sends integersOnly withoutThree n.host n.port .checkNodeAlive (pingEvents n.id) := by
    intro n hn
    simp only [clusterNodes, List.map_cons, List.map_nil, List.mem_cons, List.not_mem_nil,
      or_false] at hn
    rcases hn with rfl | rfl | rfl
    · exact hcoord (Or.inl rfl)
    · refine sends_withoutThree (Or.inl rfl) hsecond (by decide) htwo ?_
      have hcut : (arrived (pingEvents 2)).1 = (pongLine 2).take 9 := by decide +kernel
      rw [hcut]
      exact List.take_prefix _ _
    · refine ⟨fun j hj => absurd (hthird.symm.trans hj) (by simp), 0, by decide, by decide, ?_⟩
      show Comes integersOnly withoutThree "localhost".toList 8003 _ (pingEvents 3)
      rw [Comes, hthird]
      rfl
  obtain ⟨status, hstatus, hperm, -, halive, hleader⟩ :=
    @status_reports_listeners Empty System.localGateway strictModels _ (fun _ => withoutThree)
      pingEvents hping withoutThree withoutThree _ _ (hcoord (Or.inl rfl)) (hcoord (Or.inr rfl))
  have hwhole : Answered integersOnly withoutThree "localhost".toList 8001
      [.chunk (pongLine 1)] 1 :=
    ⟨hfirst, _, hone, Or.inl hall⟩
  refine ⟨status, hstatus, ?_, fun n hn => ?_⟩
  · rcases hleader with ⟨i, -, hlistener, -⟩ | ⟨-, hnone | hnone⟩
    · exact (Option.some.inj (hfirst.symm.trans hlistener)).symm
    · exact absurd hwhole (hnone 1)
    · exact absurd hwhole (hnone 1)
  · have hmem := hperm.mem_iff.mp (List.mem_map_of_mem hn)
    have hiff := halive n hn
    simp only [clusterNodes, List.map_cons, List.map_nil, List.mem_cons, List.not_mem_nil,
      or_false] at hmem
    obtain ⟨node, alive⟩ := n
    dsimp only at hmem hiff ⊢
    rcases hmem with rfl | rfl | rfl
    · exact ⟨fun _ => hiff.mpr ⟨1, hwhole⟩, fun h => absurd h (by decide)⟩
    · exact ⟨fun h => absurd h (by decide), fun h => absurd h (by decide)⟩
    · refine ⟨fun h => absurd h (by decide), fun _ => Bool.eq_false_iff.mpr fun h => ?_⟩
      obtain ⟨j, hj, -⟩ := hiff.mp h
      exact absurd (hthird.symm.trans hj) (by simp)

end Gateway
end DistributedDb
