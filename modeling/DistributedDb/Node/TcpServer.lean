import DistributedDb.Lib.Getline
import DistributedDb.Cluster.Serve
import DistributedDb.Node.Codec
import DistributedDb.Node.Detector

/-
The server side of a connection.

One line is read from a connection, decoded and given to the handler.  A
connection that breaks or times out ends the line where it stands: nothing tells
the server whether the line break was seen, so a message that was cut is decoded
like a complete one.  It is rejected because no part of an object's text is a
JSON text.
-/

namespace DistributedDb
namespace TcpServer

open Codec

variable {φ : Type}

def newline : UInt8 := 0x0A

/-- The bytes that arrive up to a line break, or all of them when the connection
ends before one. -/
def recvLine (received : Bytes) : Bytes := received.takeWhile fun c => decide (c ≠ newline)

/-- The request that `handle_connection` dispatches. -/
def request (x : Externals φ) (received : Bytes) : Option Message :=
  let line := recvLine received
  if line = [] then none else some (deserializeMessage x line)

/-- `handle_connection` with the handler that `main` installed: it runs on the
request, and its reply is sent back as `serializeMessage` prints it. -/
def handleConnection (x : Externals φ) (handler : Message → Prog) (received : Bytes) :
    Option Prog :=
  (request x received).map handler

/-! ## A message that arrives whole -/

/-- `recv_line` reads what `std::getline` would extract. -/
theorem getline_eq_recvLine {received : Bytes} (h : received ≠ []) :
    ∃ rest, Getline.getline newline received = some (recvLine received, rest) :=
  ⟨_, if_neg h⟩

theorem recvLine_append {line : Bytes} (hline : newline ∉ line) (rest : Bytes) :
    recvLine (line ++ newline :: rest) = line := by
  obtain ⟨rest', h⟩ := getline_eq_recvLine (show line ++ newline :: rest ≠ [] by simp)
  rw [Getline.getline_append newline hline] at h
  exact (Prod.mk.inj (Option.some.inj h)).1.symm

theorem recvLine_of_not_mem {line : Bytes} (hline : newline ∉ line) : recvLine line = line := by
  by_cases hnil : line = []
  · rw [hnil]
    rfl
  · obtain ⟨rest, h⟩ := getline_eq_recvLine hnil
    rw [Getline.getline_of_not_mem newline hline hnil] at h
    exact (Prod.mk.inj (Option.some.inj h)).1.symm

/-- The text of a message is one line. -/
theorem newline_not_mem_dump {x : Externals φ} {m : Message} (h : InRange m) {text : Bytes}
    (htext : Json.dump x (toJson m) = some text) : newline ∉ text := by
  intro hmem
  have hprintable : 0x20 ≤ newline := (readable_toJson h).printable htext newline hmem
  exact absurd hprintable (by decide)

theorem serializeMessage_eq_some {x : Externals φ} {m : Message} {text : Bytes}
    (h : serializeMessage x m = some text) :
    ∃ json, Json.dump x (toJson m) = some json ∧ text = json ++ [newline] := by
  obtain ⟨json, hjson, rfl⟩ := Option.map_eq_some_iff.mp h
  exact ⟨json, hjson, rfl⟩

/-- Every message is read back as it was sent, whatever follows it on the
connection. -/
theorem deserialize_recvLine_serialize (x : Externals φ) {m : Message} (hrange : InRange m)
    (hutf8 : ValidUtf8 m) (rest : Bytes) :
    ∃ text, serializeMessage x m = some text ∧
      deserializeMessage x (recvLine (text ++ rest)) = m := by
  obtain ⟨json, hjson⟩ := exists_dump_toJson x hutf8
  refine ⟨json ++ [newline], ?_, ?_⟩
  · rw [serializeMessage, hjson]
    rfl
  · rw [List.append_assoc, List.singleton_append,
      recvLine_append (newline_not_mem_dump hrange hjson)]
    exact deserializeMessage_dump x hrange hjson

/-- Messages hold no floating-point numbers.  The error is the one the parser
raises at the end of the part of a message below. -/
def integersOnly : Externals Empty :=
  { strtod := fun _ => none
    printFloat := Empty.elim
    floatToInt := Empty.elim
    floatToInt64 := Empty.elim
    parseErrorWhat := fun _ =>
      ascii "[json.exception.parse_error.101] parse error at line 1, column 22: " ++
        ascii "syntax error while parsing object - unexpected end of input; expected '\x7d'" }

/-- Quotes, line breaks, a character beyond ASCII and a repeated pair. -/
def syncReply : Message :=
  { type := .syncData
    key := ascii "a\"\n" ++ [0xC3, 0xA9]
    nodeId := -3
    timestamp := 1700000000000
    success := true
    kvPairs := [(ascii "k", ascii "\x7d\\"), (ascii "k", ascii "\x7d\\")] }

theorem deserialize_recvLine_serialize_syncReply :
    ∃ text, serializeMessage integersOnly syncReply = some text ∧
      deserializeMessage integersOnly (recvLine (text ++ ascii "\x7b")) = syncReply :=
  deserialize_recvLine_serialize integersOnly
    { nodeId := by decide, term := by decide, timestamp := by decide }
    { key := by decide, value := by decide, error := by decide, kvPairs := by decide }
    (ascii "\x7b")

/-! ## A message that is cut -/

/-- A part of a message that lacks the closing brace is a proper part of its
JSON text. -/
theorem prefix_json_of_length {json cut : Bytes} (hcut : cut <+: json ++ [newline])
    (hlen : cut.length + 2 ≤ (json ++ [newline]).length) : cut <+: json ∧ cut ≠ json := by
  rw [List.length_append, List.length_singleton] at hlen
  refine ⟨List.prefix_of_prefix_length_le hcut (List.prefix_append json _) (by omega), ?_⟩
  rintro rfl
  omega

/-- Such a part is decoded as a message of no type. -/
theorem type_deserializeMessage_cut {x : Externals φ} {m : Message} (hrange : InRange m)
    {json cut : Bytes} (hjson : Json.dump x (toJson m) = some json) (hcut : cut <+: json)
    (hne : cut ≠ json) : (deserializeMessage x cut).type = .unknown := by
  rw [deserializeMessage, Json.parse_cut (readable_toJson hrange) hjson hcut hne]
  rfl

/-- The coordinator refuses a message of no type without a call on its node. -/
theorem handle_unknown (me : Int) {req : Message} (h : req.type = .unknown) :
    Coordinator.handle me req =
      .done (Coordinator.makeError me (ascii "Unknown message type")) := by
  rw [Coordinator.handle, h]

/-- The handler of `main` notes the sender as alive, which touches neither the
store nor the election. -/
theorem runWith_onMessage_unknown (me : Int) {req : Message} (h : req.type = .unknown)
    (callee : Cluster → Int → Message → Option (Cluster × Message)) (c : Cluster) :
    Cluster.runWith callee me (Coordinator.onMessage me req) c =
      some (c.setNode me ((c.node me).markAlive req.nodeId),
        Coordinator.makeError me (ascii "Unknown message type")) := by
  rw [Coordinator.onMessage, handle_unknown me h]
  rfl

theorem setNode_markAlive_frame (c : Cluster) (me nodeId i : Int) :
    ((c.setNode me ((c.node me).markAlive nodeId)).node i).storage = (c.node i).storage ∧
      ((c.setNode me ((c.node me).markAlive nodeId)).node i).election = (c.node i).election := by
  by_cases hi : i = me
  · subst hi
    rw [Cluster.setNode_node_self]
    exact ⟨rfl, rfl⟩
  · rw [Cluster.setNode_node_of_ne c _ hi]
    exact ⟨rfl, rfl⟩

/-- A message that is cut before its closing brace is never executed: nothing is
dispatched when nothing arrived, and otherwise the node refuses a message of no
type and keeps its store and its election state. -/
theorem cut_message_not_executed (x : Externals φ) {m : Message} (hrange : InRange m)
    {text cut : Bytes} (htext : serializeMessage x m = some text) (hcut : cut <+: text)
    (hlen : cut.length + 2 ≤ text.length) (me : Int) :
    recvLine cut = cut ∧
    (cut = [] → handleConnection x (Coordinator.onMessage me) cut = none) ∧
    (cut ≠ [] → ∃ req reply,
      handleConnection x (Coordinator.onMessage me) cut = some (Coordinator.onMessage me req) ∧
      req = deserializeMessage x cut ∧ req.type = .unknown ∧ reply.success = false ∧
      ∀ (callee : Cluster → Int → Message → Option (Cluster × Message)) (c : Cluster),
        Cluster.runWith callee me (Coordinator.handle me req) c = some (c, reply) ∧
        ∃ c', Cluster.runWith callee me (Coordinator.onMessage me req) c = some (c', reply) ∧
          ∀ i, (c'.node i).storage = (c.node i).storage ∧
            (c'.node i).election = (c.node i).election) := by
  obtain ⟨json, hjson, rfl⟩ := serializeMessage_eq_some htext
  obtain ⟨hpre, hne⟩ := prefix_json_of_length hcut hlen
  have hline : recvLine cut = cut :=
    recvLine_of_not_mem fun h => newline_not_mem_dump hrange hjson (hpre.subset h)
  have htype := type_deserializeMessage_cut hrange hjson hpre hne
  refine ⟨hline, ?_, ?_⟩
  · rintro rfl
    rfl
  · intro hnil
    refine ⟨deserializeMessage x cut, Coordinator.makeError me (ascii "Unknown message type"),
      ?_, rfl, htype, rfl, fun callee c => ⟨?_, _, runWith_onMessage_unknown me htype callee c,
        setNode_markAlive_frame c me _⟩⟩
    · simp only [handleConnection, request, hline, if_neg hnil, Option.map_some]
    · rw [handle_unknown me htype]
      rfl

def putRequest : Message := { type := .put, key := ascii "k", value := ascii "v" }

/-- The text of the request, up to the value of its second member and after it. -/
def putRequestCut : Bytes := ascii "\x7b\"error\":\"\",\"key\":\"k\""

def putRequestRest : Bytes :=
  ascii ",\"node_id\":0,\"success\":false,\"term\":0,\"timestamp\":0," ++
    ascii "\"type\":\"PUT\",\"value\":\"v\"\x7d\n"

theorem cut_putRequest_not_executed :
    serializeMessage integersOnly putRequest = some (putRequestCut ++ putRequestRest) ∧
    handleConnection integersOnly (Coordinator.onMessage 1) putRequestCut =
      some (Coordinator.onMessage 1 (deserializeMessage integersOnly putRequestCut)) ∧
    (deserializeMessage integersOnly putRequestCut).type = .unknown := by
  have htext : serializeMessage integersOnly putRequest =
      some (putRequestCut ++ putRequestRest) := by
    decide +kernel
  have hrange : InRange putRequest :=
    { nodeId := by decide, term := by decide, timestamp := by decide }
  obtain ⟨-, -, h⟩ := cut_message_not_executed integersOnly hrange htext
    (List.prefix_append _ _) (by decide) 1
  obtain ⟨req, reply, hreq, rfl, htype, -⟩ := h (by decide)
  exact ⟨htext, hreq, htype⟩

/-! ## A line that is not a message

The decoder fills the fields one by one, so the fields before the one that throws
have been assigned.  The handler uses one of them, the id of the sender, before
it looks at the type. -/

/-- The fields that were assigned before the decoder threw, and what it threw. -/
def thrown (x : Externals φ) (line : Bytes) : Option (Message × Bytes) :=
  match Json.parse x line with
  | .error what => some ({}, what)
  | .ok j =>
    match assignAll (assignments x j) {} with
    | (_, none) => none
    | (m, some what) => some (m, what)

theorem deserializeMessage_of_thrown {x : Externals φ} {line what : Bytes} {m : Message}
    (h : thrown x line = some (m, what)) : deserializeMessage x line = parseError m what := by
  unfold thrown at h
  unfold deserializeMessage
  cases hparse : Json.parse x line with
  | error e =>
    rw [hparse] at h
    obtain ⟨rfl, rfl⟩ := Prod.mk.inj (Option.some.inj h)
    rfl
  | ok j =>
    simp only [hparse] at h
    cases hall : assignAll (assignments x j) {} with
    | mk m' failure =>
      rw [hall] at h
      cases failure with
      | none => exact absurd h (by simp)
      | some e =>
        obtain ⟨rfl, rfl⟩ := Prod.mk.inj (Option.some.inj h)
        simp only [hall]

theorem assignAll_invariant {P : Message → Prop} {l : List (Message → Except Bytes Message)}
    (h : ∀ f ∈ l, ∀ m m', f m = .ok m' → P m → P m') {m : Message} (hm : P m) :
    P (assignAll l m).1 := by
  induction l generalizing m with
  | nil => exact hm
  | cons f rest ih =>
    rw [assignAll]
    cases hf : f m with
    | error what => exact hm
    | ok m' =>
      exact ih (fun g hg => h g (List.mem_cons_of_mem _ hg)) (h f List.mem_cons_self m m' hf hm)

theorem assign_eq_ok {α : Type} {read : Except Bytes α} {set : Message → α → Message}
    {m m' : Message} (h : assign read set m = .ok m') : ∃ a, read = .ok a ∧ m' = set m a := by
  cases read with
  | error what => exact absurd h (by simp [assign])
  | ok a => exact ⟨a, rfl, (Except.ok.inj h).symm⟩

theorem bind_eq_ok {α β : Type} {read : Except Bytes α} {next : α → Except Bytes β} {b : β}
    (h : (read >>= next) = .ok b) : ∃ a, read = .ok a ∧ next a = .ok b := by
  cases read with
  | error what => exact absurd h (by simp [bind, Except.bind])
  | ok a => exact ⟨a, rfl, h⟩

theorem pushPair_nodeId {pair : Json φ} {m m' : Message} (h : pushPair pair m = .ok m') :
    m'.nodeId = m.nodeId := by
  obtain ⟨first, -, h⟩ := bind_eq_ok h
  obtain ⟨k, -, h⟩ := bind_eq_ok h
  obtain ⟨second, -, h⟩ := bind_eq_ok h
  obtain ⟨v, -, h⟩ := bind_eq_ok h
  rw [← Except.ok.inj h]

/-- The id that the handler sees is the default or the one that the line holds. -/
theorem thrown_nodeId {x : Externals φ} {line what : Bytes} {m : Message}
    (h : thrown x line = some (m, what)) :
    m.nodeId = 0 ∨ ∃ j, Json.parse x line = .ok j ∧
      j.value (ascii "node_id") 0 (Json.getInt x) = .ok m.nodeId := by
  unfold thrown at h
  cases hparse : Json.parse x line with
  | error e =>
    rw [hparse] at h
    obtain ⟨rfl, -⟩ := Prod.mk.inj (Option.some.inj h)
    exact Or.inl rfl
  | ok j =>
    have hm : (assignAll (assignments x j) {}).1 = m := by
      simp only [hparse] at h
      split at h
      · exact absurd h (by simp)
      · rename_i m' what' hall
        rw [hall]
        exact (Prod.mk.inj (Option.some.inj h)).1
    suffices hread : m.nodeId = 0 ∨
        j.value (ascii "node_id") 0 (Json.getInt x) = .ok m.nodeId from
      hread.imp_right fun h => ⟨j, rfl, h⟩
    rw [← hm]
    refine assignAll_invariant (P := fun m => m.nodeId = 0 ∨
      j.value (ascii "node_id") 0 (Json.getInt x) = .ok m.nodeId) (fun f hf m m' hok hP => ?_)
      (Or.inl rfl)
    rcases List.mem_append.mp hf with hf | hf
    · simp only [List.mem_cons, List.not_mem_nil, or_false] at hf
      rcases hf with rfl | rfl | rfl | rfl | rfl | rfl | rfl | rfl
      all_goals obtain ⟨a, hread, rfl⟩ := assign_eq_ok hok
      case inr.inr.inr.inl => exact Or.inr hread
      all_goals exact hP
    · obtain ⟨pair, -, rfl⟩ := List.mem_map.mp hf
      rw [pushPair_nodeId hok]
      exact hP

/-- A line that the decoder rejects is refused and changes neither the store nor
the election, here or elsewhere.  The flags of the ring stay too, but for one:
when the id that the decoder had read names a node recorded as dead, that node is
alive again, as on any message. -/
theorem undecodable_line_effect {x : Externals φ} {line what : Bytes} {m : Message}
    (h : thrown x line = some (m, what)) (me : Int)
    (callee : Cluster → Int → Message → Option (Cluster × Message)) (c : Cluster) :
    ∃ c' reply,
      Cluster.runWith callee me (Coordinator.onMessage me (deserializeMessage x line)) c =
        some (c', reply) ∧
      reply.success = false ∧
      (∀ i, (c'.node i).storage = (c.node i).storage ∧
        (c'.node i).election = (c.node i).election) ∧
      (∀ i, i ≠ me → c'.node i = c.node i) ∧
      (∀ id alive, id ≠ m.nodeId →
        ((c'.node me).ring.Flagged id alive ↔ (c.node me).ring.Flagged id alive)) ∧
      ((c.node me).heartbeat.knownAlive.lookup m.nodeId ≠ some false →
        (c'.node me).ring = (c.node me).ring) ∧
      ((c.node me).heartbeat.knownAlive.lookup m.nodeId = some false →
        (c'.node me).ring = (c.node me).ring.updateNodeStatus m.nodeId true) ∧
      (m.nodeId = 0 ∨ ∃ j, Json.parse x line = .ok j ∧
        j.value (ascii "node_id") 0 (Json.getInt x) = .ok m.nodeId) := by
  have hmsg := deserializeMessage_of_thrown h
  have htype : (deserializeMessage x line).type = .unknown := by
    rw [hmsg]
    rfl
  have hid : (deserializeMessage x line).nodeId = m.nodeId := by
    rw [hmsg]
    rfl
  refine ⟨_, _, runWith_onMessage_unknown me htype callee c, rfl,
    setNode_markAlive_frame c me _, fun i hi => Cluster.setNode_node_of_ne c _ hi, ?_, ?_,
    ?_, thrown_nodeId h⟩
  · intro id alive hne
    rw [Cluster.setNode_node_self, hid, Node.markAlive]
    dsimp only
    split
    · exact HashRing.flagged_updateNodeStatus_of_ne _ hne true alive
    · exact Iff.rfl
  · intro hnot
    rw [Cluster.setNode_node_self, hid]
    simp [Node.markAlive, HeartbeatService.markAlive, hnot]
  · intro hdead
    rw [Cluster.setNode_node_self, hid]
    simp [Node.markAlive, HeartbeatService.markAlive, hdead]

/-- The id of node 2, and a term that is not a number. -/
def wrongTerm : Bytes := ascii "\x7b\"node_id\":2,\"term\":\"x\"\x7d"

theorem thrown_wrongTerm :
    thrown integersOnly wrongTerm = some ({ nodeId := 2 },
      ascii "[json.exception.type_error.302] type must be number, but is string") := by
  decide +kernel

theorem undecodable_line_effect_launch :
    ∃ c' reply, Cluster.runWith (fun _ _ _ => none) 1
        (Coordinator.onMessage 1 (deserializeMessage integersOnly wrongTerm))
        { node := fun i => Node.start (launchNode i) [] [] 0
          listener := fun _ _ => none
          inFlight := [] } = some (c', reply) ∧
      reply.success = false ∧
      (c'.node 1).ring = (Node.start (launchNode 1) [] [] 0).ring := by
  obtain ⟨c', reply, hrun, hreply, -, -, -, hring, -, -⟩ :=
    undecodable_line_effect thrown_wrongTerm 1 (fun _ _ _ => none)
      { node := fun i => Node.start (launchNode i) [] [] 0
        listener := fun _ _ => none
        inFlight := [] }
  exact ⟨c', reply, hrun, hreply, hring (HeartbeatService.knownAlive_start_ne_false 0 [] 2)⟩

/-- Node 1 has found node 2 dead; the line brings it back to life. -/
theorem undecodable_line_revives :
    ∃ s, Runs.exec (Detector.Process.step 1)
        (Detector.Process.start (launchNode 1) [launchNode 2, launchNode 3] [] 0)
        [.tick 6000, .sample, .pass] = some s ∧
      (thrown integersOnly wrongTerm).isSome ∧
      ∀ (callee : Cluster → Int → Message → Option (Cluster × Message)) (c : Cluster),
        c.node 1 = s.node →
        ∃ c' reply, Cluster.runWith callee 1
            (Coordinator.onMessage 1 (deserializeMessage integersOnly wrongTerm)) c =
              some (c', reply) ∧
          ((c.node 1).ring.nodesById.find? 2).map NodeInfo.alive = some false ∧
          ((c'.node 1).ring.nodesById.find? 2).map NodeInfo.alive = some true := by
  have hdata : (Runs.exec (Detector.Process.step 1)
      (Detector.Process.start (launchNode 1) [launchNode 2, launchNode 3] [] 0)
      [.tick 6000, .sample, .pass]).map (fun s =>
        ((s.node.ring.nodesById.find? 2).map NodeInfo.alive,
          s.node.heartbeat.knownAlive.lookup 2)) = some (some false, some false) := by
    decide +kernel
  obtain ⟨s, hrun, hdata⟩ := Option.map_eq_some_iff.mp hdata
  obtain ⟨hflag, hdead⟩ := Prod.mk.inj hdata
  refine ⟨s, hrun, by rw [thrown_wrongTerm]; rfl, fun callee c hc => ?_⟩
  have hmsg := deserializeMessage_of_thrown thrown_wrongTerm
  have htype : (deserializeMessage integersOnly wrongTerm).type = .unknown := by
    rw [hmsg]
    rfl
  refine ⟨_, _, runWith_onMessage_unknown 1 htype callee c, by rw [hc, hflag], ?_⟩
  obtain ⟨n, hn, -⟩ := Option.map_eq_some_iff.mp hflag
  have hid : (deserializeMessage integersOnly wrongTerm).nodeId = 2 := by
    rw [hmsg]
    rfl
  rw [Cluster.setNode_node_self, hc, hid, Detector.Process.find?_ring_markAlive,
    if_pos ⟨rfl, hdead⟩, hn]
  rfl

end TcpServer
end DistributedDb
