import DistributedDb.Node.Relay
import DistributedDb.Node.TcpClient

/-
A request and its reply over one connection.

`send_message` writes the request, `handle_connection` at the other end answers
it, and the reply is read up to its line break.  The sockets may take the bytes
in any pieces, and the connection may end at any byte in either direction.  The
caller of `send_message` gets the reply of the handler to its request, or
nothing, or a message without success.
-/

namespace DistributedDb
namespace TcpClient

open Codec TcpServer

variable {φ : Type}

/-- One connection: how `send()` behaves at both ends, and how many bytes come
through in each direction before the connection ends. -/
structure Exchange where
  out : Socket
  arrives : Nat
  back : Socket
  returns : Nat

/-- What `handle_connection` has to send; an exception of the encoder is caught, and
nothing is sent then. -/
def answer (x : Externals φ) (handler : Message → Message) (received : Bytes) : Bytes :=
  match request x received with
  | none => []
  | some req => (serializeMessage x (handler req)).getD []

/-- `send_message` on an open connection; `send_all` of the server stops where the
loop of the client would. -/
def exchange (x : Externals φ) (handler : Message → Message) (e : Exchange) (msg : Message) :
    Option (Option Message) :=
  (serializeMessage x msg).map fun data =>
    let sent := sendAll e.out 0 data
    if sent.2 = false then none
    else
      let sentBack := (sendAll e.back 0 (answer x handler (sent.1.take e.arrives))).1
      let reply := recvLine (sentBack.take e.returns)
      if reply = [] then none else some (deserializeMessage x reply)

/-! ## The bytes that come through -/

/-- Whatever the socket does, a part of the data goes out, and all of it when the
loop gets to the end. -/
theorem isPrefix_sendAll (s : Socket) (i : Nat) (data : Bytes) :
    (sendAll s i data).1 <+: data ∧
      ((sendAll s i data).2 = true → (sendAll s i data).1 = data) := by
  generalize hn : data.length = n
  induction n using Nat.strongRecOn generalizing i data with
  | ind n ih =>
    rw [sendAll]
    by_cases hend : data = []
    · rw [if_pos hend, hend]
      exact ⟨List.prefix_rfl, fun _ => rfl⟩
    · rw [if_neg hend]
      dsimp only
      split
      · exact ⟨List.nil_prefix, fun h => absurd h (by simp)⟩
      · rename_i hsent
        have hpos := List.length_pos_iff.mpr hend
        obtain ⟨⟨rest, hrest⟩, hall⟩ := ih
          (data.drop (s i (intOfSize data.length)).toNat).length
          (by rw [List.length_drop]; omega) (i + 1) _ rfl
        constructor
        · refine ⟨rest, ?_⟩
          rw [List.append_assoc, hrest, List.take_append_drop]
        · intro hok
          rw [hall hok, List.take_append_drop]

/-- A part of the line of a message is read as the message when its text is whole;
otherwise it is empty or no message. -/
theorem recvLine_part (x : Externals φ) {m : Message} (hrange : InRange m) {line part : Bytes}
    (hline : serializeMessage x m = some line) (hpart : part <+: line) :
    recvLine part = [] ∨ deserializeMessage x (recvLine part) = m ∨
      ((deserializeMessage x (recvLine part)).type = .unknown ∧
        (deserializeMessage x (recvLine part)).success = false) := by
  obtain ⟨json, hjson, rfl⟩ := serializeMessage_eq_some hline
  have hone := newline_not_mem_dump hrange hjson
  rcases List.prefix_concat_iff.mp hpart with rfl | hpart
  · right
    left
    rw [recvLine_append hone []]
    exact deserializeMessage_dump x hrange hjson
  · rw [recvLine_of_not_mem fun hmem => hone (hpart.subset hmem)]
    by_cases hwhole : part = json
    · right
      left
      rw [hwhole]
      exact deserializeMessage_dump x hrange hjson
    · right
      right
      rw [deserializeMessage, Json.parse_cut (readable_toJson hrange) hjson hpart hwhole]
      exact ⟨rfl, rfl⟩

/-! ## The exchange -/

section Exchanges

variable (x : Externals φ) {handler : Message → Message}
  (hrange : ∀ req, InRange (handler req))

include hrange

/-- What the client reads back is the reply of the handler to what the server
dispatched, or no reply of anybody. -/
theorem reply_of_received {received back : Bytes}
    (hback : back <+: answer x handler received) (hne : recvLine back ≠ []) :
    ∃ req, request x received = some req ∧
      (deserializeMessage x (recvLine back) = handler req ∨
        ((deserializeMessage x (recvLine back)).type = .unknown ∧
          (deserializeMessage x (recvLine back)).success = false)) := by
  have hempty : ∀ s : Bytes, back <+: s → s = [] → False := by
    rintro s hs rfl
    rw [List.prefix_nil.mp hs] at hne
    exact hne rfl
  unfold answer at hback
  cases hreq : request x received with
  | none =>
    rw [hreq] at hback
    exact (hempty _ hback rfl).elim
  | some req =>
    simp only [hreq] at hback
    cases hline : serializeMessage x (handler req) with
    | none =>
      rw [hline] at hback
      exact (hempty _ hback rfl).elim
    | some line =>
      rw [hline] at hback
      exact ⟨req, rfl, (recvLine_part x (hrange req) hline hback).resolve_left hne⟩

/-- However the connection behaves, a reply with success is the reply of the handler
to exactly the message that was sent. -/
theorem success_is_reply_of_handler
    (hunknown : ∀ req, req.type = .unknown → (handler req).success = false) {msg : Message}
    (hmsg : InRange msg) (e : Exchange) {reply : Message}
    (h : exchange x handler e msg = some (some reply)) (hok : reply.success = true) :
    reply = handler msg := by
  obtain ⟨data, hdata, h⟩ := Option.map_eq_some_iff.mp h
  obtain ⟨-, hall⟩ := isPrefix_sendAll e.out 0 data
  dsimp only at h
  split at h
  · exact absurd h (by simp)
  · rename_i hsent
    rw [hall (Bool.eq_true_of_not_eq_false hsent)] at h
    split at h
    · exact absurd h (by simp)
    · rename_i hne
      have hreply := Option.some.inj h
      have hback := (List.take_prefix e.returns _).trans
        (isPrefix_sendAll e.back 0 (answer x handler (data.take e.arrives))).1
      obtain ⟨req, hreq, hcases⟩ := reply_of_received x hrange hback hne
      rw [hreply] at hcases
      rcases hcases with rfl | ⟨-, hfail⟩
      · -- The server dispatched something; a part of the request would be refused.
        unfold request at hreq
        dsimp only at hreq
        split at hreq
        · exact absurd hreq (by simp)
        · rename_i hline
          obtain rfl := Option.some.inj hreq
          rcases (recvLine_part x hmsg hdata (List.take_prefix e.arrives data)).resolve_left hline
            with hwhole | hpart
          · rw [hwhole]
          · rw [hunknown _ hpart.1] at hok
            exact absurd hok (by simp)
      · rw [hfail] at hok
        exact absurd hok (by simp)

end Exchanges

/-- When both ends take every byte sooner or later and the connection holds, the
reply of the handler comes back. -/
theorem exchange_eq_reply (x : Externals φ) {handler : Message → Message} {msg : Message}
    (hmsg : WellFormed msg) (hreply : WellFormed (handler msg)) {e : Exchange}
    (hout : e.out.Accepting) (hback : e.back.Accepting) {line replyLine : Bytes}
    (hline : serializeMessage x msg = some line)
    (hreplyLine : serializeMessage x (handler msg) = some replyLine)
    (hsize : line.length < 2 ^ 31) (hreplySize : replyLine.length < 2 ^ 31)
    (harrives : line.length ≤ e.arrives) (hreturns : replyLine.length ≤ e.returns) :
    exchange x handler e msg = some (some (handler msg)) := by
  have hrequest : request x line = some msg := by
    obtain ⟨text, htext, hread⟩ := request_serializeMessage x hmsg
    obtain rfl := Option.some.inj (hline.symm.trans htext)
    have hall := hread []
    rwa [List.append_nil] at hall
  have hread : request x replyLine = some (handler msg) := by
    obtain ⟨text, htext, hread⟩ := request_serializeMessage x hreply
    obtain rfl := Option.some.inj (hreplyLine.symm.trans htext)
    have hall := hread []
    rwa [List.append_nil] at hall
  have hanswer : answer x handler line = replyLine := by
    rw [answer, hrequest]
    simp only [hreplyLine, Option.getD_some]
  unfold request at hread
  dsimp only at hread
  split at hread
  · exact absurd hread (by simp)
  · rename_i hne
    rw [exchange, hline, Option.map_some, sendAll_eq hout 0 hsize]
    simp only [List.take_of_length_le harrives, hanswer, sendAll_eq hback 0 hreplySize,
      List.take_of_length_le hreturns, Bool.true_eq_false, if_false, if_neg hne,
      Option.some.inj hread]

/-- A node that stores one value. -/
def oneValue (req : Message) : Message :=
  if req.type = .unknown then Coordinator.makeError 2 (ascii "Unknown message type")
  else Coordinator.makeAck 2 true (ascii "v")

def readRequest : Message := { type := .get, key := ascii "k", nodeId := 1 }

/-- Both sockets take seven bytes at a time. -/
theorem success_is_reply_of_handler_split :
    ∃ reply, exchange integersOnly oneValue
        { out := withRoom 7, arrives := 500, back := withRoom 7, returns := 500 } readRequest =
          some (some reply) ∧ reply.success = true ∧ reply = oneValue readRequest := by
  have hrange : ∀ req, InRange (oneValue req) := by
    intro req
    unfold oneValue
    split <;> exact ⟨by decide, by decide, by decide⟩
  have hmsg : WellFormed readRequest :=
    ⟨⟨by decide, by decide, by decide⟩, ⟨by decide, by decide, by decide, List.forall_mem_nil _⟩⟩
  have hreply : WellFormed (oneValue readRequest) :=
    ⟨hrange readRequest, ⟨by decide, by decide, by decide, List.forall_mem_nil _⟩⟩
  have haccepting := accepting_withRoom (show (1 : Int) ≤ 7 by decide)
  have hshort : ∀ m, (serializeMessage integersOnly m).all (fun l => decide (l.length < 500)) →
      ∀ l, serializeMessage integersOnly m = some l → l.length < 500 := by
    intro m hall l hl
    rw [hl] at hall
    exact of_decide_eq_true hall
  obtain ⟨line, hline⟩ : ∃ line, serializeMessage integersOnly readRequest = some line :=
    ⟨_, rfl⟩
  obtain ⟨replyLine, hreplyLine⟩ : ∃ line, serializeMessage integersOnly (oneValue readRequest) =
      some line := ⟨_, rfl⟩
  have hsize := hshort readRequest (by decide +kernel) line hline
  have hreplySize := hshort (oneValue readRequest) (by decide +kernel) replyLine hreplyLine
  have hexchange := exchange_eq_reply integersOnly hmsg hreply
    (e := { out := withRoom 7, arrives := 500, back := withRoom 7, returns := 500 })
    haccepting haccepting hline hreplyLine (by omega) (by omega) (le_of_lt hsize)
    (le_of_lt hreplySize)
  refine ⟨_, hexchange, rfl, ?_⟩
  exact success_is_reply_of_handler integersOnly hrange (fun req h => by simp [oneValue, h]; rfl)
    hmsg.range _ hexchange rfl

end TcpClient
end DistributedDb
