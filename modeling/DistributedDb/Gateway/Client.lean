import DistributedDb.Gateway.Wire
import DistributedDb.Json.TextEncoding
import DistributedDb.Node.Exchange
import Mathlib.Data.List.DropRight

/-
How the gateway reads the reply of a node.

The client collects what `recv` returns until the last byte is a line break or
the connection ends, and parses the text.  However a reply is split on the way,
it is read whole; when the connection breaks before its closing brace arrived,
nothing is taken for a reply.
-/

namespace DistributedDb
namespace Gateway

open Json TcpServer

variable {φ : Type}

/-! ## The client -/

/-- What one `recv` does: it returns some bytes, none of them when the connection is
closed, or it raises an `OSError`, a time-out among them. -/
inductive Recv where
  | chunk (data : Bytes)
  | raises (e : Text)
  deriving DecidableEq, Repr

/-- The loop of `send` over the calls of `recv`; behind the last one the connection
is closed. -/
def recvAll (read : Bytes) : List Recv → Except Text Bytes
  | [] => .ok read
  | event :: rest =>
    if read.getLast? = some newline then .ok read
    else
      match event with
      | .raises e => .error e
      | .chunk data => if data = [] then .ok read else recvAll (read ++ data) rest

/-- `bytes.decode("utf-8")`. -/
def decode (b : Bytes) : Option Text := (List.toByteArray b).utf8Decode?.map Array.toList

/-- The white space of `bytes.strip`. -/
def byteSpace (c : UInt8) : Bool := (ascii " \t\n\r\x0B\x0C").contains c

/-- `str.isspace`, the white space of `str.strip`. -/
def isspace (c : Char) : Bool :=
  let n := c.toNat
  (0x09 ≤ n && n ≤ 0x0D) || (0x1C ≤ n && n ≤ 0x20) || n == 0x85 || n == 0xA0 || n == 0x1680 ||
    (0x2000 ≤ n && n ≤ 0x200A) || n == 0x2028 || n == 0x2029 || n == 0x202F || n == 0x205F ||
    n == 0x3000

def strip (s : Text) : Text := (s.dropWhile isspace).rdropWhile isspace

/-- `json.loads`, which refuses a byte order mark and anything behind the value. -/
def loads (x : Externals φ) (s : Text) : Option (Json φ) :=
  if s.head? = some '\uFEFF' then none
  else
    match Runs.exec (step x) (.expect .value []) (utf8 s) with
    | none | some (.ended _) => none
    | some t => finish x t

/-- What `send` returns or raises: the parsed reply, a `ConnectionError`, or the
exception of a reply that cannot be decoded or parsed. -/
inductive Sent (φ : Type) where
  | reply (resp : Json φ)
  | connectionError (e : Text)
  | raised

/-- `CoordinatorClient.send` on the address of a node, from its first `recv` on. -/
def receive (x : Externals φ) (address : Text) (events : List Recv) : Sent φ :=
  match recvAll [] events with
  | .error e =>
    .connectionError ("Cannot reach coordinator at ".toList ++ address ++ " — ".toList ++ e)
  | .ok respBytes =>
    if respBytes.all byteSpace then .connectionError "Empty response from coordinator".toList
    else
      match decode respBytes with
      | none => .raised
      | some text =>
        match loads x (strip text) with
        | none => .raised
        | some resp => .reply resp

/-! ## The loop -/

/-- The bytes that come in before the connection ends, and whether it ends with an
exception. -/
def arrived : List Recv → Bytes × Bool
  | [] => ([], false)
  | .raises _ :: _ => ([], true)
  | .chunk data :: rest =>
    if data = [] then ([], false) else (data ++ (arrived rest).1, (arrived rest).2)

theorem getLast?_ne_of_not_mem {read : Bytes} (h : newline ∉ read) :
    read.getLast? ≠ some newline :=
  fun hlast => h (List.mem_of_getLast? hlast)

/-- A line that arrives with its line break is read whole. -/
theorem recvAll_line {text : Bytes} (htext : newline ∉ text) {events : List Recv} {read : Bytes}
    (h : read ++ (arrived events).1 = text ++ [newline]) :
    recvAll read events = .ok (text ++ [newline]) := by
  induction events generalizing read with
  | nil =>
    rw [← h]
    simp [recvAll, arrived]
  | cons event rest ih =>
    rw [recvAll.eq_def]
    dsimp only
    by_cases hnil : (arrived (event :: rest)).1 = []
    · rw [hnil, List.append_nil] at h
      rw [if_pos (by rw [h]; simp), h]
    · -- More is to come, so the line break is not read yet.
      have hread : newline ∉ read := by
        intro hmem
        obtain ⟨init, last, hinit⟩ := (List.eq_nil_or_concat _).resolve_left hnil
        rw [hinit, List.concat_eq_append, ← List.append_assoc] at h
        exact htext ((List.append_inj' h rfl).1 ▸ List.mem_append_left init hmem)
      rw [if_neg (getLast?_ne_of_not_mem hread)]
      cases event with
      | raises e => exact absurd rfl hnil
      | chunk data =>
        by_cases hdata : data = []
        · exact absurd (by simp [arrived, hdata]) hnil
        · simp only [hdata, if_false]
          refine ih ?_
          simpa [arrived, hdata] using h

/-- Without a line break the loop goes on to the end of the connection. -/
theorem recvAll_of_not_mem {events : List Recv} {read : Bytes} (hread : newline ∉ read)
    (h : newline ∉ (arrived events).1) :
    (∃ e, (arrived events).2 = true ∧ recvAll read events = .error e) ∨
      ((arrived events).2 = false ∧ recvAll read events = .ok (read ++ (arrived events).1)) := by
  induction events generalizing read with
  | nil => exact Or.inr ⟨rfl, by simp [recvAll, arrived]⟩
  | cons event rest ih =>
    simp only [recvAll, if_neg (getLast?_ne_of_not_mem hread)]
    cases event with
    | raises e => exact Or.inl ⟨e, rfl, rfl⟩
    | chunk data =>
      by_cases hdata : data = []
      · exact Or.inr (by simp [arrived, hdata])
      · simp only [arrived, hdata, if_false, List.mem_append, not_or] at h ⊢
        rw [← List.append_assoc]
        refine ih ?_ h.2
        rw [List.mem_append]
        exact fun hmem => hmem.elim hread h.1

/-! ## The text -/

theorem decode_eq_some_iff {b : Bytes} {t : Text} : decode b = some t ↔ utf8 t = b := by
  constructor
  · intro h
    obtain ⟨chars, hchars, rfl⟩ := Option.map_eq_some_iff.mp h
    have hbytes : List.toByteArray (utf8 chars.toList) = List.toByteArray b := by
      have hencode := ByteArray.utf8Encode_get_utf8Decode? (b := List.toByteArray b)
        (h := by rw [hchars]; rfl)
      simp only [hchars, Option.get_some] at hencode
      exact hencode
    simpa using congrArg ByteArray.data hbytes
  · rintro rfl
    have h : (List.toByteArray (utf8 t)).utf8Decode? = some t.toArray :=
      List.utf8Decode?_utf8Encode
    rw [decode, h]
    rfl

theorem valid_utf8 (t : Text) : Utf8.Valid (utf8 t) := by
  induction t with
  | nil => rfl
  | cons c rest ih =>
    have hc : Utf8.Valid (String.utf8EncodeChar c) := encode_toNat c ▸ Scan.valid_encode c.valid
    exact Utf8.valid_append hc ih

/-- A byte of ASCII at the start of a text is a character of its own. -/
theorem exists_cons_of_utf8 {t : Text} {c : Char} {rest : Bytes}
    (hc : String.utf8EncodeChar c = [byte c]) (hlow : byte c < 0x80) (h : utf8 t = byte c :: rest) :
    ∃ t', t = c :: t' ∧ utf8 t' = rest := by
  have hvalid : Utf8.Valid (byte c :: rest) := h ▸ valid_utf8 t
  obtain ⟨u, hu, hrest⟩ := Runs.exec_cons.mp hvalid
  obtain rfl : .accept = u := Option.some.inj ((accept_step hlow).symm.trans hu)
  obtain ⟨t', ht'⟩ := exists_text_of_valid hrest
  refine ⟨t', utf8_injective ?_, ht'⟩
  rw [h, ← ht', ← List.singleton_append, ← hc]
  rfl

/-- And one at its end. -/
theorem exists_concat_of_utf8 {t : Text} {c : Char} {init : Bytes}
    (hc : String.utf8EncodeChar c = [byte c]) (hlow : byte c < 0x80)
    (h : utf8 t = init ++ [byte c]) : ∃ t', t = t' ++ [c] ∧ utf8 t' = init := by
  have hvalid : Utf8.Valid (init ++ [byte c]) := h ▸ valid_utf8 t
  obtain ⟨u, hinit, hu⟩ := Runs.exec_append.mp hvalid
  obtain ⟨v, hv, -⟩ := Runs.exec_cons.mp hu
  have hclosed : u = .accept := by
    by_contra hopen
    exact absurd (Utf8.high_of_step_eq_some hopen hv) (not_le_of_gt hlow)
  rw [hclosed] at hinit
  obtain ⟨t', ht'⟩ := exists_text_of_valid hinit
  refine ⟨t', utf8_injective ?_, ht'⟩
  rw [h, utf8_append, ht', ← hc]
  simp [utf8]

section Reply

variable {x : Externals φ} {members : List (Bytes × Json φ)} (h : Readable (.object members))
  {json : Bytes} (hjson : dump x (.object members) = some json)

include hjson in
theorem exists_cons_dump : ∃ rest, json = byte '\x7b' :: rest := by
  match members with
  | [] =>
    obtain rfl := Option.some.inj hjson
    exact ⟨_, rfl⟩
  | (k, v) :: rest =>
    obtain ⟨a, b, -, -, -, rfl⟩ := dump_object_cons hjson
    exact ⟨_, rfl⟩

include h hjson

theorem exec_dump :
    Runs.exec (step x) (.expect .value []) json = some (.complete (.object members)) := by
  obtain ⟨t, ht, hsettles⟩ := (h.reads hjson []).exec_value
  rw [ht, hsettles.eq_complete]

theorem loads_dump {t : Text} (ht : utf8 t = json) : loads x t = some (.object members) := by
  obtain ⟨rest, hrest⟩ := exists_cons_dump hjson
  obtain ⟨t', rfl, -⟩ := exists_cons_of_utf8 (c := '\x7b') (by decide) (by decide) (ht.trans hrest)
  rw [loads, if_neg (by simp), ht, exec_dump h hjson]
  rfl

/-- A part of the text is not a JSON text. -/
theorem loads_cut {t : Text} (ht : utf8 t <+: json) (hne : utf8 t ≠ json) : loads x t = none := by
  obtain ⟨missing, hmissing⟩ := ht
  have hnil : missing ≠ [] := by
    rintro rfl
    exact hne (by rw [← hmissing, List.append_nil])
  have hlast : missing.getLast? = some (byte '\x7d') := by
    rw [← getLast?_dump_object hjson, ← hmissing, List.getLast?_append_of_ne_nil _ hnil]
  have hrun := exec_dump h hjson
  rw [← hmissing] at hrun
  obtain ⟨u, hu, hrest⟩ := Runs.exec_append.mp hrun
  have hfinish := finish_eq_none_of_exec hlast hrest
  rw [loads]
  split
  · rfl
  · rw [hu]
    cases u with
    | ended v => rfl
    | _ => exact hfinish

theorem exists_text_dump : ∃ t, utf8 t = json ∧ strip t = t ∧ strip (t ++ ['\n']) = t := by
  obtain ⟨t, ht⟩ := exists_text_of_valid (valid_dump h hjson)
  obtain ⟨rest, hrest⟩ := exists_cons_dump hjson
  obtain ⟨tail, htail, -⟩ := exists_cons_of_utf8 (by decide) (by decide) (ht.trans hrest)
  obtain ⟨init, hinit⟩ : ∃ init, json = init ++ [byte '\x7d'] :=
    List.getLast?_eq_some_iff.mp (getLast?_dump_object hjson)
  obtain ⟨front, hfront, -⟩ := exists_concat_of_utf8 (by decide) (by decide) (ht.trans hinit)
  have hdrop : ∀ l : Text, ('\x7b' :: l).dropWhile isspace = '\x7b' :: l := fun l => rfl
  have hlast : t.rdropWhile isspace = t := by
    rw [hfront, List.rdropWhile_concat_neg _ _ _ (by decide)]
  refine ⟨t, ht, ?_, ?_⟩
  · rw [strip, htail, hdrop, ← htail, hlast]
  · rw [strip, htail, List.cons_append, hdrop, ← List.cons_append, ← htail,
      List.rdropWhile_concat_pos _ _ _ (by decide), hlast]

/-- The whole text is read, with the line break behind it or without. -/
theorem receive_whole (address : Text) {events : List Recv} {read : Bytes}
    (hread : recvAll [] events = .ok read) (hwhole : read = json ∨ read = json ++ [newline]) :
    receive x address events = .reply (.object members) := by
  obtain ⟨t, ht, hstrip, hstrip'⟩ := exists_text_dump h hjson
  obtain ⟨rest, hrest⟩ := exists_cons_dump hjson
  have hspace : read.all byteSpace = false := by
    rcases hwhole with rfl | rfl <;> rw [hrest] <;> rfl
  obtain ⟨text, htext, hloads⟩ : ∃ text, decode read = some text ∧ strip text = t := by
    rcases hwhole with rfl | rfl
    · exact ⟨t, decode_eq_some_iff.mpr ht, hstrip⟩
    · refine ⟨t ++ ['\n'], decode_eq_some_iff.mpr ?_, hstrip'⟩
      rw [utf8_append, ht]
      rfl
  simp only [receive, hread, hspace, htext, hloads, loads_dump h hjson ht, Bool.false_eq_true,
    if_false]

/-- A part of the text is not taken for a reply. -/
theorem receive_cut (address : Text) {events : List Recv} {read : Bytes}
    (hread : recvAll [] events = .ok read) (hcut : read <+: json) (hne : read ≠ json)
    (resp : Json φ) : receive x address events ≠ .reply resp := by
  intro hreply
  simp only [receive, hread] at hreply
  split at hreply
  · exact absurd hreply (by simp)
  · rename_i hspace
    cases hdecode : decode read with
    | none => simp [hdecode] at hreply
    | some text =>
      have htext := decode_eq_some_iff.mp hdecode
      -- The text begins with the opening brace, so only its end can be stripped.
      have hpart : strip text <+: text := by
        obtain ⟨rest, hrest⟩ := exists_cons_dump hjson
        obtain ⟨c, read', rfl⟩ : ∃ c read', read = c :: read' := by
          refine List.exists_cons_of_ne_nil ?_
          rintro rfl
          exact hspace rfl
        obtain rfl : c = byte '\x7b' := (List.cons_prefix_cons.mp (hrest ▸ hcut)).1
        obtain ⟨tail, rfl, -⟩ := exists_cons_of_utf8 (by decide) (by decide) htext
        exact List.rdropWhile_prefix _ _
      obtain ⟨stripped, hstripped⟩ := hpart
      have hshort : utf8 (strip text) <+: read := by
        have hsplit := congrArg utf8 hstripped
        rw [utf8_append, htext] at hsplit
        exact ⟨_, hsplit⟩
      have hnot : utf8 (strip text) ≠ json := by
        intro heq
        rw [heq] at hshort
        exact hne (hcut.eq_of_length (le_antisymm hcut.length_le hshort.length_le))
      simp [hdecode, loads_cut h hjson (hshort.trans hcut) hnot] at hreply

end Reply

/-- Whatever part of a reply arrives, and in whatever pieces, the client returns the
reply of the node exactly when all of its text came in, and no other one. -/
theorem receive_eq_reply_iff (x : Externals φ) (address : Text) {m : Message}
    (hrange : Codec.InRange m) {line : Bytes} (hline : Codec.serializeMessage x m = some line)
    {events : List Recv} (harrived : (arrived events).1 <+: line) (resp : Json φ) :
    receive x address events = .reply resp ↔
      resp = Codec.toJson m ∧ ((arrived events).1 = line ∨
        ((arrived events).1 ++ [newline] = line ∧ (arrived events).2 = false)) := by
  obtain ⟨json, hjson, rfl⟩ := serializeMessage_eq_some hline
  have hreadable := Codec.readable_toJson (φ := φ) hrange
  have hone := newline_not_mem_dump hrange hjson
  by_cases hall : (arrived events).1 = json ++ [newline]
  · have hwhole := receive_whole hreadable hjson address
      (recvAll_line hone ((List.nil_append _).trans hall)) (Or.inr rfl)
    rw [hwhole, Sent.reply.injEq]
    exact ⟨fun heq => ⟨heq.symm, Or.inl hall⟩, fun heq => heq.1.symm⟩
  · have hpart : (arrived events).1 <+: json :=
      (List.prefix_concat_iff.mp harrived).resolve_left hall
    have hread := recvAll_of_not_mem (List.not_mem_nil : newline ∉ []) fun hmem =>
      hone (hpart.subset hmem)
    rw [List.nil_append] at hread
    rcases hread with ⟨e, hraised, hread⟩ | ⟨hclosed, hread⟩
    · refine iff_of_false (fun heq => ?_) (fun heq => ?_)
      · simp [receive, hread] at heq
      · rcases heq.2 with heq | heq
        · exact hall heq
        · exact absurd (hraised.symm.trans heq.2) (by decide)
    · by_cases hjust : (arrived events).1 = json
      · rw [receive_whole hreadable hjson address hread (Or.inl hjust), Sent.reply.injEq]
        refine ⟨fun heq => ⟨heq.symm, Or.inr ⟨by rw [hjust], hclosed⟩⟩, fun heq => heq.1.symm⟩
      · refine iff_of_false (receive_cut hreadable hjson address hread hpart hjust resp) ?_
        rintro ⟨-, heq | heq⟩
        · exact hall heq
        · exact hjust (List.append_cancel_right heq.1)

/-! ## A call and its answer -/

/-- All of the text of the reply came in; the line break behind it may be missing
when the connection was closed in order. -/
def Whole (x : Externals φ) (m : Message) (events : List Recv) : Prop :=
  ∃ line, Codec.serializeMessage x m = some line ∧
    ((arrived events).1 = line ∨
      ((arrived events).1 ++ [newline] = line ∧ (arrived events).2 = false))

theorem receive_nothing (x : Externals φ) (address : Text) {events : List Recv}
    (h : (arrived events).1 = []) (resp : Json φ) : receive x address events ≠ .reply resp := by
  intro hreply
  have hnone : newline ∉ (arrived events).1 := by
    rw [h]
    exact List.not_mem_nil
  rcases recvAll_of_not_mem (List.not_mem_nil : newline ∉ []) hnone with
    ⟨e, -, hread⟩ | ⟨-, hread⟩
  · simp [receive, hread] at hreply
  · simp [receive, hread, h] at hreply

/-- What `handle_connection` sends back for a request is returned when it came in
whole. -/
theorem receive_answer_iff (x : Externals φ) (address : Text) {handler : Message → Message}
    {received : Bytes} {req : Message} (hreq : request x received = some req)
    (hrange : Codec.InRange (handler req)) {events : List Recv}
    (harrived : (arrived events).1 <+: TcpClient.answer x handler received) (resp : Json φ) :
    receive x address events = .reply resp ↔
      resp = Codec.toJson (handler req) ∧ Whole x (handler req) events := by
  rw [TcpClient.answer, hreq] at harrived
  dsimp only at harrived
  cases hline : Codec.serializeMessage x (handler req) with
  | none =>
    rw [hline] at harrived
    refine iff_of_false (receive_nothing x address (List.prefix_nil.mp harrived) resp) ?_
    rintro ⟨-, line, hsome, -⟩
    exact absurd (hline.symm.trans hsome) (by simp)
  | some line =>
    rw [hline] at harrived
    rw [receive_eq_reply_iff x address hrange hline harrived resp]
    refine and_congr_right fun _ => ⟨fun h => ⟨line, hline, h⟩, ?_⟩
    rintro ⟨line', hline', h⟩
    obtain rfl := Option.some.inj (hline.symm.trans hline')
    exact h

/-- For every call of the gateway, on any texts, and every node: the client returns
the reply of the handler to the message the call stands for exactly when all of
its text came in, however the connection cut it, and it returns no other reply. -/
theorem send_returns_reply_of_handler (x : Externals φ) (address : Text) (c : Call) {now : Int}
    (hlow : -2 ^ 63 ≤ now) (hhigh : now < 2 ^ 63) {handler : Message → Message}
    (hrange : Codec.InRange (handler (c.message now))) {events : List Recv}
    (harrived : (arrived events).1 <+: TcpClient.answer x handler (clientLine c.fields now))
    (resp : Json φ) :
    receive x address events = .reply resp ↔
      resp = Codec.toJson (handler (c.message now)) ∧ Whole x (handler (c.message now)) events := by
  have hreq := request_clientLine x c hlow hhigh []
  rw [List.append_nil] at hreq
  exact receive_answer_iff x address hreq hrange harrived resp

/-- A node that gives the value of a request back. -/
def echo (req : Message) : Message := Coordinator.makeAck 2 true req.value

/-- The value is one character of four bytes. -/
def partyCall : Call := .store (.putStore "a\nb".toList [Char.ofNat 0x1F389])

def partyReplyStart : Bytes :=
  ascii "\x7b\"error\":\"\",\"key\":\"\",\"node_id\":2,\"success\":true,\"term\":0," ++
    ascii "\"timestamp\":0,\"type\":\"ACK\",\"value\":\"" ++ [0xF0, 0x9F]

def partyReplyEnd : Bytes := [0x8E, 0x89] ++ ascii "\"\x7d\n"

/-- The reply is split in the middle of the character. -/
theorem send_returns_reply_of_handler_party :
    receive integersOnly "localhost:8002".toList
        [.chunk partyReplyStart, .chunk partyReplyEnd, .raises "timed out".toList] =
      .reply (Codec.toJson (echo (partyCall.message 1700000000000))) := by
  have hline : Codec.serializeMessage integersOnly (echo (partyCall.message 1700000000000)) =
      some (partyReplyStart ++ partyReplyEnd) := by
    decide +kernel
  have harrived : (arrived [.chunk partyReplyStart, .chunk partyReplyEnd,
      .raises "timed out".toList]).1 = partyReplyStart ++ partyReplyEnd := by
    decide +kernel
  have hreq := request_clientLine integersOnly partyCall
    (show -2 ^ 63 ≤ (1700000000000 : Int) by decide) (by decide) []
  rw [List.append_nil] at hreq
  have hanswer : TcpClient.answer integersOnly echo (clientLine partyCall.fields 1700000000000) =
      partyReplyStart ++ partyReplyEnd := by
    rw [TcpClient.answer, hreq]
    simp only [hline, Option.getD_some]
  refine (send_returns_reply_of_handler integersOnly "localhost:8002".toList partyCall
    (by decide) (by decide) ⟨by decide, by decide, by decide⟩ ?_ _).mpr
    ⟨rfl, _, hline, Or.inl harrived⟩
  rw [hanswer, harrived]

end Gateway
end DistributedDb
