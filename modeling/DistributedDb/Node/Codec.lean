import DistributedDb.Json.Access
import DistributedDb.Json.RoundTrip

/-
The message codec.

A message is sent as one JSON object on a line of its own.  The decoder starts
from a default message and assigns its fields one after the other inside a try
block: an exception leaves the fields assigned so far, and the message gets the
type `UNKNOWN` and the text of the exception as its error.
-/

namespace DistributedDb
namespace Codec

open Json

variable {φ : Type}

def msgtypeToStr : MsgType → Bytes
  | .put => ascii "PUT"
  | .get => ascii "GET"
  | .del => ascii "DELETE"
  | .replicate => ascii "REPLICATE"
  | .heartbeat => ascii "HEARTBEAT"
  | .election => ascii "ELECTION"
  | .leader => ascii "LEADER"
  | .ack => ascii "ACK"
  | .syncRequest => ascii "SYNC_REQUEST"
  | .syncData => ascii "SYNC_DATA"
  | .unknown => ascii "UNKNOWN"

def strToMsgtype (s : Bytes) : MsgType :=
  if s = ascii "PUT" then .put
  else if s = ascii "GET" then .get
  else if s = ascii "DELETE" then .del
  else if s = ascii "REPLICATE" then .replicate
  else if s = ascii "HEARTBEAT" then .heartbeat
  else if s = ascii "ELECTION" then .election
  else if s = ascii "LEADER" then .leader
  else if s = ascii "ACK" then .ack
  else if s = ascii "SYNC_REQUEST" then .syncRequest
  else if s = ascii "SYNC_DATA" then .syncData
  else .unknown

/-! ## Encoding -/

/-- One element of `kv_pairs`. -/
def pairJson (p : Bytes × Bytes) : Json φ := .array [.string p.1, .string p.2]

/-- The members of the object, in the order of the assignments of the source. -/
def members (m : Message) : OrderedMap Bytes (Json φ) :=
  let j := (OrderedMap.empty : OrderedMap Bytes (Json φ))
  let j := j.insert (ascii "type") (.string (msgtypeToStr m.type))
  let j := j.insert (ascii "key") (.string m.key)
  let j := j.insert (ascii "value") (.string m.value)
  let j := j.insert (ascii "node_id") (.integer m.nodeId)
  let j := j.insert (ascii "term") (.integer m.term)
  let j := j.insert (ascii "timestamp") (.integer m.timestamp)
  let j := j.insert (ascii "success") (.boolean m.success)
  let j := j.insert (ascii "error") (.string m.error)
  if m.kvPairs = [] then j else j.insert (ascii "kv_pairs") (.array (m.kvPairs.map pairJson))

def toJson (m : Message) : Json φ := .object (members m).entries

/-- Nothing when a string is not UTF-8: `dump` throws then. -/
def serializeMessage (x : Externals φ) (m : Message) : Option Bytes :=
  (dump x (toJson m)).map fun text => text ++ ascii "\n"

/-! ## Decoding -/

/-- `emplace_back` of one element of `kv_pairs`.  The source leaves open which
of the two strings is converted first; the model converts the key first. -/
def pushPair (pair : Json φ) (m : Message) : Except Bytes Message := do
  let k ← (← pair.item 0).getString
  let v ← (← pair.item 1).getString
  return { m with kvPairs := m.kvPairs ++ [(k, v)] }

/-- The elements the loop over `kv_pairs` visits, when the object has them. -/
def pairs : Json φ → List (Json φ)
  | .object members =>
    match lookup (ascii "kv_pairs") members with
    | some v => v.elements
    | none => []
  | _ => []

/-- Assign what was read to a field, unless reading it threw. -/
def assign {α : Type} (read : Except Bytes α) (set : Message → α → Message) (m : Message) :
    Except Bytes Message :=
  match read with
  | .ok a => .ok (set m a)
  | .error what => .error what

/-- The assignments of the try block in their order. -/
def assignments (x : Externals φ) (j : Json φ) : List (Message → Except Bytes Message) :=
  [ assign (j.value (ascii "type") (ascii "UNKNOWN") getString)
      fun m s => { m with type := strToMsgtype s },
    assign (j.value (ascii "key") [] getString) fun m s => { m with key := s },
    assign (j.value (ascii "value") [] getString) fun m s => { m with value := s },
    assign (j.value (ascii "node_id") 0 (getInt x)) fun m n => { m with nodeId := n },
    assign (j.value (ascii "term") 0 (getInt x)) fun m n => { m with term := n },
    assign (j.value (ascii "timestamp") 0 (getInt64 x)) fun m n => { m with timestamp := n },
    assign (j.value (ascii "success") false getBool) fun m b => { m with success := b },
    assign (j.value (ascii "error") [] getString) fun m s => { m with error := s } ] ++
  (pairs j).map pushPair

/-- Run the assignments until one of them throws. -/
def assignAll : List (Message → Except Bytes Message) → Message → Message × Option Bytes
  | [], m => (m, none)
  | f :: rest, m =>
    match f m with
    | .ok m' => assignAll rest m'
    | .error what => (m, some what)

/-- The catch block. -/
def parseError (m : Message) (what : Bytes) : Message :=
  { m with type := .unknown, error := ascii "parse error: " ++ what }

def deserializeMessage (x : Externals φ) (line : Bytes) : Message :=
  match parse x line with
  | .error what => parseError {} what
  | .ok j =>
    match assignAll (assignments x j) {} with
    | (m, none) => m
    | (m, some what) => parseError m what

/-! ## The round trip -/

theorem strToMsgtype_msgtypeToStr (t : MsgType) : strToMsgtype (msgtypeToStr t) = t := by
  cases t <;> decide

/-- The integers fit the types of the source, `int` and `int64_t`. -/
structure InRange (m : Message) : Prop where
  nodeId : -2 ^ 31 ≤ m.nodeId ∧ m.nodeId < 2 ^ 31
  term : -2 ^ 31 ≤ m.term ∧ m.term < 2 ^ 31
  timestamp : -2 ^ 63 ≤ m.timestamp ∧ m.timestamp < 2 ^ 63

structure ValidUtf8 (m : Message) : Prop where
  key : Utf8.Valid m.key
  value : Utf8.Valid m.value
  error : Utf8.Valid m.error
  kvPairs : ∀ p ∈ m.kvPairs, Utf8.Valid p.1 ∧ Utf8.Valid p.2

theorem assignAll_cons {f : Message → Except Bytes Message}
    {rest : List (Message → Except Bytes Message)} {m m' : Message} (h : f m = .ok m') :
    assignAll (f :: rest) m = assignAll rest m' := by
  rw [assignAll, h]

theorem assignAll_assign {α : Type} {read : Except Bytes α} {a : α} (h : read = .ok a)
    (set : Message → α → Message) (rest : List (Message → Except Bytes Message)) (m : Message) :
    assignAll (assign read set :: rest) m = assignAll rest (set m a) :=
  assignAll_cons (by rw [assign.eq_def, h])

theorem assignAll_pushPair (l : List (Bytes × Bytes)) (m : Message) :
    assignAll ((l.map (pairJson : Bytes × Bytes → Json φ)).map pushPair) m =
      ({ m with kvPairs := m.kvPairs ++ l }, none) := by
  induction l generalizing m with
  | nil => simp [assignAll]
  | cons p rest ih =>
    have hp : pushPair (pairJson p : Json φ) m = .ok { m with kvPairs := m.kvPairs ++ [p] } := rfl
    rw [List.map_cons, List.map_cons, assignAll_cons hp, ih]
    simp

/-- Each key of the encoder finds the field it was assigned. -/
theorem find?_members (m : Message) :
    (members m : OrderedMap Bytes (Json φ)).find? (ascii "type") =
      some (.string (msgtypeToStr m.type)) ∧
    (members m : OrderedMap Bytes (Json φ)).find? (ascii "key") = some (.string m.key) ∧
    (members m : OrderedMap Bytes (Json φ)).find? (ascii "value") = some (.string m.value) ∧
    (members m : OrderedMap Bytes (Json φ)).find? (ascii "node_id") = some (.integer m.nodeId) ∧
    (members m : OrderedMap Bytes (Json φ)).find? (ascii "term") = some (.integer m.term) ∧
    (members m : OrderedMap Bytes (Json φ)).find? (ascii "timestamp") =
      some (.integer m.timestamp) ∧
    (members m : OrderedMap Bytes (Json φ)).find? (ascii "success") =
      some (.boolean m.success) ∧
    (members m : OrderedMap Bytes (Json φ)).find? (ascii "error") = some (.string m.error) ∧
    (members m : OrderedMap Bytes (Json φ)).find? (ascii "kv_pairs") =
      if m.kvPairs = [] then none else some (.array (m.kvPairs.map pairJson)) := by
  unfold members
  split <;> simp (disch := decide) only [OrderedMap.find?_insert_self,
    OrderedMap.find?_insert_of_ne, OrderedMap.find?_empty, and_self]

theorem value_toJson {α : Type} {m : Message} {key : Bytes} {v : Json φ}
    (h : (members m).find? key = some v) (default : α) (get : Json φ → Except Bytes α) :
    (toJson m).value key default get = get v :=
  value_eq_get ((lookup_entries key (members m)).trans h) default get

theorem pairs_toJson (m : Message) :
    pairs (toJson m : Json φ) = m.kvPairs.map (pairJson : Bytes × Bytes → Json φ) := by
  obtain ⟨-, -, -, -, -, -, -, -, hpairs⟩ := find?_members (φ := φ) m
  rw [toJson, pairs, lookup_entries, hpairs]
  by_cases h : m.kvPairs = []
  · rw [if_pos h, h]
    rfl
  · rw [if_neg h]
    rfl

/-- Every assignment of the decoder gives its field the value the encoder wrote. -/
theorem assignAll_toJson (x : Externals φ) {m : Message} (h : InRange m) :
    assignAll (assignments x (toJson m)) {} = (m, none) := by
  obtain ⟨htype, hkey, hvalue, hnode, hterm, htime, hsuccess, herror, -⟩ := find?_members (φ := φ) m
  have hreadNode := (value_toJson hnode 0 (getInt x)).trans
    (getInt_integer x h.nodeId.1 h.nodeId.2)
  have hreadTerm := (value_toJson hterm 0 (getInt x)).trans (getInt_integer x h.term.1 h.term.2)
  have hreadTime := (value_toJson htime 0 (getInt64 x)).trans
    (getInt64_integer x h.timestamp.1 h.timestamp.2)
  rw [assignments, pairs_toJson]
  simp only [List.cons_append, List.nil_append, assignAll_assign hreadNode,
    assignAll_assign hreadTerm, assignAll_assign hreadTime,
    assignAll_assign (value_toJson htype (ascii "UNKNOWN") getString),
    assignAll_assign (value_toJson hkey [] getString),
    assignAll_assign (value_toJson hvalue [] getString),
    assignAll_assign (value_toJson hsuccess false getBool),
    assignAll_assign (value_toJson herror [] getString), assignAll_pushPair,
    strToMsgtype_msgtypeToStr]

/-- What the encoder writes: a property of the members follows from the fields. -/
theorem forall_members {P : Bytes × Json φ → Prop} {m : Message}
    (htype : P (ascii "type", .string (msgtypeToStr m.type)))
    (hkey : P (ascii "key", .string m.key)) (hvalue : P (ascii "value", .string m.value))
    (hnode : P (ascii "node_id", .integer m.nodeId)) (hterm : P (ascii "term", .integer m.term))
    (htime : P (ascii "timestamp", .integer m.timestamp))
    (hsuccess : P (ascii "success", .boolean m.success))
    (herror : P (ascii "error", .string m.error))
    (hpairs : P (ascii "kv_pairs", .array (m.kvPairs.map pairJson))) :
    ∀ e ∈ (members m).entries, P e := by
  have hempty : ∀ e ∈ (OrderedMap.empty : OrderedMap Bytes (Json φ)).entries, P e :=
    fun e he => absurd he List.not_mem_nil
  have hdata := OrderedMap.forall_insert (OrderedMap.forall_insert
    (OrderedMap.forall_insert hempty htype) hkey) hvalue
  have hnumbers := OrderedMap.forall_insert (OrderedMap.forall_insert
    (OrderedMap.forall_insert hdata hnode) hterm) htime
  have hfields := OrderedMap.forall_insert (OrderedMap.forall_insert hnumbers hsuccess) herror
  unfold members
  split
  · exact hfields
  · exact OrderedMap.forall_insert hfields hpairs

theorem readable_pairJson (p : Bytes × Bytes) : Readable (pairJson p : Json φ) := by
  refine .array fun v hv => ?_
  rcases List.mem_cons.mp hv with rfl | hv
  · exact .string _
  · exact List.mem_singleton.mp hv ▸ .string _

theorem readable_toJson {m : Message} (h : InRange m) : Readable (toJson m : Json φ) := by
  have hnode := h.nodeId
  have hterm := h.term
  have htime := h.timestamp
  refine .object (members m).sorted (forall_members (.string _) (.string _) (.string _)
    (.integer (by omega) (by omega)) (.integer (by omega) (by omega))
    (.integer (by omega) (by omega)) (.boolean _) (.string _) (.array fun v hv => ?_))
  obtain ⟨p, -, rfl⟩ := List.mem_map.mp hv
  exact readable_pairJson p

theorem valid_keys (m : Message) :
    ∀ e ∈ (members m : OrderedMap Bytes (Json φ)).entries, Utf8.Valid e.1 :=
  forall_members rfl rfl rfl rfl rfl rfl rfl rfl rfl

theorem valid_msgtypeToStr (t : MsgType) : Utf8.Valid (msgtypeToStr t) := by
  cases t <;> decide

/-- A message of UTF-8 strings is printed. -/
theorem exists_dump_toJson (x : Externals φ) {m : Message} (h : ValidUtf8 m) :
    ∃ text, dump x (toJson m) = some text := by
  refine exists_dump_object (valid_keys m) (forall_members
    (dumpString_of_valid (valid_msgtypeToStr m.type)) (dumpString_of_valid h.key)
    (dumpString_of_valid h.value) ⟨_, rfl⟩ ⟨_, rfl⟩ ⟨_, rfl⟩ ⟨_, rfl⟩
    (dumpString_of_valid h.error) (exists_dump_array fun v hv => ?_))
  obtain ⟨p, hp, rfl⟩ := List.mem_map.mp hv
  refine exists_dump_array fun w hw => ?_
  rcases List.mem_cons.mp hw with rfl | hw
  · exact dumpString_of_valid (h.kvPairs p hp).1
  · rw [List.mem_singleton.mp hw]
    exact dumpString_of_valid (h.kvPairs p hp).2

theorem deserializeMessage_dump (x : Externals φ) {m : Message} (h : InRange m) {text : Bytes}
    (htext : dump x (toJson m) = some text) : deserializeMessage x text = m := by
  rw [deserializeMessage, parse_dump (readable_toJson h) htext]
  simp only [assignAll_toJson x h]

end Codec
end DistributedDb
