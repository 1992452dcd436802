import DistributedDb.Cluster.Refusals
import DistributedDb.HashRing.Nearest
import DistributedDb.Lib.TextSearch

/-
The read and delete endpoints of the HTTP gateway.

The gateway sends the request to a coordinator and looks at the error text of a
reply without success: the words "not found" in it, in upper or lower case, make
the answer a 404, and anything else makes it a 500.  One of the refusals of a
coordinator ends with the key of the request, so a key with these words in it
can make a 404 out of that refusal.

Text is a sequence of characters here, as it is in the gateway, and bytes in the
nodes; a message carries it as UTF-8.
-/

namespace DistributedDb
namespace Gateway

open TextSearch Coordinator

/-- A `str` of the gateway. -/
abbrev Text := List Char

def utf8 (s : Text) : Bytes := s.flatMap String.utf8EncodeChar

/-- The reply of the coordinator as `json.loads` gives it. -/
structure Reply where
  success : Bool
  value : Text
  error : Text

inductive Response where
  | store (key value : Text)
  | ack (message : Text)
  | failed (statusCode : Nat) (detail : Text)
  deriving DecidableEq, Repr

def notFound : Text := "not found".toList

/-- Both endpoints handle a reply without success alike; `lower` is `str.lower`. -/
def refuse (lower : Text → Text) (key err : Text) : Response :=
  if notFound <:+: lower err then
    .failed 404 ("Key '".toList ++ key ++ "' not found".toList)
  else .failed 500 err

def getStore (lower : Text → Text) (key : Text) (resp : Reply) : Response :=
  if resp.success then .store key resp.value else refuse lower key resp.error

def deleteStore (lower : Text → Text) (key : Text) (resp : Reply) : Response :=
  if resp.success then .ack ("Key '".toList ++ key ++ "' deleted".toList)
  else refuse lower key resp.error

inductive Endpoint where
  | getStore
  | deleteStore
  deriving DecidableEq, Repr

/-- The message an endpoint sends; the client adds the time stamp. -/
def Endpoint.message (e : Endpoint) (key : Text) (timestamp : Int) : Message :=
  match e with
  | .getStore => { type := .get, key := utf8 key, nodeId := 0, timestamp := timestamp }
  | .deleteStore => { type := .del, key := utf8 key, nodeId := 0, timestamp := timestamp }

def Endpoint.respond (e : Endpoint) (lower : Text → Text) (key : Text) (resp : Reply) : Response :=
  match e with
  | .getStore => Gateway.getStore lower key resp
  | .deleteStore => Gateway.deleteStore lower key resp

/-- The reply arrived at the gateway whole. -/
structure Received (reply : Message) (resp : Reply) : Prop where
  success : resp.success = reply.success
  value : utf8 resp.value = reply.value
  error : utf8 resp.error = reply.error

/-- What `str.lower` does to a text: an ASCII letter becomes its lower case
letter, other ASCII characters stay, and a character beyond ASCII becomes one or
more characters, none of which is a letter of "not found". -/
def Lowers (s t : Text) : Prop := Rewrites (fun c => c.toNat < 128) Char.toLower notFound s t

/-- The answer is 404 for the error of the executing node that does not have the
key, and 500 for every other one. -/
def Classifies (e : Endpoint) (lower : Text → Text) (key : Text) (reply : Message) (resp : Reply) :
    Prop :=
  ((∃ detail, e.respond lower key resp = .failed 404 detail) ↔
    reply.error = keyNotFound (utf8 key)) ∧
  (reply.error ≠ keyNotFound (utf8 key) → ∃ detail, e.respond lower key resp = .failed 500 detail)

/-! ## Text and bytes -/

theorem utf8_append (s t : Text) : utf8 (s ++ t) = utf8 s ++ utf8 t := List.flatMap_append

theorem utf8_injective : Function.Injective utf8 := by
  intro s t h
  have hencode : s.utf8Encode = t.utf8Encode := congrArg List.toByteArray h
  have hdecode := congrArg ByteArray.utf8Decode? hencode
  rw [List.utf8Decode?_utf8Encode, List.utf8Decode?_utf8Encode, Option.some.injEq] at hdecode
  simpa using congrArg Array.toList hdecode

theorem keyNotFound_eq (key : Text) :
    keyNotFound (utf8 key) = utf8 ("Key not found: ".toList ++ key) := by
  rw [keyNotFound, utf8_append]
  congr 1

theorem noAvailableNode_eq (key : Text) :
    noAvailableNode (utf8 key) = utf8 ("No available node for key: ".toList ++ key) := by
  rw [noAvailableNode, utf8_append]
  congr 1

theorem allUnavailable_eq : allUnavailable = utf8 "All nodes for key unavailable".toList := by
  decide

/-! ## The words in the three refusals -/

theorem toNat_of_mem_notFound {c : Char} (h : c ∈ notFound) : c.toNat < 128 := by
  have hall : notFound.all (fun c => c.toNat < 128) = true := by decide
  exact of_decide_eq_true (List.all_eq_true.mp hall c h)

/-- Lowering only the ASCII letters is one way to lower a text. -/
theorem lowers_map_toLower (s : Text) : Lowers s (s.map Char.toLower) := by
  induction s with
  | nil => exact Rewrites.nil
  | cons c rest ih =>
    by_cases hc : c.toNat < 128
    · exact Rewrites.plain hc ih
    · have hsame : c.toLower = c := by
        refine dif_neg fun hupper => hc ?_
        have htop : c.toNat ≤ 90 := hupper.2
        omega
      rw [List.map_cons, hsame, ← List.singleton_append]
      refine Rewrites.other ?_ (List.cons_ne_nil c []) (fun b hb hmem => hc ?_) ih
      · exact hc
      · rw [← List.mem_singleton.mp hb]
        exact toNat_of_mem_notFound hmem

section Words

variable {lower : Text → Text} (hlower : ∀ s, Lowers s (lower s))

include hlower

/-- Whether the words are in a text does not depend on the letters beyond
ASCII. -/
theorem infix_lower_iff (s : Text) : notFound <:+: lower s ↔ notFound <:+: s.map Char.toLower :=
  (hlower s).infix_iff (by decide) (lowers_map_toLower s)

theorem words_in_keyNotFound (key : Text) :
    notFound <:+: lower ("Key not found: ".toList ++ key) := by
  rw [infix_lower_iff hlower, List.map_append]
  have hwords : notFound <:+: ("Key not found: ".toList).map Char.toLower := by decide
  exact hwords.trans (List.prefix_append _ _).isInfix

/-- The words are in the refusal exactly when they are in the key: neither part
of them ends the fixed text. -/
theorem words_in_noAvailableNode (key : Text) :
    notFound <:+: lower ("No available node for key: ".toList ++ key) ↔
      notFound <:+: lower key := by
  rw [infix_lower_iff hlower, infix_lower_iff hlower, List.map_append,
    infix_append_iff (by decide)]
  exact or_iff_right (by decide)

theorem words_not_in_allUnavailable :
    ¬ notFound <:+: lower "All nodes for key unavailable".toList := by
  rw [infix_lower_iff hlower]
  decide

end Words

/-! ## The classification -/

theorem respond_of_failed (e : Endpoint) (lower : Text → Text) (key : Text) {resp : Reply}
    (h : resp.success = false) : e.respond lower key resp = refuse lower key resp.error := by
  cases e with
  | getStore => simp [Endpoint.respond, getStore, h]
  | deleteStore => simp [Endpoint.respond, deleteStore, h]

theorem refuse_eq_404_iff (lower : Text → Text) (key err : Text) :
    (∃ detail, refuse lower key err = .failed 404 detail) ↔ notFound <:+: lower err := by
  unfold refuse
  split <;> simp_all

theorem refuse_eq_500_iff (lower : Text → Text) (key err : Text) :
    (∃ detail, refuse lower key err = .failed 500 detail) ↔ ¬ notFound <:+: lower err := by
  unfold refuse
  split <;> simp_all

/-- The texts of the refusals begin with different letters. -/
theorem head?_refusals (key : Bytes) :
    (keyNotFound key).head? = some 0x4B ∧ (noAvailableNode key).head? = some 0x4E ∧
      allUnavailable.head? = some 0x41 :=
  ⟨rfl, rfl, rfl⟩

theorem refusals_ne (key : Bytes) :
    noAvailableNode key ≠ keyNotFound key ∧ allUnavailable ≠ keyNotFound key ∧
      allUnavailable ≠ noAvailableNode key := by
  obtain ⟨hkey, hnode, hall⟩ := head?_refusals key
  refine ⟨fun h => ?_, fun h => ?_, fun h => ?_⟩
  · exact absurd (hnode.symm.trans ((congrArg List.head? h).trans hkey)) (by decide)
  · exact absurd (hall.symm.trans ((congrArg List.head? h).trans hkey)) (by decide)
  · exact absurd (hall.symm.trans ((congrArg List.head? h).trans hnode)) (by decide)

/-- A node that is alone on its ring and takes itself for dead. -/
def aloneAndDead : Cluster :=
  { node := fun _ =>
      { ring := HashRing.build [.add (launchNode 1), .status 1 false]
        storage := StorageEngine.start [] true
        heartbeat := HeartbeatService.start [] 0
        election := LeaderElection.start []
        triggers := 0
        clock := 0 }
    listener := fun _ _ => none
    inFlight := [] }

theorem getPrimary_aloneAndDead (key : Bytes) :
    (HashRing.build [.add (launchNode 1), .status 1 false]).getPrimary key = none := by
  show ((HashRing.empty.addNode (launchNode 1)).updateNodeStatus 1 false).getPrimary key = none
  have hknown : (HashRing.empty.addNode (launchNode 1)).nodesById.find? 1 ≠ none := by
    rw [HashRing.addNode]
    show (HashRing.empty.nodesById.insert 1 (launchNode 1)).find? 1 ≠ none
    rw [OrderedMap.find?_insert_self]
    simp
  rw [HashRing.getPrimary_eq_none_iff, HashRing.entries_updateNodeStatus _ _ hknown]
  intro e he
  obtain ⟨d, hd, rfl⟩ := List.mem_map.mp he
  have hown : d.2 = launchNode 1 := by
    rcases (HashRing.mem_addNode _ _ d).mp hd with ⟨i, -, rfl⟩ | ⟨hempty, -⟩
    · rfl
    · exact absurd hempty List.not_mem_nil
  show (HashRing.setAlive 1 false d.2).alive = false
  rw [hown]
  rfl

theorem serve_of_no_primary (c : Cluster) (j : Int) (e : Endpoint) (key : Text)
    (timestamp : Int) (hnone : (c.node j).ring.getPrimary (utf8 key) = none) :
    Cluster.serve 1 c j (e.message key timestamp) =
      some (c, makeError j (noAvailableNode (utf8 key))) := by
  cases e with
  | getStore =>
    rw [Cluster.serve, Endpoint.message, handle, handleGet, route, Cluster.runWith, hnone]
    rfl
  | deleteStore =>
    rw [Cluster.serve, Endpoint.message, handle, handleDelete, route, Cluster.runWith, hnone]
    rfl

end Gateway
end DistributedDb
