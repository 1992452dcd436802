import DistributedDb.Cluster.SingleCopy
import DistributedDb.Gateway.Client

/-
The gateway in front of a healthy cluster.

A `System` is the machine of the cluster with the requests that wait at the
gateway.  What the gateway sends and reads are lines of bytes: a request enters
the machine as the node decodes it, and an answer is made of the text that came
back, in whatever pieces it came.  A request whose connection breaks or times
out stays open, since nobody knows whether it was executed.

Seen through the endpoints, each key is one entry of a sequential dictionary of
texts.
-/

namespace DistributedDb
namespace Gateway

open Json TcpServer Coordinator Cluster Linearize

variable {φ : Type}

/-! ## The endpoints -/

/-- The truth value of what `resp.get` returns; `zero` is the test of a float. -/
def truthy (zero : φ → Bool) : Json φ → Bool
  | .null => false
  | .boolean b => b
  | .integer n => decide (n ≠ 0)
  | .float v => !zero v
  | .string s => decide (s ≠ [])
  | .array items => !items.isEmpty
  | .object members => !members.isEmpty

/-- `resp.get(key, default)` where a `str` is wanted. -/
def getText (members : List (Bytes × Json φ)) (key : Bytes) (default : Text) : Option Text :=
  match lookup key members with
  | none => some default
  | some (.string s) => decode s
  | some _ => none

/-- What is left of an exception that no endpoint catches. -/
def internalError : Response := .failed 500 "Internal Server Error".toList

def Request.key : Request → Text
  | .putStore key _ | .getStore key | .deleteStore key => key

/-- `StoreRequest` wants a key of one character at least. -/
def Request.valid : Request → Bool
  | .putStore key _ => decide (key ≠ [])
  | .getStore _ | .deleteStore _ => true

/-- The three endpoints, from the reply of the coordinator on. -/
def Request.respond (lower : Text → Text) (zero : φ → Bool) (r : Request) : Json φ → Response
  | .object members =>
    let success := ((lookup (ascii "success") members).map (truthy zero)).getD false
    match r with
    | .putStore key _ =>
      if success then .ack ("Key '".toList ++ key ++ "' written successfully".toList)
      else
        match getText members (ascii "error") "Write failed".toList with
        | none => internalError
        | some err => .failed 500 err
    | .getStore key =>
      if success then
        match getText members (ascii "value") [] with
        | none => internalError
        | some value => .store key value
      else
        match getText members (ascii "error") [] with
        | none => internalError
        | some err => refuse lower key err
    | .deleteStore key =>
      if success then .ack ("Key '".toList ++ key ++ "' deleted".toList)
      else
        match getText members (ascii "error") [] with
        | none => internalError
        | some err => refuse lower key err
  | _ => internalError

/-- One key of a dictionary of texts, behind the endpoints. -/
def dictionary (held : Option Text) : Request → Option Text × Response
  | .putStore key value =>
    (some value, .ack ("Key '".toList ++ key ++ "' written successfully".toList))
  | .getStore key =>
    match held with
    | none => (none, .failed 404 ("Key '".toList ++ key ++ "' not found".toList))
    | some value => (some value, .store key value)
  | .deleteStore key =>
    match held with
    | none => (none, .failed 404 ("Key '".toList ++ key ++ "' not found".toList))
    | some _ => (none, .ack ("Key '".toList ++ key ++ "' deleted".toList))

/-! ### The replies of a primary -/

theorem decode_utf8 (t : Text) : decode (utf8 t) = some t := decode_eq_some_iff.mpr rfl

theorem lookup_success (zero : φ → Bool) (m : Message) :
    ((lookup (ascii "success") (Codec.members m : OrderedMap Bytes (Json φ)).entries).map
      (truthy zero)).getD false = m.success := by
  obtain ⟨-, -, -, -, -, -, hsuccess, -, -⟩ := Codec.find?_members (φ := φ) m
  rw [lookup_entries, hsuccess]
  rfl

/-- The endpoints on the reply of a node, whose texts are UTF-8. -/
theorem respond_toJson (lower : Text → Text) (zero : φ → Bool) (r : Request) {m : Message}
    (value err : Text) (hvalue : m.value = utf8 value) (herror : m.error = utf8 err) :
    r.respond lower zero (Codec.toJson m) =
      match r with
      | .putStore key _ =>
        if m.success then .ack ("Key '".toList ++ key ++ "' written successfully".toList)
        else .failed 500 err
      | .getStore key => if m.success then .store key value else refuse lower key err
      | .deleteStore key =>
        if m.success then .ack ("Key '".toList ++ key ++ "' deleted".toList)
        else refuse lower key err := by
  obtain ⟨-, -, hv, -, -, -, -, he, -⟩ := Codec.find?_members (φ := φ) m
  have hgetValue : ∀ default, getText (Codec.members m : OrderedMap Bytes (Json φ)).entries
      (ascii "value") default = some value := by
    intro default
    rw [getText, lookup_entries, hv, hvalue]
    exact decode_utf8 value
  have hgetError : ∀ default, getText (Codec.members m : OrderedMap Bytes (Json φ)).entries
      (ascii "error") default = some err := by
    intro default
    rw [getText, lookup_entries, he, herror]
    exact decode_utf8 err
  cases r <;> simp only [Request.respond, Codec.toJson, lookup_success, hgetValue, hgetError]

/-- A dictionary that holds the texts of what the register holds answers like it. -/
theorem register_dictionary {lower : Text → Text} (hlower : ∀ s, Lowers s (lower s))
    (zero : φ → Bool) (p : Int) (held : Option Text) (r : Request) (now : Int) :
    (SingleCopy.register p (held.map utf8) (r.message now)).1 =
        ((dictionary held r).1).map utf8 ∧
      r.respond lower zero
          (Codec.toJson (SingleCopy.register p (held.map utf8) (r.message now)).2) =
        (dictionary held r).2 := by
  have hmissing : ∀ key, refuse lower key ("Key not found: ".toList ++ key) =
      .failed 404 ("Key '".toList ++ key ++ "' not found".toList) :=
    fun key => if_pos (words_in_keyNotFound hlower key)
  have herror : ∀ key, (makeError p (ascii "Key not found: " ++ utf8 key)).error =
      utf8 ("Key not found: ".toList ++ key) := fun key => keyNotFound_eq key
  cases r with
  | putStore key value =>
    rw [SingleCopy.register_put rfl]
    exact ⟨rfl, respond_toJson lower zero _ [] [] rfl rfl⟩
  | getStore key =>
    rw [SingleCopy.register_get rfl]
    cases held with
    | none =>
      refine ⟨rfl, Eq.trans ?_ (hmissing key)⟩
      exact respond_toJson lower zero _ [] _ rfl (herror key)
    | some v => exact ⟨rfl, respond_toJson lower zero _ v [] rfl rfl⟩
  | deleteStore key =>
    rw [SingleCopy.register_del rfl]
    cases held with
    | none =>
      refine ⟨rfl, Eq.trans ?_ (hmissing key)⟩
      exact respond_toJson lower zero _ [] _ rfl (herror key)
    | some v => exact ⟨rfl, respond_toJson lower zero _ [] [] rfl rfl⟩

/-! ## The system -/

/-- Where the coordinator is, and the parts of the run time that the endpoints use. -/
structure Settings (φ : Type) where
  coordHost : Text
  coordPort : Int
  lower : Text → Text
  zero : φ → Bool
  json : Externals φ

def Settings.address (g : Settings φ) : Text :=
  g.coordHost ++ ":".toList ++ (toString g.coordPort).toList

structure System where
  machine : Machine
  /-- The requests that wait for the reply to the thread that serves them. -/
  waiting : Nat → Option Request
  /-- The requests of the HTTP clients and the answers made from a reply. -/
  view : List (Linearize.Event Request Response)

inductive Step where
  /-- A client calls an endpoint, and the gateway connects to the coordinator. -/
  | request (r : Request) (now : Int)
  /-- The cluster goes on. -/
  | node (a : Action)
  /-- The gateway reads what the coordinator sent back to thread `t`. -/
  | read (t : Nat) (events : List Recv)
  /-- The gateway gives up before there is a reply. -/
  | timeOut (t : Nat)

namespace System

/-- The reply that thread `t` ended with. -/
def replyTo (t : Nat) (trace : List DistributedDb.Event) : Option Message :=
  trace.findSome? fun e =>
    match e with
    | .respond u _ reply => if u = t then some reply else none
    | _ => none

def stopWaiting (s : System) (t : Nat) : System :=
  { s with waiting := Function.update s.waiting t none }

def step (g : Settings φ) (s : System) : Step → Option System
  | .request r now =>
    if !r.valid then some s
    else
      match s.machine.cluster.listener (utf8 g.coordHost) g.coordPort with
      | none => some s
      | some i =>
        match TcpServer.request g.json (clientLine (Call.store r).fields now) with
        | none => some s
        | some msg =>
          (s.machine.step (.invoke i msg)).map fun m =>
            { machine := m
              waiting := Function.update s.waiting s.machine.next (some r)
              view := s.view ++ [.invoke s.machine.next r] }
  | .node (.invoke _ _) => none
  | .node a => (s.machine.step a).map fun m => { s with machine := m }
  | .read t events =>
    match s.waiting t, replyTo t s.machine.trace with
    | some r, some reply =>
      match Codec.serializeMessage g.json reply with
      | none => some (s.stopWaiting t)
      | some line =>
        if (arrived events).1 <+: line then
          match receive g.json g.address events with
          | .reply resp =>
            some { s.stopWaiting t with
              view := s.view ++ [.respond t r (r.respond g.lower g.zero resp)] }
          | _ => some (s.stopWaiting t)
        else none
    | _, _ => none
  | .timeOut t => some (s.stopWaiting t)

def idle (c : Cluster) : System :=
  { machine := Machine.idle c, waiting := fun _ => none, view := [] }

/-! ## What the view has to do with the trace -/

/-- The request that a message stands for. -/
def requestOf (msg : Message) : Request :=
  match msg.type with
  | .put => .putStore ((decode msg.key).getD []) ((decode msg.value).getD [])
  | .get => .getStore ((decode msg.key).getD [])
  | _ => .deleteStore ((decode msg.key).getD [])

theorem requestOf_message (r : Request) (now : Int) : requestOf (r.message now) = r := by
  cases r <;> simp [requestOf, Request.message, decode_utf8]

theorem key_message (r : Request) (now : Int) : (r.message now).key = utf8 r.key := by
  cases r <;> rfl

theorem isRequest_message (r : Request) (now : Int) : (r.message now).IsRequest := by
  cases r
  · exact Or.inl rfl
  · exact Or.inr (Or.inl rfl)
  · exact Or.inr (Or.inr rfl)

/-- Every moment of the view lies at a moment of the trace: what was answered before
it was answered there, and what is requested behind it is requested there. -/
structure Mirrors (g : Settings φ) (trace : List DistributedDb.Event)
    (view : List (Linearize.Event Request Response)) : Prop where
  invoked : ∀ t msg, .invoke t msg ∈ trace →
    ∃ r now, msg = r.message now ∧ .invoke t r ∈ view
  split : ∀ before after, view = before ++ after → ∃ before' after', trace = before' ++ after' ∧
    (∀ t r resp, .respond t r resp ∈ before → ∃ now reply,
      .respond t (r.message now) reply ∈ before' ∧
        resp = r.respond g.lower g.zero (Codec.toJson reply)) ∧
    ∀ t r, .invoke t r ∈ after → ∃ now, .invoke t (r.message now) ∈ after'

variable {g : Settings φ} {trace : List DistributedDb.Event}
  {view : List (Linearize.Event Request Response)}

theorem Mirrors.answered (h : Mirrors g trace view) {t : Nat} {r : Request} {resp : Response}
    (hr : .respond t r resp ∈ view) : ∃ now reply, .respond t (r.message now) reply ∈ trace ∧
      resp = r.respond g.lower g.zero (Codec.toJson reply) := by
  obtain ⟨before', after', rfl, hrespond, -⟩ := h.split view [] (List.append_nil view).symm
  obtain ⟨now, reply, hmem, hresp⟩ := hrespond t r resp hr
  exact ⟨now, reply, List.mem_append_left _ hmem, hresp⟩

/-- A split of a list with one more element. -/
theorem append_singleton_split {α : Type} {l before after : List α} {e : α}
    (h : l ++ [e] = before ++ after) :
    (after = [] ∧ before = l ++ [e]) ∨ ∃ after₁, after = after₁ ++ [e] ∧ l = before ++ after₁ := by
  rcases List.eq_nil_or_concat after with rfl | ⟨after₁, last, rfl⟩
  · exact Or.inl ⟨rfl, by rw [h, List.append_nil]⟩
  · rw [List.concat_eq_append, ← List.append_assoc] at h
    obtain ⟨hl, hlast⟩ := List.append_inj' h rfl
    exact Or.inr ⟨after₁, by rw [hlast, List.concat_eq_append], hl⟩

theorem Mirrors.request (h : Mirrors g trace view) (t : Nat) (r : Request) (now : Int) :
    Mirrors g (trace ++ [.invoke t (r.message now)]) (view ++ [.invoke t r]) where
  invoked u msg hu := by
    rcases List.mem_append.mp hu with hu | hu
    · obtain ⟨r', now', rfl, hr'⟩ := h.invoked u msg hu
      exact ⟨r', now', rfl, List.mem_append_left _ hr'⟩
    · obtain ⟨rfl, rfl⟩ := DistributedDb.Event.invoke.inj (List.mem_singleton.mp hu)
      exact ⟨r, now, rfl, List.mem_append_right _ (List.mem_singleton_self _)⟩
  split before after hsplit := by
    rcases append_singleton_split hsplit with ⟨rfl, rfl⟩ | ⟨after₁, rfl, hview⟩
    · refine ⟨_, [], (List.append_nil _).symm, fun u r' resp hr => ?_, by simp⟩
      rcases List.mem_append.mp hr with hr | hr
      · obtain ⟨now', reply, hmem, hresp⟩ := h.answered hr
        exact ⟨now', reply, List.mem_append_left _ hmem, hresp⟩
      · exact absurd (List.mem_singleton.mp hr) (by simp)
    · obtain ⟨before', after', rfl, hrespond, hinvoke⟩ := h.split before after₁ hview
      refine ⟨before', after' ++ [_], List.append_assoc .., hrespond, fun u r' hu => ?_⟩
      rcases List.mem_append.mp hu with hu | hu
      · obtain ⟨now', hmem⟩ := hinvoke u r' hu
        exact ⟨now', List.mem_append_left _ hmem⟩
      · obtain ⟨rfl, rfl⟩ := Linearize.Event.invoke.inj (List.mem_singleton.mp hu)
        exact ⟨now, List.mem_append_right _ (List.mem_singleton_self _)⟩

/-- The trace grows without a request. -/
theorem Mirrors.extend (h : Mirrors g trace view) {ext : List DistributedDb.Event}
    (hext : ∀ t msg, .invoke t msg ∉ ext) : Mirrors g (trace ++ ext) view where
  invoked u msg hu := by
    rcases List.mem_append.mp hu with hu | hu
    · exact h.invoked u msg hu
    · exact absurd hu (hext u msg)
  split before after hsplit := by
    obtain ⟨before', after', rfl, hrespond, hinvoke⟩ := h.split before after hsplit
    refine ⟨before', after' ++ ext, List.append_assoc .., hrespond, fun u r' hu => ?_⟩
    obtain ⟨now, hmem⟩ := hinvoke u r' hu
    exact ⟨now, List.mem_append_left _ hmem⟩

theorem Mirrors.read (h : Mirrors g trace view) {t : Nat} {r : Request} {now : Int}
    {reply : Message} (hreply : .respond t (r.message now) reply ∈ trace) :
    Mirrors g trace
      (view ++ [.respond t r (r.respond g.lower g.zero (Codec.toJson reply))]) where
  invoked u msg hu := by
    obtain ⟨r', now', rfl, hr'⟩ := h.invoked u msg hu
    exact ⟨r', now', rfl, List.mem_append_left _ hr'⟩
  split before after hsplit := by
    rcases append_singleton_split hsplit with ⟨rfl, rfl⟩ | ⟨after₁, rfl, hview⟩
    · refine ⟨trace, [], (List.append_nil _).symm, fun u r' resp hr => ?_, by simp⟩
      rcases List.mem_append.mp hr with hr | hr
      · exact h.answered hr
      · obtain ⟨rfl, rfl, rfl⟩ := Linearize.Event.respond.inj (List.mem_singleton.mp hr)
        exact ⟨now, reply, hreply, rfl⟩
    · obtain ⟨before', after', rfl, hrespond, hinvoke⟩ := h.split before after₁ hview
      refine ⟨before', after', rfl, hrespond, fun u r' hu => ?_⟩
      rcases List.mem_append.mp hu with hu | hu
      · exact hinvoke u r' hu
      · exact absurd (List.mem_singleton.mp hu) (by simp)

/-! ## One key -/

def requestIn : Linearize.Event Request Response → Request
  | .invoke _ r | .respond _ r _ => r

/-- The requests on `key` and their answers. -/
def viewOf (key : Text) (view : List (Linearize.Event Request Response)) :
    List (Linearize.Event Request Response) :=
  view.filter fun e => decide ((requestIn e).key = key)

theorem mem_viewOf {key : Text} {e : Linearize.Event Request Response} :
    e ∈ viewOf key view ↔ e ∈ view ∧ (requestIn e).key = key := by
  simp [viewOf]

theorem respond_mem_history {key : Bytes} {t : Nat} {msg reply : Message}
    (h : .respond t msg reply ∈ trace) (hkey : msg.key = key) :
    Linearize.Event.respond t msg reply ∈ SingleCopy.history key trace :=
  List.mem_filterMap.mpr ⟨_, h, if_pos hkey⟩

/-- The answer made from the reply to a message. -/
def answerOf (g : Settings φ) (msg reply : Message) : Response :=
  (requestOf msg).respond g.lower g.zero (Codec.toJson reply)

theorem Mirrors.observes (h : Mirrors g trace view) (key : Text) :
    Observes requestOf (answerOf g) (SingleCopy.history (utf8 key) trace) (viewOf key view) where
  invoked t msg ht := by
    obtain ⟨hmem, hkey⟩ := SingleCopy.invoke_mem_history.mp ht
    obtain ⟨r, now, rfl, hr⟩ := h.invoked t msg hmem
    rw [key_message] at hkey
    rw [requestOf_message]
    exact mem_viewOf.mpr ⟨hr, utf8_injective hkey⟩
  answered t r resp ht := by
    obtain ⟨hmem, hkey⟩ := mem_viewOf.mp ht
    obtain ⟨now, reply, hreply, rfl⟩ := h.answered hmem
    refine ⟨r.message now, reply, respond_mem_history hreply ?_, (requestOf_message r now).symm, ?_⟩
    · rw [key_message, show r.key = key from hkey]
    · rw [answerOf, requestOf_message]
  precedes a b hprec := by
    obtain ⟨before, after, hview, ⟨r, resp, ha⟩, r', hb⟩ := hprec
    obtain ⟨before₀, after₀, hsplit, rfl, rfl⟩ := List.filter_eq_append_iff.mp hview
    obtain ⟨before', after', rfl, hrespond, hinvoke⟩ := h.split before₀ after₀ hsplit
    obtain ⟨hmem, hkey⟩ := mem_viewOf.mp ha
    obtain ⟨hmem', hkey'⟩ := mem_viewOf.mp hb
    obtain ⟨now, reply, hreply, -⟩ := hrespond a r resp hmem
    obtain ⟨now', hinvoked⟩ := hinvoke b r' hmem'
    refine ⟨SingleCopy.history (utf8 key) before', SingleCopy.history (utf8 key) after',
      SingleCopy.history_append .., ⟨_, reply, respond_mem_history hreply ?_⟩,
      _, SingleCopy.invoke_mem_history.mpr ⟨hinvoked, ?_⟩⟩
    · rw [key_message, show r.key = key from hkey]
    · rw [key_message, show r'.key = key from hkey']

/-! ## The invariant of a run -/

structure Inv (g : Settings φ) (base : HashRing) (c : Cluster) (s : System) : Prop where
  copies : ∀ key p, base.getPrimary key = some p → ∃ order, SingleCopy.Inv base c.listener key p
    ((c.node p.id).storage.get key) s.machine order
  attributed : s.machine.Attributed
  waiting : ∀ t r, s.waiting t = some r → ∃ now, .invoke t (r.message now) ∈ s.machine.trace
  mirrors : Mirrors g s.machine.trace s.view

/-- The time stamps fit an `int64_t`, and the cluster stays healthy. -/
def Allowed (base : HashRing) : Step → Prop
  | .request _ now => -2 ^ 63 ≤ now ∧ now < 2 ^ 63
  | .node a => SingleCopy.Allowed base a
  | .read _ _ | .timeOut _ => True

theorem exists_respond_of_replyTo {t : Nat} {reply : Message} (h : replyTo t trace = some reply) :
    ∃ msg, .respond t msg reply ∈ trace := by
  obtain ⟨e, he, hreply⟩ := List.exists_of_findSome?_eq_some h
  cases e with
  | respond u msg reply' =>
    simp only [Option.ite_none_right_eq_some, Option.some.injEq] at hreply
    obtain ⟨rfl, rfl⟩ := hreply
    exact ⟨msg, he⟩
  | invoke u msg => exact absurd hreply (by simp)
  | access u i => exact absurd hreply (by simp)
  | batch i => exact absurd hreply (by simp)

theorem inRange_register {p : Int} (hp : -2 ^ 31 ≤ p ∧ p < 2 ^ 31) (held : Option Bytes)
    (msg : Message) : Codec.InRange (SingleCopy.register p held msg).2 := by
  have hack : ∀ ok value, Codec.InRange (makeAck p ok value) :=
    fun ok value => ⟨hp, by simp [makeAck], by simp [makeAck]⟩
  have herror : ∀ err, Codec.InRange (makeError p err) :=
    fun err => ⟨hp, by simp [makeError], by simp [makeError]⟩
  unfold SingleCopy.register
  split
  · exact hack _ _
  · split
    · exact herror _
    · exact hack _ _
  · split
    · exact herror _
    · exact hack _ _

section Run

variable {base : HashRing} {c : Cluster} {s s' : System}

theorem exists_getPrimary (hhealthy : Healthy c base) {i : Int} (hi : base.Owns i) (key : Bytes) :
    ∃ p, base.getPrimary key = some p := by
  refine Option.ne_none_iff_exists'.mp fun hnone => ?_
  obtain ⟨e, he, -⟩ := hi
  have hdead := (HashRing.getPrimary_eq_none_iff ..).mp hnone e he
  exact absurd ((hhealthy.alive e he).symm.trans hdead) (by decide)

/-- The replies of the cluster fit the types of a message. -/
theorem Inv.inRange (h : Inv g base c s)
    (hprim : ∀ key, ∃ p, base.getPrimary key = some p)
    (hids : ∀ e ∈ base.ring.entries, -2 ^ 31 ≤ e.2.id ∧ e.2.id < 2 ^ 31) {t : Nat}
    {msg reply : Message} (hreply : .respond t msg reply ∈ s.machine.trace) :
    Codec.InRange reply := by
  obtain ⟨p, hp⟩ := hprim msg.key
  obtain ⟨order, hinv⟩ := h.copies msg.key p hp
  have hlin := hinv.recorded.linearizes
  have hentry := hlin.answered t msg reply (respond_mem_history hreply rfl)
  obtain ⟨held, hheld⟩ := hlin.legal.exists_state hentry
  obtain ⟨-, e, he, rfl⟩ := HashRing.entry_of_getPrimary hp
  rw [show reply = _ from hheld]
  exact inRange_register (hids e he) held msg

/-- A step of the machine with the view left as it is. -/
theorem Inv.machine_step (h : Inv g base c s) {a : Action} (ha : SingleCopy.Allowed base a)
    (hnot : ∀ i msg, a ≠ .invoke i msg) {m : Machine} (hstep : s.machine.step a = some m) :
    Inv g base c { s with machine := m } := by
  obtain ⟨ext, htrace, hext⟩ := Machine.exists_trace_of_step hnot hstep
  refine ⟨fun key p hp => SingleCopy.inv_step hp ha (h.copies key p hp) hstep,
    Machine.attributed_step h.attributed hstep, fun t r ht => ?_, ?_⟩
  · obtain ⟨now, hmem⟩ := h.waiting t r ht
    refine ⟨now, ?_⟩
    show _ ∈ m.trace
    rw [htrace]
    exact List.mem_append_left _ hmem
  · show Mirrors g m.trace s.view
    rw [htrace]
    exact h.mirrors.extend hext

theorem Inv.stopWaiting (h : Inv g base c s) (t : Nat) : Inv g base c (s.stopWaiting t) := by
  refine ⟨h.copies, h.attributed, fun u r hu => ?_, h.mirrors⟩
  by_cases hut : u = t
  · subst hut
    have hnone : Function.update s.waiting u none u = some r := hu
    rw [Function.update_self] at hnone
    exact absurd hnone (by simp)
  · exact h.waiting u r ((Function.update_of_ne hut ..).symm.trans hu)

theorem Inv.request (h : Inv g base c s) {i : Int} (hi : base.Owns i)
    (hcoord : c.listener (utf8 g.coordHost) g.coordPort = some i)
    (hwired : s.machine.cluster.listener = c.listener) {r : Request} {now : Int}
    (hlow : -2 ^ 63 ≤ now) (hhigh : now < 2 ^ 63) (hstep : step g s (.request r now) = some s') :
    Inv g base c s' := by
  have hmsg : TcpServer.request g.json (clientLine (Call.store r).fields now) =
      some (r.message now) := by
    have hline := request_clientLine g.json (.store r) hlow hhigh []
    rwa [List.append_nil] at hline
  simp only [step, hwired, hcoord, hmsg] at hstep
  split at hstep
  · exact Option.some.inj hstep ▸ h
  · obtain ⟨m, hm, rfl⟩ := Option.map_eq_some_iff.mp hstep
    have hallowed : SingleCopy.Allowed base (.invoke i (r.message now)) :=
      ⟨isRequest_message r now, hi⟩
    have htrace : m.trace = s.machine.trace ++ [.invoke s.machine.next (r.message now)] := by
      rw [← Option.some.inj hm]
    refine ⟨fun key p hp => SingleCopy.inv_step hp hallowed (h.copies key p hp) hm,
      Machine.attributed_step h.attributed hm, fun u r' hu => ?_, ?_⟩
    · show ∃ now', _ ∈ m.trace
      rw [htrace]
      by_cases hut : u = s.machine.next
      · subst hut
        obtain rfl := Option.some.inj ((Function.update_self _ _ s.waiting).symm.trans hu)
        exact ⟨now, List.mem_append_right _ (List.mem_singleton_self _)⟩
      · obtain ⟨now', hmem⟩ := h.waiting u r' ((Function.update_of_ne hut ..).symm.trans hu)
        exact ⟨now', List.mem_append_left _ hmem⟩
    · show Mirrors g m.trace _
      rw [htrace]
      exact h.mirrors.request _ r now

theorem Inv.read (h : Inv g base c s) (hprim : ∀ key, ∃ p, base.getPrimary key = some p)
    (hids : ∀ e ∈ base.ring.entries, -2 ^ 31 ≤ e.2.id ∧ e.2.id < 2 ^ 31) {t : Nat}
    {events : List Recv} (hstep : step g s (.read t events) = some s') : Inv g base c s' := by
  simp only [step] at hstep
  split at hstep
  · rename_i r reply hr hreply
    obtain ⟨msg, hrespond⟩ := exists_respond_of_replyTo hreply
    obtain ⟨now, hinvoked⟩ := h.waiting t r hr
    obtain rfl : msg = r.message now :=
      h.attributed.unique t _ _ (h.attributed.answered t msg reply hrespond) hinvoked
    split at hstep
    · exact Option.some.inj hstep ▸ h.stopWaiting t
    · rename_i line hline
      split at hstep
      · rename_i harrived
        split at hstep
        · rename_i resp hresp
          obtain rfl := ((receive_eq_reply_iff g.json g.address (h.inRange hprim hids hrespond)
            hline harrived resp).mp hresp).1
          obtain rfl := Option.some.inj hstep
          have hstop := h.stopWaiting t
          exact ⟨h.copies, h.attributed, hstop.waiting, h.mirrors.read hrespond⟩
        · exact Option.some.inj hstep ▸ h.stopWaiting t
      · exact absurd hstep (by simp)
  · exact absurd hstep (by simp)

theorem Inv.step {a : Step} (hhealthy : Healthy c base)
    (hids : ∀ e ∈ base.ring.entries, -2 ^ 31 ≤ e.2.id ∧ e.2.id < 2 ^ 31) {i : Int}
    (hi : base.Owns i) (hcoord : c.listener (utf8 g.coordHost) g.coordPort = some i)
    (ha : Allowed base a) (h : Inv g base c s) (hstep : System.step g s a = some s') :
    Inv g base c s' := by
  have hprim := exists_getPrimary hhealthy hi
  cases a with
  | request r now =>
    obtain ⟨p, hp⟩ := hprim []
    obtain ⟨order, hinv⟩ := h.copies [] p hp
    exact h.request hi hcoord hinv.wired ha.1 ha.2 hstep
  | node a =>
    by_cases hinvoke : ∃ j msg, a = .invoke j msg
    · obtain ⟨j, msg, rfl⟩ := hinvoke
      exact absurd hstep (by simp [System.step])
    · have hnot : ∀ j msg, a ≠ .invoke j msg := fun j msg heq => hinvoke ⟨j, msg, heq⟩
      rw [System.step] at hstep
      · obtain ⟨m, hm, rfl⟩ := Option.map_eq_some_iff.mp hstep
        exact h.machine_step ha hnot hm
      · exact hnot
  | read t events => exact h.read hprim hids hstep
  | timeOut t => exact Option.some.inj hstep ▸ h.stopWaiting t

theorem inv_idle (hhealthy : Healthy c base) (hidle : c.inFlight = []) :
    Inv g base c (idle c) where
  copies key p _ := ⟨[], SingleCopy.inv_idle hhealthy hidle key p⟩
  attributed := Machine.attributed_idle c
  waiting t r ht := absurd ht (by simp [idle])
  mirrors := by
    refine ⟨by simp [idle, Machine.idle], fun before after h => ⟨[], [], rfl, ?_, ?_⟩⟩
    · have hnil : before = [] := (List.append_eq_nil_iff.mp h.symm).1
      simp [hnil]
    · have hnil : after = [] := (List.append_eq_nil_iff.mp h.symm).2
      simp [hnil]

end Run

/-- The gateway as it is started, in front of node 1. -/
def localGateway : Settings Empty :=
  { coordHost := "localhost".toList
    coordPort := 8001
    lower := List.map Char.toLower
    zero := Empty.elim
    json := integersOnly }

def missingLine : Bytes :=
  ascii "\x7b\"error\":\"Key not found: user1\",\"key\":\"\",\"node_id\":1,\"success\":false," ++
    ascii "\"term\":0,\"timestamp\":0,\"type\":\"ACK\",\"value\":\"\"\x7d\n"

theorem step_run {g : Settings φ} {s : System} {t : Nat} {m : Machine}
    (h : s.machine.step (.run t) = some m) :
    step g s (.node (.run t)) = some { s with machine := m } := by
  rw [step]
  · rw [h]
    rfl
  · simp

theorem step_request {g : Settings φ} {s : System} {r : Request} {now i : Int} {msg : Message}
    {m : Machine} (hvalid : r.valid = true)
    (hcoord : s.machine.cluster.listener (utf8 g.coordHost) g.coordPort = some i)
    (hline : TcpServer.request g.json (clientLine (Call.store r).fields now) = some msg)
    (hm : s.machine.step (.invoke i msg) = some m) :
    step g s (.request r now) = some
      { machine := m
        waiting := Function.update s.waiting s.machine.next (some r)
        view := s.view ++ [.invoke s.machine.next r] } := by
  simp only [step, hvalid, hcoord, hline, hm]
  rfl

theorem step_read {g : Settings φ} {s : System} {t : Nat} {r : Request} {reply : Message}
    {line : Bytes} {events : List Recv} {resp : Json φ} (hr : s.waiting t = some r)
    (hreply : replyTo t s.machine.trace = some reply)
    (hline : Codec.serializeMessage g.json reply = some line)
    (harrived : (arrived events).1 <+: line)
    (hresp : receive g.json g.address events = .reply resp) :
    step g s (.read t events) = some { s.stopWaiting t with
      view := s.view ++ [.respond t r (r.respond g.lower g.zero resp)] } := by
  simp only [step, hr, hreply, hline, if_pos harrived, hresp]

end System

end Gateway
end DistributedDb
