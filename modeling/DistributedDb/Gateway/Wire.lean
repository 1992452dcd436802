import DistributedDb.Gateway.Store
import DistributedDb.Json.Accepted
import DistributedDb.Node.TcpServer

/-
How the gateway talks to a node.

The gateway prints its messages with the JSON encoder of its own language: a blank
behind every comma and colon, the members in the order they were added, and
every character beyond ASCII as an escape of its UTF-16 units.  A node resolves
the escapes to UTF-8, so the strings of the message are the UTF-8 of the texts
the gateway was given.
-/

namespace DistributedDb
namespace Gateway

open Json

variable {φ : Type}

/-! ## The encoder of the gateway -/

/-- The four digits of a UTF-16 unit. -/
def hex4 (n : Nat) : Bytes :=
  [hexDigit (n / 4096 % 16), hexDigit (n / 256 % 16), hexDigit (n / 16 % 16), hexDigit (n % 16)]
where
  hexDigit (d : Nat) : UInt8 := UInt8.ofNat (if d < 10 then d + 0x30 else d + 0x57)

/-- `json.dumps` on one character, with `ensure_ascii` as it is by default. -/
def escapeChar (c : Char) : Bytes :=
  if c = '\\' then ascii "\\\\"
  else if c = '"' then ascii "\\\""
  else if c = '\x08' then ascii "\\b"
  else if c = '\x0C' then ascii "\\f"
  else if c = '\n' then ascii "\\n"
  else if c = '\r' then ascii "\\r"
  else if c = '\t' then ascii "\\t"
  else if ' ' ≤ c ∧ c ≤ '~' then [byte c]
  else if c.toNat < 0x10000 then ascii "\\u" ++ hex4 c.toNat
  else
    let n := c.toNat - 0x10000
    ascii "\\u" ++ hex4 (0xD800 + n / 1024 % 1024) ++ ascii "\\u" ++ hex4 (0xDC00 + n % 1024)

def dumpsStr (s : Text) : Bytes := quote :: (s.flatMap escapeChar ++ [quote])

/-- The values that the messages of the gateway hold. -/
inductive Field where
  | str (s : Text)
  | int (n : Int)
  deriving DecidableEq, Repr

def Field.dumps : Field → Bytes
  | .str s => dumpsStr s
  | .int n => dumpInteger n

/-- One member of a `dict`. -/
def dumpsMember (p : Text × Field) : Bytes := dumpsStr p.1 ++ ascii ": " ++ p.2.dumps

/-- `json.dumps` of a `dict`, in the order of its insertions. -/
def dumps : List (Text × Field) → Bytes
  | [] => ascii "\x7b\x7d"
  | p :: rest =>
    ascii "\x7b" ++ dumpsMember p ++ rest.flatMap (fun q => ascii ", " ++ dumpsMember q) ++
      ascii "\x7d"

/-! ## One character -/

theorem encode_toNat (c : Char) : Scan.encode c.toNat = String.utf8EncodeChar c := by
  have hvalid : c.toNat < 0xD800 ∨ (0xDFFF < c.toNat ∧ c.toNat < 0x110000) := c.valid
  simp only [Scan.encode, String.utf8EncodeChar, show c.val.toNat = c.toNat from rfl]
  generalize c.toNat = n at hvalid
  by_cases h1 : n < 0x80
  · rw [if_pos h1, if_pos (show n ≤ 0x7F by omega)]
  · rw [if_neg h1, if_neg (show ¬n ≤ 0x7F by omega)]
    by_cases h2 : n ≤ 0x7FF
    · rw [if_pos h2, if_pos h2, show n / 64 % 0x20 + 0xC0 = 0xC0 + n / 64 by omega,
        Nat.add_comm (n % 64)]
    · rw [if_neg h2, if_neg h2]
      by_cases h3 : n ≤ 0xFFFF
      · rw [if_pos h3, if_pos h3, show n / 4096 % 0x10 + 0xE0 = 0xE0 + n / 4096 by omega,
          Nat.add_comm (n / 64 % 64), Nat.add_comm (n % 64)]
      · rw [if_neg h3, if_neg h3, show n / 262144 % 8 + 0xF0 = 0xF0 + n / 262144 by omega,
          Nat.add_comm (n / 4096 % 64), Nat.add_comm (n / 64 % 64), Nat.add_comm (n % 64)]

/-- What the scanner of a node lets through is the UTF-8 of a text. -/
theorem exists_text_of_valid {s : Bytes} (h : Utf8.Valid s) : ∃ t : Text, utf8 t = s := by
  -- By induction on the length: a character has at least one byte.
  generalize hn : s.length = n
  induction n using Nat.strongRecOn generalizing s with
  | ind n ih =>
    cases s with
    | nil => exact ⟨[], rfl⟩
    | cons a rest =>
      obtain ⟨codepoint, rest', hscalar, hs, hrest⟩ := Scan.exists_encode h
      have hencode : Scan.encode codepoint =
          String.utf8EncodeChar (Char.ofNatAux codepoint hscalar) :=
        encode_toNat (Char.ofNatAux codepoint hscalar)
      have hlen : rest'.length < n := by
        have hpos := String.length_utf8EncodeChar (Char.ofNatAux codepoint hscalar)
        have hsize := Char.utf8Size_pos (Char.ofNatAux codepoint hscalar)
        rw [← hn, hs, hencode, List.length_append]
        omega
      obtain ⟨t, ht⟩ := ih _ hlen hrest rfl
      refine ⟨Char.ofNatAux codepoint hscalar :: t, ?_⟩
      rw [hs, hencode, ← ht]
      rfl

theorem hexValue_hexDigit : ∀ d < 16, Scan.hexValue (hex4.hexDigit d) = some d := by
  decide

/-- The digits of one unit take the scanner to the end of the escape. -/
theorem scanAll_hex4 {n : Nat} (hn : n < 0x10000) (high : Option Nat) {scan : Scan} {out : Bytes}
    (h : Scan.endHex n high = some (scan, out)) :
    scanAll (.hex high 0 0) (hex4 n) = some (scan, out) := by
  have hstep : ∀ d < 16, ∀ digits codepoint, digits ≠ 3 →
      Scan.step (.hex high digits codepoint) (hex4.hexDigit d) =
        some (.hex high (digits + 1) (codepoint * 16 + d), []) := by
    intro d hd digits codepoint hdigits
    rw [Scan.step, hexValue_hexDigit d hd]
    exact if_neg hdigits
  have hlast : Scan.step (.hex high 3 (((0 * 16 + n / 4096 % 16) * 16 + n / 256 % 16) * 16 +
      n / 16 % 16)) (hex4.hexDigit (n % 16)) = some (scan, out) := by
    rw [Scan.step, hexValue_hexDigit _ (Nat.mod_lt _ (by decide)), ← h]
    refine (if_pos rfl).trans (congrArg (Scan.endHex · high) ?_)
    omega
  have hnot : ∀ digits codepoint, Scan.hex high digits codepoint ≠ .text .accept := by
    intro digits codepoint h
    exact Scan.noConfusion h
  unfold hex4
  have hmod : ∀ m, m % 16 < 16 := fun m => Nat.mod_lt m (by decide)
  refine scanAll_append (a := [_]) (scanAll_single (fun hq => hnot _ _ hq.1)
    (hstep _ (hmod _) 0 0 (by decide))) ?_
  refine scanAll_append (a := [_]) (scanAll_single (fun hq => hnot _ _ hq.1)
    (hstep _ (hmod _) 1 _ (by decide))) ?_
  refine scanAll_append (a := [_]) (scanAll_single (fun hq => hnot _ _ hq.1)
    (hstep _ (hmod _) 2 _ (by decide))) ?_
  exact scanAll_single (fun hq => hnot _ _ hq.1) hlast

theorem scanAll_backslash_u {n : Nat} (hn : n < 0x10000) {scan : Scan} {out : Bytes}
    (h : Scan.endHex n none = some (scan, out)) :
    scanAll (.text .accept) (ascii "\\u" ++ hex4 n) = some (scan, out) := by
  have hmark : scanAll (.text .accept) (ascii "\\u") = some (.hex none 0 0, []) := by decide
  exact scanAll_append hmark (scanAll_hex4 hn none h)

/-- The characters of ASCII, one by one. -/
theorem scanAll_escapeChar_ascii :
    ∀ n < 0x80, scanAll (.text .accept) (escapeChar (Char.ofNat n)) =
      some (.text .accept, String.utf8EncodeChar (Char.ofNat n)) := by
  decide +kernel

/-- Beyond ASCII a character is written by its UTF-16 units. -/
theorem escapeChar_of_high {c : Char} (h : 0x80 ≤ c.toNat) :
    escapeChar c =
      if c.toNat < 0x10000 then ascii "\\u" ++ hex4 c.toNat
      else ascii "\\u" ++ hex4 (0xD800 + (c.toNat - 0x10000) / 1024 % 1024) ++ ascii "\\u" ++
        hex4 (0xDC00 + (c.toNat - 0x10000) % 1024) := by
  have hne : ∀ d : Char, d.toNat < 0x80 → c ≠ d := by
    rintro d hd rfl
    omega
  have hrange : ¬(' ' ≤ c ∧ c ≤ '~') := by
    rintro ⟨-, hc⟩
    have htop : c.toNat ≤ 126 := hc
    omega
  rw [escapeChar, if_neg (hne _ (by decide)), if_neg (hne _ (by decide)),
    if_neg (hne _ (by decide)), if_neg (hne _ (by decide)), if_neg (hne _ (by decide)),
    if_neg (hne _ (by decide)), if_neg (hne _ (by decide)), if_neg hrange]

/-- The scanner of the node turns what the gateway prints for a character into its
UTF-8. -/
theorem scanAll_escapeChar (c : Char) :
    scanAll (.text .accept) (escapeChar c) =
      some (.text .accept, String.utf8EncodeChar c) := by
  have hvalid : c.toNat < 0xD800 ∨ (0xDFFF < c.toNat ∧ c.toNat < 0x110000) := c.valid
  by_cases hascii : c.toNat < 0x80
  · have h := scanAll_escapeChar_ascii c.toNat hascii
    rwa [Char.ofNat_toNat] at h
  · rw [escapeChar_of_high (by omega), ← encode_toNat]
    generalize c.toNat = n at hvalid hascii
    split
    · rename_i hn
      have hend : Scan.endHex n none = some (.text .accept, Scan.encode n) := by
        rw [Scan.endHex, if_neg (by omega), if_neg (by omega)]
      exact scanAll_backslash_u hn hend
    · -- The two halves of a pair, put together again by the scanner.
      have hhigh : Scan.endHex (0xD800 + (n - 0x10000) / 1024 % 1024) none =
          some (.lowEscape (0xD800 + (n - 0x10000) / 1024 % 1024), []) := by
        rw [Scan.endHex, if_pos (by omega)]
      have hlow : Scan.endHex (0xDC00 + (n - 0x10000) % 1024)
          (some (0xD800 + (n - 0x10000) / 1024 % 1024)) =
          some (.text .accept, Scan.encode n) := by
        rw [Scan.endHex, if_pos (by omega)]
        refine congrArg (fun m => some (Scan.text .accept, Scan.encode m)) ?_
        omega
      have hmark : ∀ high, scanAll (.lowEscape high) (ascii "\\u") =
          some (.hex (some high) 0 0, []) := fun _ => rfl
      rw [List.append_assoc]
      exact scanAll_append (scanAll_backslash_u (by omega) hhigh)
        (scanAll_append (hmark _) (scanAll_hex4 (by omega) _ hlow))

theorem scanAll_flatMap_escapeChar (s : Text) :
    scanAll (.text .accept) (s.flatMap escapeChar) = some (.text .accept, utf8 s) := by
  induction s with
  | nil => rfl
  | cons c rest ih => exact scanAll_append (scanAll_escapeChar c) ih

/-- A printed string, from behind its opening quote on. -/
theorem exec_dumpsStr (x : Externals φ) (s : Text) (owner : Option (List (Bytes × Json φ)))
    (stack : List (Frame φ)) :
    Runs.exec (step x) (.string (.text .accept) [] owner stack)
        (s.flatMap escapeChar ++ [quote]) =
      some (endString (utf8 s) stack owner) := by
  rw [Runs.exec_append]
  refine ⟨_, exec_string_of_scanAll x (scanAll_flatMap_escapeChar s) [] owner stack, ?_⟩
  simp [Runs.exec, step]

/-! ## Messages -/

/-- The value that a node reads. -/
def Field.json : Field → Json φ
  | .str s => .string (utf8 s)
  | .int n => .integer n

def Field.InRange : Field → Prop
  | .str _ => True
  | .int n => -2 ^ 63 ≤ n ∧ n < 2 ^ 63

theorem reads_field (x : Externals φ) {f : Field} (hf : f.InRange) (stack : List (Frame φ)) :
    Reads x f.dumps f.json stack := by
  cases f with
  | str s =>
    exact ⟨quote, s.flatMap escapeChar ++ [quote], _, _, rfl, rfl, exec_dumpsStr x s none stack,
      settles_deliver x _ stack⟩
  | int n =>
    have hlow : -2 ^ 63 ≤ n := hf.1
    have hhigh : n < 2 ^ 63 := hf.2
    exact reads_integer x hlow (by omega) stack

/-- The members that a node has after reading the fields in their order. -/
def addFields (members : OrderedMap Bytes (Json φ)) (fields : List (Text × Field)) :
    OrderedMap Bytes (Json φ) :=
  fields.foldl (fun m p => m.insert (utf8 p.1) p.2.json) members

/-- A member, from behind the opening quote of its key on. -/
theorem exec_dumpsMember (x : Externals φ) {p : Text × Field} (hp : p.2.InRange)
    (members : List (Bytes × Json φ)) (stack : List (Frame φ)) :
    ∃ s, Settles x s p.2.json (.member members (utf8 p.1) :: stack) ∧
      Runs.exec (step x) (.string (.text .accept) [] (some members) stack)
        (p.1.flatMap escapeChar ++ [quote] ++ ascii ": " ++ p.2.dumps) = some s := by
  obtain ⟨s, hs, hsettles⟩ :=
    (reads_field x hp (.member members (utf8 p.1) :: stack)).exec_value
  refine ⟨s, hsettles, Runs.exec_append.mpr ⟨_, Runs.exec_append.mpr
    ⟨_, exec_dumpsStr x p.1 (some members) stack, ?_⟩, hs⟩⟩
  rfl

/-- The members behind a value, up to the closing brace. -/
theorem exec_dumpsMembers (x : Externals φ) {rest : List (Text × Field)}
    (hrest : ∀ p ∈ rest, p.2.InRange) {members : OrderedMap Bytes (Json φ)} {k : Bytes}
    {v : Json φ} {stack : List (Frame φ)} {s : State φ}
    (hs : Settles x s v (.member members.entries k :: stack)) :
    Runs.exec (step x) s (rest.flatMap (fun q => ascii ", " ++ dumpsMember q) ++ ascii "\x7d") =
      some (deliver (.object (addFields (members.insert k v) rest).entries) stack) := by
  induction rest generalizing members k v s with
  | nil =>
    refine Runs.exec_cons.mpr ⟨_, ?_, rfl⟩
    rw [hs.2 _ (by decide)]
    rfl
  | cons p rest ih =>
    obtain ⟨t, hsettles, ht⟩ := exec_dumpsMember x (hrest p List.mem_cons_self)
      (members.insert k v).entries stack
    have hnext := ih (fun q hq => hrest q (List.mem_cons_of_mem p hq)) hsettles
    have hcomma : step x s (byte ',') =
        some (.expect (.key (members.insert k v).entries) stack) := by
      rw [hs.2 _ (by decide)]
      rfl
    have hopen : Runs.exec (step x) s (ascii ", " ++ [quote]) =
        some (.string (.text .accept) [] (some (members.insert k v).entries) stack) :=
      Runs.exec_cons.mpr ⟨_, hcomma, rfl⟩
    have htext : (p :: rest).flatMap (fun q => ascii ", " ++ dumpsMember q) ++ ascii "\x7d" =
        (ascii ", " ++ [quote]) ++
          ((p.1.flatMap escapeChar ++ [quote] ++ ascii ": " ++ p.2.dumps) ++
          (rest.flatMap (fun q => ascii ", " ++ dumpsMember q) ++ ascii "\x7d")) := by
      simp [dumpsMember, dumpsStr, List.append_assoc]
    rw [htext]
    exact Runs.exec_append.mpr ⟨_, hopen, Runs.exec_append.mpr ⟨t, ht, hnext⟩⟩

/-- A node reads the members of the `dict` in the order of their keys. -/
theorem parse_dumps (x : Externals φ) (p : Text × Field) (rest : List (Text × Field))
    (hfields : ∀ q ∈ p :: rest, q.2.InRange) :
    parse x (dumps (p :: rest)) =
      .ok (.object (addFields OrderedMap.empty (p :: rest)).entries) := by
  obtain ⟨s, hsettles, hs⟩ := exec_dumpsMember x (hfields p List.mem_cons_self)
    (OrderedMap.empty : OrderedMap Bytes (Json φ)).entries []
  have hmembers := exec_dumpsMembers x (fun q hq => hfields q (List.mem_cons_of_mem p hq)) hsettles
  have hopen : Runs.exec (step x) (.expect .value []) (ascii "\x7b" ++ [quote]) =
      some (.string (.text .accept) [] (some []) []) := rfl
  have htext : dumps (p :: rest) =
      (ascii "\x7b" ++ [quote]) ++
        ((p.1.flatMap escapeChar ++ [quote] ++ ascii ": " ++ p.2.dumps) ++
        (rest.flatMap (fun q => ascii ", " ++ dumpsMember q) ++ ascii "\x7d")) := by
    simp [dumps, dumpsMember, dumpsStr, List.append_assoc]
  have hrun : Runs.exec (step x) (.expect .value []) (dumps (p :: rest)) =
      some (.complete (.object (addFields OrderedMap.empty (p :: rest)).entries)) := by
    rw [htext]
    exact Runs.exec_append.mpr ⟨_, hopen, Runs.exec_append.mpr ⟨s, hs, hmembers⟩⟩
  have hbom : skipBom (dumps (p :: rest)) = dumps (p :: rest) :=
    skipBom_of_start (show start ([] : List (Frame φ)) (byte '\x7b') = some _ from rfl) _
  rw [parse, hbom, hrun]
  rfl

/-! ## The requests of the gateway -/

/-- The three endpoints of the store. -/
inductive Request where
  | putStore (key value : Text)
  | getStore (key : Text)
  | deleteStore (key : Text)
  deriving DecidableEq, Repr

/-- What the gateway asks a node: the requests, and the pings of the endpoints about
the cluster. -/
inductive Call where
  | store (r : Request)
  | checkNodeAlive
  | queryLeader
  deriving DecidableEq, Repr

/-- The `dict` that is handed to the client. -/
def Call.fields : Call → List (Text × Field)
  | .store (.putStore key value) =>
    [("type".toList, .str "PUT".toList), ("key".toList, .str key), ("value".toList, .str value),
     ("node_id".toList, .int 0)]
  | .store (.getStore key) =>
    [("type".toList, .str "GET".toList), ("key".toList, .str key), ("node_id".toList, .int 0)]
  | .store (.deleteStore key) =>
    [("type".toList, .str "DELETE".toList), ("key".toList, .str key), ("node_id".toList, .int 0)]
  | .checkNodeAlive => [("type".toList, .str "HEARTBEAT".toList), ("node_id".toList, .int 0)]
  | .queryLeader =>
    [("type".toList, .str "HEARTBEAT".toList), ("node_id".toList, .int 0),
     ("query".toList, .str "leader".toList)]

/-- The line that `CoordinatorClient.send` puts on the wire; it adds a time stamp
when there is none. -/
def clientLine (message : List (Text × Field)) (now : Int) : Bytes :=
  let message :=
    if "timestamp".toList ∈ message.map Prod.fst then message
    else message ++ [("timestamp".toList, .int now)]
  dumps message ++ ascii "\n"

/-- The message that a request stands for. -/
def Request.message (r : Request) (now : Int) : Message :=
  match r with
  | .putStore key value =>
    { type := .put, key := utf8 key, value := utf8 value, timestamp := now }
  | .getStore key => { type := .get, key := utf8 key, timestamp := now }
  | .deleteStore key => { type := .del, key := utf8 key, timestamp := now }

def Call.message (c : Call) (now : Int) : Message :=
  match c with
  | .store r => r.message now
  | .checkNodeAlive | .queryLeader => { type := .heartbeat, timestamp := now }

theorem clientLine_call (c : Call) (now : Int) :
    clientLine c.fields now =
      dumps (c.fields ++ [("timestamp".toList, .int now)]) ++ ascii "\n" := by
  have hnot : "timestamp".toList ∉ c.fields.map Prod.fst := by
    rcases c with (_ | _ | _) | _ | _ <;> simp [Call.fields]
  rw [clientLine, if_neg hnot]

theorem inRange_fields (c : Call) {now : Int} (hlow : -2 ^ 63 ≤ now) (hhigh : now < 2 ^ 63) :
    ∀ p ∈ c.fields ++ [("timestamp".toList, .int now)], p.2.InRange := by
  have hfields : ∀ p ∈ c.fields, p.2.InRange := by
    rcases c with (_ | _ | _) | _ | _ <;> simp [Call.fields, Field.InRange]
  intro p hp
  rcases List.mem_append.mp hp with hp | hp
  · exact hfields p hp
  · rw [List.mem_singleton.mp hp]
    exact ⟨hlow, hhigh⟩

/-- The decoder finds the fields of the call and nothing else. -/
theorem assignAll_call (x : Externals φ) (c : Call) {now : Int} (hlow : -2 ^ 63 ≤ now)
    (hhigh : now < 2 ^ 63) :
    Codec.assignAll (Codec.assignments x (.object (addFields OrderedMap.empty
      (c.fields ++ [("timestamp".toList, .int now)])).entries)) {} = (c.message now, none) := by
  have htype : utf8 "type".toList = ascii "type" := by decide
  have hkey : utf8 "key".toList = ascii "key" := by decide
  have hvalue : utf8 "value".toList = ascii "value" := by decide
  have hnode : utf8 "node_id".toList = ascii "node_id" := by decide
  have htime : utf8 "timestamp".toList = ascii "timestamp" := by decide
  have hquery : utf8 "query".toList = ascii "query" := by decide
  rcases c with (_ | _ | _) | _ | _
  all_goals
    simp (disch := decide) only [Codec.assignments, Codec.pairs, Json.value, lookup_entries,
      addFields, Call.fields, List.cons_append, List.nil_append, List.foldl_cons, List.foldl_nil,
      htype, hkey, hvalue, hnode, htime, hquery, OrderedMap.find?_insert_self,
      OrderedMap.find?_insert_of_ne, OrderedMap.find?_empty, Field.json, getString,
      getInt_integer, getInt64_integer x hlow hhigh, List.map_nil, Codec.assignAll, Codec.assign]
    rfl

/-! ## One line -/

theorem printable_hex4 (n : Nat) : Printable (hex4 n) := by
  have hdigit : ∀ d < 16, (0x20 : UInt8) ≤ hex4.hexDigit d := by decide
  intro c hc
  simp only [hex4, List.mem_cons, List.not_mem_nil, or_false] at hc
  rcases hc with rfl | rfl | rfl | rfl <;> exact hdigit _ (Nat.mod_lt _ (by decide))

theorem printable_escapeChar_ascii : ∀ n < 0x80, Printable (escapeChar (Char.ofNat n)) := by
  decide +kernel

theorem printable_escapeChar (c : Char) : Printable (escapeChar c) := by
  have hmark : Printable (ascii "\\u") := by decide
  by_cases hascii : c.toNat < 0x80
  · have h := printable_escapeChar_ascii c.toNat hascii
    rwa [Char.ofNat_toNat] at h
  · rw [escapeChar_of_high (by omega)]
    split
    · exact printable_append hmark (printable_hex4 _)
    · exact printable_append (printable_append (printable_append hmark (printable_hex4 _)) hmark)
        (printable_hex4 _)

theorem printable_dumpsStr (s : Text) : Printable (dumpsStr s) := by
  refine printable_cons (by decide) (printable_append (fun b hb => ?_) (by decide))
  obtain ⟨c, -, hb⟩ := List.mem_flatMap.mp hb
  exact printable_escapeChar c b hb

theorem printable_dumpsMember (p : Text × Field) : Printable (dumpsMember p) := by
  refine printable_append (printable_append (printable_dumpsStr p.1) (by decide)) ?_
  cases p.2 with
  | str s => exact printable_dumpsStr s
  | int n => exact printable_dumpInteger n

theorem printable_dumps (fields : List (Text × Field)) : Printable (dumps fields) := by
  cases fields with
  | nil => decide
  | cons p rest =>
    refine printable_append (printable_append (printable_append (by decide)
      (printable_dumpsMember p)) (fun b hb => ?_)) (by decide)
    obtain ⟨q, -, hb⟩ := List.mem_flatMap.mp hb
    exact printable_append (by decide) (printable_dumpsMember q) b hb

/-- A node that is sent a call of the gateway dispatches the message it stands for,
with the UTF-8 of its texts, whatever these are. -/
theorem request_clientLine (x : Externals φ) (c : Call) {now : Int} (hlow : -2 ^ 63 ≤ now)
    (hhigh : now < 2 ^ 63) (rest : Bytes) :
    TcpServer.request x (clientLine c.fields now ++ rest) = some (c.message now) := by
  obtain ⟨p, fields, hfields⟩ : ∃ p fields,
      c.fields ++ [("timestamp".toList, .int now)] = p :: fields :=
    List.exists_cons_of_ne_nil (by simp)
  have hline : TcpServer.recvLine (clientLine c.fields now ++ rest) = dumps (p :: fields) := by
    rw [clientLine_call, hfields, List.append_assoc]
    refine TcpServer.recvLine_append (fun hmem => ?_) rest
    exact absurd (printable_dumps _ _ hmem) (by decide)
  have hparse := parse_dumps x p fields (hfields ▸ inRange_fields c hlow hhigh)
  have hne : dumps (p :: fields) ≠ [] := by
    simp [dumps, ascii]
  have hdecode := assignAll_call x c hlow hhigh
  rw [hfields] at hdecode
  rw [TcpServer.request, hline]
  simp only [if_neg hne, Codec.deserializeMessage, hparse, hdecode]

end Gateway
end DistributedDb
