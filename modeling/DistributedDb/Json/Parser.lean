import DistributedDb.Json.Value

/-
The parser of the vendored library, one byte at a time.

`scan` cuts the text into tokens and `sax_parse_internal` checks their order
with a stack of the open arrays and objects, to which the values are added as
they are completed.  Both are loops over one stream of bytes, and the model is
their common state: which token the parser is in or which it expects, and the
open containers.  `step` reads one byte and is `none` where the source reports
an error.
-/

namespace DistributedDb
namespace Json

variable {φ : Type}

/-! ## Strings -/

/-- Where `scan_string` stands between the quotes: inside a character, after a
backslash, among the four digits of an escape, or between the two halves of a
surrogate pair whose first half is known. -/
inductive Scan where
  | text (u : Utf8)
  | escape
  | hex (high : Option Nat) (digits codepoint : Nat)
  | lowEscape (high : Nat)
  | lowMark (high : Nat)
  deriving DecidableEq, Repr

namespace Scan

def hexValue (c : UInt8) : Option Nat :=
  if byte '0' ≤ c ∧ c ≤ byte '9' then some (c.toNat - 0x30)
  else if byte 'A' ≤ c ∧ c ≤ byte 'F' then some (c.toNat - 0x37)
  else if byte 'a' ≤ c ∧ c ≤ byte 'f' then some (c.toNat - 0x57)
  else none

/-- The bytes of a code point. -/
def encode (codepoint : Nat) : Bytes :=
  if codepoint < 0x80 then [UInt8.ofNat codepoint]
  else if codepoint ≤ 0x7FF then
    [UInt8.ofNat (0xC0 + codepoint / 64), UInt8.ofNat (0x80 + codepoint % 64)]
  else if codepoint ≤ 0xFFFF then
    [UInt8.ofNat (0xE0 + codepoint / 4096), UInt8.ofNat (0x80 + codepoint / 64 % 64),
      UInt8.ofNat (0x80 + codepoint % 64)]
  else
    [UInt8.ofNat (0xF0 + codepoint / 262144), UInt8.ofNat (0x80 + codepoint / 4096 % 64),
      UInt8.ofNat (0x80 + codepoint / 64 % 64), UInt8.ofNat (0x80 + codepoint % 64)]

/-- The four digits are read. -/
def endHex (codepoint : Nat) : Option Nat → Option (Scan × Bytes)
  | none =>
    if 0xD800 ≤ codepoint ∧ codepoint ≤ 0xDBFF then some (.lowEscape codepoint, [])
    else if 0xDC00 ≤ codepoint ∧ codepoint ≤ 0xDFFF then none
    else some (.text .accept, encode codepoint)
  | some high =>
    if 0xDC00 ≤ codepoint ∧ codepoint ≤ 0xDFFF then
      some (.text .accept, encode (high * 1024 + codepoint - 0x35FDC00))
    else none

/-- One byte of a string other than its closing quote, with what it adds to the
token buffer. -/
def step : Scan → UInt8 → Option (Scan × Bytes)
  | .text .accept, c =>
    if c = byte '\\' then some (.escape, [])
    else if c ≤ 0x1F then none
    else (Utf8.first c).map fun u => (.text u, [c])
  | .text u, c => (u.step c).map fun u' => (.text u', [c])
  | .escape, c =>
    if c = quote ∨ c = byte '\\' ∨ c = byte '/' then some (.text .accept, [c])
    else if c = byte 'b' then some (.text .accept, [0x08])
    else if c = byte 'f' then some (.text .accept, [0x0C])
    else if c = byte 'n' then some (.text .accept, [0x0A])
    else if c = byte 'r' then some (.text .accept, [0x0D])
    else if c = byte 't' then some (.text .accept, [0x09])
    else if c = byte 'u' then some (.hex none 0 0, [])
    else none
  | .hex high digits codepoint, c =>
    match hexValue c with
    | none => none
    | some d =>
      if digits = 3 then endHex (codepoint * 16 + d) high
      else some (.hex high (digits + 1) (codepoint * 16 + d), [])
  | .lowEscape high, c => if c = byte '\\' then some (.lowMark high, []) else none
  | .lowMark high, c => if c = byte 'u' then some (.hex (some high) 0 0, []) else none

end Scan

/-! ## Numbers -/

/-- The states of `scan_number`, named by what was read last. -/
inductive Numeral where
  | minus
  | zero
  | any1
  | decimal1
  | decimal2
  | exponent
  | sign
  | any2
  deriving DecidableEq, Repr

namespace Numeral

def digit (c : UInt8) : Bool := decide (byte '0' ≤ c) && decide (c ≤ byte '9')

def exponentMark (c : UInt8) : Bool := decide (c = byte 'e') || decide (c = byte 'E')

/-- The byte continues the number. -/
def step : Numeral → UInt8 → Option Numeral
  | .minus, c => if c = byte '0' then some .zero else if digit c then some .any1 else none
  | .zero, c =>
    if c = byte '.' then some .decimal1 else if exponentMark c then some .exponent else none
  | .any1, c =>
    if digit c then some .any1
    else if c = byte '.' then some .decimal1
    else if exponentMark c then some .exponent
    else none
  | .decimal1, c => if digit c then some .decimal2 else none
  | .decimal2, c =>
    if digit c then some .decimal2 else if exponentMark c then some .exponent else none
  | .exponent, c =>
    if c = byte '+' ∨ c = byte '-' then some .sign else if digit c then some .any2 else none
  | .sign, c => if digit c then some .any2 else none
  | .any2, c => if digit c then some .any2 else none

/-- Any other byte ends the number here. -/
def final : Numeral → Bool
  | .zero | .any1 | .decimal2 | .any2 => true
  | .minus | .decimal1 | .exponent | .sign => false

def readDecimal (digits : Bytes) : Nat := digits.foldl (fun n d => n * 10 + (d.toNat - 0x30)) 0

def readInteger : Bytes → Int
  | [] => 0
  | c :: rest => if c = byte '-' then -(readDecimal rest : Int) else readDecimal (c :: rest)

/-- A number without point and exponent is an integer when it fits in 64 bits,
with a sign or without one; every other number is read as a float. -/
def value (x : Externals φ) (pos : Numeral) (read : Bytes) : Option (Json φ) :=
  if (pos = .zero ∨ pos = .any1) ∧ -2 ^ 63 ≤ readInteger read ∧ readInteger read < 2 ^ 64 then
    some (.integer (readInteger read))
  else (x.strtod read).map Json.float

end Numeral

/-! ## Values -/

/-- An open container, with the place the value that is being read goes to. -/
inductive Frame (φ : Type) where
  | element (items : List (Json φ))
  | member (members : List (Bytes × Json φ)) (key : Bytes)

/-- What the parser accepts next, between two tokens. -/
inductive Expect (φ : Type) where
  | value
  | itemOrEnd
  | keyOrEnd
  | key (members : List (Bytes × Json φ))
  | colon (members : List (Bytes × Json φ)) (key : Bytes)
  | nextItem (items : List (Json φ))
  | nextMember (members : List (Bytes × Json φ))

inductive State (φ : Type) where
  | expect (next : Expect φ) (stack : List (Frame φ))
  /-- A string that is a value, or a key of the members given. -/
  | string (scan : Scan) (read : Bytes) (owner : Option (List (Bytes × Json φ)))
      (stack : List (Frame φ))
  | literal (left : Bytes) (value : Json φ) (stack : List (Frame φ))
  | number (pos : Numeral) (read : Bytes) (stack : List (Frame φ))
  | complete (value : Json φ)
  /-- A null byte counts as the end of the text. -/
  | ended (value : Json φ)

/-- A value is complete.  A member whose key is there already replaces it. -/
def deliver (v : Json φ) : List (Frame φ) → State φ
  | [] => .complete v
  | .element items :: stack => .expect (.nextItem (items ++ [v])) stack
  | .member members key :: stack =>
    .expect (.nextMember (OrderedMap.insertEntry key v members)) stack

/-- The first byte of a value. -/
def start (stack : List (Frame φ)) (c : UInt8) : Option (State φ) :=
  if c = byte '[' then some (.expect .itemOrEnd stack)
  else if c = byte '\x7b' then some (.expect .keyOrEnd stack)
  else if c = quote then some (.string (.text .accept) [] none stack)
  else if c = byte 't' then some (.literal (ascii "rue") (.boolean true) stack)
  else if c = byte 'f' then some (.literal (ascii "alse") (.boolean false) stack)
  else if c = byte 'n' then some (.literal (ascii "ull") .null stack)
  else if c = byte '-' then some (.number .minus [c] stack)
  else if c = byte '0' then some (.number .zero [c] stack)
  else if Numeral.digit c then some (.number .any1 [c] stack)
  else none

def space (c : UInt8) : Bool := decide (c ∈ ascii " \t\n\r")

def stepExpect (stack : List (Frame φ)) (c : UInt8) : Expect φ → Option (State φ)
  | .value => start stack c
  | .itemOrEnd =>
    if c = byte ']' then some (deliver (.array []) stack) else start (.element [] :: stack) c
  | .keyOrEnd =>
    if c = byte '\x7d' then some (deliver (.object []) stack)
    else if c = quote then some (.string (.text .accept) [] (some []) stack)
    else none
  | .key members =>
    if c = quote then some (.string (.text .accept) [] (some members) stack) else none
  | .colon members key =>
    if c = byte ':' then some (.expect .value (.member members key :: stack)) else none
  | .nextItem items =>
    if c = byte ',' then some (.expect .value (.element items :: stack))
    else if c = byte ']' then some (deliver (.array items) stack)
    else none
  | .nextMember members =>
    if c = byte ',' then some (.expect (.key members) stack)
    else if c = byte '\x7d' then some (deliver (.object members) stack)
    else none

/-- A byte between two tokens, or after the last one. -/
def stepBetween : State φ → UInt8 → Option (State φ)
  | .expect next stack, c =>
    if space c then some (.expect next stack) else stepExpect stack c next
  | .complete v, c =>
    if space c then some (.complete v) else if c = 0 then some (.ended v) else none
  | .ended v, _ => some (.ended v)
  | _, _ => none

def endString (read : Bytes) (stack : List (Frame φ)) :
    Option (List (Bytes × Json φ)) → State φ
  | none => deliver (.string read) stack
  | some members => .expect (.colon members read) stack

def step (x : Externals φ) : State φ → UInt8 → Option (State φ)
  | .string scan read owner stack, c =>
    if scan = .text .accept ∧ c = quote then some (endString read stack owner)
    else
      match scan.step c with
      | none => none
      | some (scan', out) => some (.string scan' (read ++ out) owner stack)
  | .literal left v stack, c =>
    match left with
    | [] => none
    | d :: rest =>
      if c ≠ d then none
      else if rest = [] then some (deliver v stack)
      else some (.literal rest v stack)
  | .number pos read stack, c =>
    match pos.step c with
    | some pos' => some (.number pos' (read ++ [c]) stack)
    | none =>
      -- The byte is put back and read again after the number.
      if pos.final then
        match pos.value x read with
        | none => none
        | some v => stepBetween (deliver v stack) c
      else none
  | s, c => stepBetween s c

/-- The text is over. -/
def finish (x : Externals φ) : State φ → Option (Json φ)
  | .complete v => some v
  | .ended v => some v
  | .number pos read [] => if pos.final then pos.value x read else none
  | _ => none

def byteOrderMark : Bytes := [0xEF, 0xBB, 0xBF]

def skipBom (s : Bytes) : Bytes := if byteOrderMark <+: s then s.drop 3 else s

/-- `parse`: one value, with nothing but white space after it. -/
def parse (x : Externals φ) (s : Bytes) : Except Bytes (Json φ) :=
  match (Runs.exec (step x) (.expect .value []) (skipBom s)).bind (finish x) with
  | none => .error (x.parseErrorWhat s)
  | some v => .ok v

end Json
end DistributedDb
