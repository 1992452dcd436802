import Mathlib.Data.List.Lex
import Mathlib.Data.Nat.Digits.Defs
import DistributedDb.Types
import DistributedDb.Lib.OrderedMap
import DistributedDb.Lib.Runs

/-
JSON values and the text that `dump` prints.

The vendored library keeps an object as a map ordered by key, so an object here
is the list of its members in that order.  `dump` is called without indentation:
nothing is printed between two tokens.  A string is printed byte by byte with
its control characters escaped, and one that is not UTF-8 makes `dump` throw,
which is `none` here.
-/

namespace DistributedDb
namespace Json

/-- The bytes in the order of their values, as `std::string` compares them. -/
scoped instance linearOrderUInt8 : LinearOrder UInt8 where
  le_refl := UInt8.le_refl
  le_trans _ _ _ := UInt8.le_trans
  le_antisymm _ _ := UInt8.le_antisymm
  le_total := UInt8.le_total
  lt_iff_le_not_ge a b := by
    rw [UInt8.not_le]
    exact ⟨fun h => ⟨UInt8.le_of_lt h, h⟩, fun h => h.2⟩
  toDecidableLE := inferInstance
  toDecidableLT := inferInstance
  toDecidableEq := inferInstance

/-! ## UTF-8

The decoder table of the serializer and the byte ranges of the scanner accept
the same sequences.  A state says which bytes the current character still
lacks. -/

inductive Utf8 where
  | accept
  | tail1
  | tail2
  | tail3
  | afterE0
  | afterED
  | afterF0
  | afterF4
  deriving DecidableEq, Repr

namespace Utf8

/-- The first byte of a character. -/
def first (c : UInt8) : Option Utf8 :=
  if c < 0x80 then some .accept
  else if c < 0xC2 then none
  else if c < 0xE0 then some .tail1
  else if c = 0xE0 then some .afterE0
  else if c = 0xED then some .afterED
  else if c < 0xF0 then some .tail2
  else if c = 0xF0 then some .afterF0
  else if c < 0xF4 then some .tail3
  else if c = 0xF4 then some .afterF4
  else none

def within (low high c : UInt8) (next : Utf8) : Option Utf8 :=
  if low ≤ c ∧ c ≤ high then some next else none

def step : Utf8 → UInt8 → Option Utf8
  | .accept, c => first c
  | .tail1, c => within 0x80 0xBF c .accept
  | .tail2, c => within 0x80 0xBF c .tail1
  | .tail3, c => within 0x80 0xBF c .tail2
  | .afterE0, c => within 0xA0 0xBF c .tail1
  | .afterED, c => within 0x80 0x9F c .tail1
  | .afterF0, c => within 0x90 0xBF c .tail2
  | .afterF4, c => within 0x80 0x8F c .tail2

/-- The sequence is made of whole characters. -/
def Valid (s : Bytes) : Prop := Runs.exec step .accept s = some .accept

instance (s : Bytes) : Decidable (Valid s) :=
  inferInstanceAs (Decidable (Runs.exec step .accept s = some .accept))

theorem high_of_step_eq_some {u u' : Utf8} {c : UInt8} (hu : u ≠ .accept)
    (h : step u c = some u') : 0x80 ≤ c := by
  have hwithin : ∀ low high next, 0x80 ≤ low → within low high c next = some u' → 0x80 ≤ c := by
    intro low high next hlow h
    unfold within at h
    split at h
    · rename_i hc
      exact le_trans hlow hc.1
    · exact absurd h (by simp)
  cases u with
  | accept => exact absurd rfl hu
  | tail1 => exact hwithin _ _ _ (by decide) h
  | tail2 => exact hwithin _ _ _ (by decide) h
  | tail3 => exact hwithin _ _ _ (by decide) h
  | afterE0 => exact hwithin _ _ _ (by decide) h
  | afterED => exact hwithin _ _ _ (by decide) h
  | afterF0 => exact hwithin _ _ _ (by decide) h
  | afterF4 => exact hwithin _ _ _ (by decide) h

end Utf8
end Json

/-! ## Values -/

/-- A JSON value with floating-point numbers in `φ`.  The library keeps signed
and unsigned integers apart; both are read back as the integer they hold. -/
inductive Json (φ : Type) where
  | null
  | boolean (b : Bool)
  | integer (n : Int)
  | float (x : φ)
  | string (s : Bytes)
  | array (items : List (Json φ))
  | object (members : List (Bytes × Json φ))

/-- What the model leaves to the C library and to the diagnostics of the parser. -/
structure Externals (φ : Type) where
  /-- The number a text denotes, with nothing where it is not finite. -/
  strtod : Bytes → Option φ
  printFloat : φ → Bytes
  floatToInt : φ → Int
  floatToInt64 : φ → Int
  /-- The text of the exception that a line which is not JSON raises. -/
  parseErrorWhat : Bytes → Bytes

namespace Json

variable {φ : Type}

def byte (c : Char) : UInt8 := UInt8.ofNat c.toNat

/-- `dump_escaped` on one byte.  The bytes of a character beyond ASCII are copied. -/
def escape (c : UInt8) : Bytes :=
  if c = 0x08 then ascii "\\b"
  else if c = 0x09 then ascii "\\t"
  else if c = 0x0A then ascii "\\n"
  else if c = 0x0C then ascii "\\f"
  else if c = 0x0D then ascii "\\r"
  else if c = 0x22 then ascii "\\\""
  else if c = 0x5C then ascii "\\\\"
  else if c ≤ 0x1F then
    -- `\u%04x`, where the first two digits of such a byte are zero.
    ascii "\\u00" ++ [hexDigit (c / 16), hexDigit (c % 16)]
  else [c]
where
  hexDigit (d : UInt8) : UInt8 := if d < 10 then d + 0x30 else d + 0x57

def quote : UInt8 := 0x22

def dumpString (s : Bytes) : Option Bytes :=
  if Utf8.Valid s then some (quote :: (s.flatMap escape ++ [quote])) else none

def decimal (n : Nat) : Bytes :=
  if n = 0 then ascii "0" else (Nat.digits 10 n).reverse.map fun d => UInt8.ofNat (d + 0x30)

def dumpInteger (n : Int) : Bytes :=
  if n < 0 then ascii "-" ++ decimal n.natAbs else decimal n.natAbs

mutual
def dump (x : Externals φ) : Json φ → Option Bytes
  | .null => some (ascii "null")
  | .boolean b => some (if b then ascii "true" else ascii "false")
  | .integer n => some (dumpInteger n)
  | .float d => some (x.printFloat d)
  | .string s => dumpString s
  | .array [] => some (ascii "[]")
  | .array (v :: rest) => do
    let first ← dump x v
    let others ← dumpItems x rest
    return ascii "[" ++ first ++ others ++ ascii "]"
  | .object [] => some (ascii "\x7b\x7d")
  | .object ((k, v) :: rest) => do
    let key ← dumpString k
    let first ← dump x v
    let others ← dumpMembers x rest
    return ascii "\x7b" ++ key ++ ascii ":" ++ first ++ others ++ ascii "\x7d"

/-- The elements after the first one, each behind its comma. -/
def dumpItems (x : Externals φ) : List (Json φ) → Option Bytes
  | [] => some []
  | v :: rest => do
    let first ← dump x v
    let others ← dumpItems x rest
    return ascii "," ++ first ++ others

/-- The members after the first one. -/
def dumpMembers (x : Externals φ) : List (Bytes × Json φ) → Option Bytes
  | [] => some []
  | (k, v) :: rest => do
    let key ← dumpString k
    let first ← dump x v
    let others ← dumpMembers x rest
    return ascii "," ++ key ++ ascii ":" ++ first ++ others
end

end Json
end DistributedDb
