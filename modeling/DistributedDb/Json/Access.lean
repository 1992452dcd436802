import DistributedDb.Json.Value

/-
Reading a parsed value.

`get` converts a value to a C++ type and throws a type error when the kinds do
not agree; `value` reads a member of an object or a default.  An error is the
text of the exception.
-/

namespace DistributedDb
namespace Json

variable {φ α : Type}

def typeName : Json φ → Bytes
  | .null => ascii "null"
  | .object _ => ascii "object"
  | .array _ => ascii "array"
  | .string _ => ascii "string"
  | .boolean _ => ascii "boolean"
  | .integer _ | .float _ => ascii "number"

def typeError (id : String) (text : Bytes) : Bytes :=
  ascii "[json.exception.type_error." ++ ascii id ++ ascii "] " ++ text

/-- The conversion to a type the value does not have. -/
def wrongType (wanted : String) (v : Json φ) : Bytes :=
  typeError "302" (ascii "type must be " ++ ascii wanted ++ ascii ", but is " ++ v.typeName)

def getString : Json φ → Except Bytes Bytes
  | .string s => .ok s
  | v => .error (wrongType "string" v)

def getBool : Json φ → Except Bytes Bool
  | .boolean b => .ok b
  | v => .error (wrongType "boolean" v)

/-- `get<int>`: a wider integer is cut to its low 32 bits, and a boolean counts
as a number. -/
def getInt (x : Externals φ) : Json φ → Except Bytes Int
  | .integer n => .ok (n.bmod (2 ^ 32))
  | .float d => .ok (x.floatToInt d)
  | .boolean b => .ok (if b then 1 else 0)
  | v => .error (wrongType "number" v)

/-- `get<int64_t>`, the integer type of the library itself, takes no boolean. -/
def getInt64 (x : Externals φ) : Json φ → Except Bytes Int
  | .integer n => .ok (n.bmod (2 ^ 64))
  | .float d => .ok (x.floatToInt64 d)
  | v => .error (wrongType "number" v)

def lookup (key : Bytes) (members : List (Bytes × Json φ)) : Option (Json φ) :=
  (members.find? fun e => decide (e.1 = key)).map Prod.snd

/-- The member under `key`, or the default when there is none. -/
def value (j : Json φ) (key : Bytes) (default : α) (get : Json φ → Except Bytes α) :
    Except Bytes α :=
  match j with
  | .object members =>
    match lookup key members with
    | some v => get v
    | none => .ok default
  | j => .error (typeError "306" (ascii "cannot use value() with " ++ j.typeName))

/-- What a range-based loop over the value visits. -/
def elements : Json φ → List (Json φ)
  | .null => []
  | .array items => items
  | .object members => members.map Prod.snd
  | v => [v]

/-- The subscript operator with a number: a short array is filled up with nulls,
and a null turns into an array. -/
def item (v : Json φ) (i : Nat) : Except Bytes (Json φ) :=
  match v with
  | .null => .ok .null
  | .array items => .ok (items.getD i .null)
  | v => .error
      (typeError "305" (ascii "cannot use operator[] with a numeric argument with " ++ v.typeName))

theorem lookup_entries (key : Bytes) (m : OrderedMap Bytes (Json φ)) :
    lookup key m.entries = m.find? key := by
  unfold lookup OrderedMap.find?
  congr!

theorem value_eq_get {members : List (Bytes × Json φ)} {key : Bytes} {v : Json φ}
    (h : lookup key members = some v) (default : α) (get : Json φ → Except Bytes α) :
    (object members).value key default get = get v := by
  rw [value, h]

theorem getInt_integer (x : Externals φ) {n : Int} (hlow : -2 ^ 31 ≤ n) (hhigh : n < 2 ^ 31) :
    getInt x (.integer n) = .ok n := by
  rw [getInt, Int.bmod_eq_of_le (by omega) (by omega)]

theorem getInt64_integer (x : Externals φ) {n : Int} (hlow : -2 ^ 63 ≤ n) (hhigh : n < 2 ^ 63) :
    getInt64 x (.integer n) = .ok n := by
  rw [getInt64, Int.bmod_eq_of_le (by omega) (by omega)]

end Json
end DistributedDb
