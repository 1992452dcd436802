import DistributedDb.Types
import Mathlib.Order.Defs.LinearOrder

/-
MurmurHash3 and the positions of the virtual nodes.

The block loop reads the key four bytes at a time in little-endian order, and
the fall-through `switch` on the length folds in the bytes that are left over.
-/

namespace DistributedDb

/-- Ring positions are compared as unsigned 32-bit numbers. -/
instance linearOrderUInt32 : LinearOrder UInt32 where
  le_refl := UInt32.le_refl
  le_trans _ _ _ := UInt32.le_trans
  le_antisymm _ _ := UInt32.le_antisymm
  le_total := UInt32.le_total
  lt_iff_le_not_ge a b := by
    rw [UInt32.not_le]
    exact ⟨fun h => ⟨UInt32.le_of_lt h, h⟩, fun h => h.2⟩
  toDecidableLE := inferInstance
  toDecidableLT := inferInstance
  toDecidableEq := inferInstance

namespace Murmur3

def c1 : UInt32 := 0xcc9e2d51

def c2 : UInt32 := 0x1b873593

def seed : UInt32 := 42

/-- `k *= c1; k = (k << 15) | (k >> 17); k *= c2;` -/
def scramble (k : UInt32) : UInt32 :=
  let k := k * c1
  let k := (k <<< 15) ||| (k >>> 17)
  k * c2

/-- `h ^= k; h = (h << 13) | (h >> 19); h = h * 5 + 0xe6546b64;` -/
def mix (h k : UInt32) : UInt32 :=
  let h := h ^^^ k
  let h := (h <<< 13) ||| (h >>> 19)
  h * 5 + 0xe6546b64

/-- Four bytes of the key read as one little-endian word. -/
def block (a b c d : UInt8) : UInt32 :=
  a.toUInt32 ||| (b.toUInt32 <<< 8) ||| (c.toUInt32 <<< 16) ||| (d.toUInt32 <<< 24)

/-- The block loop, with the tail it leaves. -/
def blocks : UInt32 → Bytes → UInt32 × Bytes
  | h, a :: b :: c :: d :: rest => blocks (mix h (scramble (block a b c d))) rest
  | h, tail => (h, tail)

/-- The `switch (len & 3)`: each case falls through to the ones below it, and a
tail of no bytes leaves `h` alone. -/
def finishTail (h : UInt32) : Bytes → UInt32
  | [a, b, c] => h ^^^ scramble ((c.toUInt32 <<< 16) ^^^ (b.toUInt32 <<< 8) ^^^ a.toUInt32)
  | [a, b] => h ^^^ scramble ((b.toUInt32 <<< 8) ^^^ a.toUInt32)
  | [a] => h ^^^ scramble a.toUInt32
  | _ => h

def avalanche (h : UInt32) : UInt32 :=
  let h := h ^^^ (h >>> 16)
  let h := h * 0x85ebca6b
  let h := h ^^^ (h >>> 13)
  let h := h * 0xc2b2ae35
  h ^^^ (h >>> 16)

end Murmur3

open Murmur3 in
def murmur3 (data : Bytes) : UInt32 :=
  let p := blocks seed data
  avalanche (finishTail p.1 p.2 ^^^ UInt32.ofNat data.length)

/-- The label of a virtual node: `"node" + id + "-vn" + idx`. -/
def vnodeLabel (nodeId : Int) (vnodeIdx : Nat) : Bytes :=
  ascii "node" ++ ascii (toString nodeId) ++ ascii "-vn" ++ ascii (toString vnodeIdx)

def vnodeHash (nodeId : Int) (vnodeIdx : Nat) : UInt32 := murmur3 (vnodeLabel nodeId vnodeIdx)

end DistributedDb
