import FieldSeal.Wire.Source

/-!
# Zig-zag varints

An integer of 64 bits becomes a natural number below `2^64`, small for integers near zero
(`0, -1, 1, -2, …` become `0, 1, 2, 3, …`), and that number is written in groups of seven bits, the
lowest first. All bytes but the last have their high bit set. Ten groups are enough, and the tenth
can hold only the top bit, so a tenth byte is 0 or 1.

Reading does not insist on the shortest form.
-/

set_option autoImplicit false

namespace FieldSeal.Wire.Varint

/-- The natural number of an integer. -/
def zigzag (n : Int64) : Nat :=
  if 0 ≤ n.toInt then (2 * n.toInt).toNat else (-2 * n.toInt - 1).toNat

/-- The integer of a natural number below `2^64`. -/
def unzigzag (z : Nat) : Int64 :=
  Int64.ofInt (if z % 2 = 0 then (z / 2 : Nat) else -(z / 2 : Nat) - 1)

/-- How many groups may follow the first one. -/
def moreGroups : Nat := 9

/-- The groups of a number, with room for a count of groups after the first. -/
def groups : Nat → Nat → List UInt8
  | 0, z => [UInt8.ofNat z]
  | room + 1, z =>
    if z < 128 then [UInt8.ofNat z] else UInt8.ofNat (z % 128 + 128) :: groups room (z / 128)

def encode (n : Int64) : List UInt8 := groups moreGroups (zigzag n)

/-- Reads the groups of a number, of which so many may follow the first. -/
def readGroups : Nat → Reader Nat
  | 0 => do
    let b ← Reader.next
    if b.toNat ≤ 1 then return b.toNat else throw .invalidVarint
  | room + 1 => do
    let b ← Reader.next
    if b.toNat < 128 then return b.toNat
    else return b.toNat - 128 + 128 * (← readGroups room)

def read : Reader Int64 := do return unzigzag (← readGroups moreGroups)

end FieldSeal.Wire.Varint
