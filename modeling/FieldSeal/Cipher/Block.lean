import FieldSeal.ByteOrder

/-!
# Blocks of 16 bytes

A block is a word of 128 bits, written as 16 bytes with the highest first. Bytes that do not fill a
block are filled up with zeros behind them.
-/

set_option autoImplicit false

namespace FieldSeal

abbrev Block := BitVec 128

namespace Block

def toBytes (b : Block) : List UInt8 := ByteOrder.big 16 (BitVec.toNat b)

/-- The block that starts with the given bytes; bytes after the sixteenth do not count. -/
def ofBytes (bytes : List UInt8) : Block :=
  BitVec.ofNat 128 (ByteOrder.ofBig ((bytes ++ List.replicate (16 - bytes.length) 0).take 16))

/-- Bytes cut into blocks, the last one filled up. -/
def cut : Nat → List UInt8 → List Block
  | 0, _ => []
  | n + 1, bytes => ofBytes bytes :: cut n (bytes.drop 16)

def count (bytes : List UInt8) : Nat := (bytes.length + 15) / 16

@[simp] theorem length_toBytes (b : Block) : b.toBytes.length = 16 := ByteOrder.length_big 16 _

end Block

end FieldSeal
