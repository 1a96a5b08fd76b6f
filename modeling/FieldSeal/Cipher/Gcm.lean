import FieldSeal.Cipher.Block

/-!
# Galois counter mode

Authenticated encryption from any block function, with nonces of 12 bytes and no additional data. The
text is combined with a key stream, which is the block function applied to a counter behind the
nonce. The tag is a polynomial in the hash key over the encrypted blocks and their length, masked with
the block of the first counter. A text opens only if its tag is the right one.
-/

set_option autoImplicit false

namespace FieldSeal

/-- Twelve bytes that are to be used once under a key. -/
abbrev Nonce := Vector UInt8 12

namespace Gcm

variable (cipher : Block → Block)

/-! ## The key stream -/

/-- The counter block of a number behind the nonce. -/
def counter (nonce : Nonce) (n : Nat) : Block :=
  Block.ofBytes (nonce.toList ++ ByteOrder.big 4 n)

/-- So many blocks of the key stream from a counter on. -/
def keyStream (nonce : Nonce) (n : Nat) : Nat → List UInt8
  | 0 => []
  | blocks + 1 => (cipher (counter nonce n)).toBytes ++ keyStream nonce (n + 1) blocks

/-- Combines data with the key stream; doing it twice gives the data back. -/
def combine (nonce : Nonce) (data : List UInt8) : List UInt8 :=
  List.zipWith (· ^^^ ·) data (keyStream cipher nonce 2 (Block.count data))

/-! ## The tag -/

/-- The lowest bits of the reduction polynomial of the field of `2^128` elements, with the bits in
the order of this mode. -/
def reduction : Block := 0xe1#8 ++ 0#120

/-- The product by the bits of `x` from the highest on, of which so many are left. -/
def mulBits (x : Block) : Nat → Block → Block → Block
  | 0, product, _ => product
  | n + 1, product, y =>
    mulBits x n (if x.getLsbD n then product ^^^ y else product)
      (if y.getLsbD 0 then (y >>> 1) ^^^ reduction else y >>> 1)

def mul (x y : Block) : Block := mulBits x 128 0 y

/-- The value of a polynomial with these coefficients. -/
def hash (key : Block) (blocks : List Block) : Block :=
  blocks.foldl (fun sum b => mul (sum ^^^ b) key) 0

def tag (nonce : Nonce) (data : List UInt8) : List UInt8 :=
  let blocks := Block.cut (Block.count data) data ++ [BitVec.ofNat 128 (data.length * 8)]
  (hash (cipher 0) blocks ^^^ cipher (counter nonce 1)).toBytes

/-- How many bytes can be sealed under one nonce. -/
def maxLength : Nat := 0x1000000000

def tagLength : Nat := 16

/-- Encrypts data and puts its tag behind it. -/
def seal? (nonce : Nonce) (data : List UInt8) : Option (List UInt8) :=
  if data.length ≤ maxLength then
    let encrypted := combine cipher nonce data
    some (encrypted ++ tag cipher nonce encrypted)
  else none

/-- The data that was sealed, if the tag is right. -/
def open? (nonce : Nonce) (sealedData : List UInt8) : Option (List UInt8) :=
  if sealedData.length < tagLength then none
  else
    let encrypted := sealedData.take (sealedData.length - tagLength)
    -- Opening is limited where sealing is, give or take a tag.
    if encrypted.length ≤ maxLength + tagLength ∧
        sealedData.drop (sealedData.length - tagLength) = tag cipher nonce encrypted then
      some (combine cipher nonce encrypted)
    else none

/-- A block of zeros sealed under a key and a nonce of zeros, with the three blocks that AES makes of
the hash key and of the first two counters. -/
example :
    let cipher : Block → Block := fun b =>
      if b = 0 then 0xdc95c078a2408989ad48a21492842087#128
      else if b = 1 then 0x530f8afbc74536b9a963b4f1c4cb738b#128
      else 0xcea7403d4d606b6e074ec5d3baf39d18#128
    (seal? cipher (Vector.replicate 12 0) (List.replicate 16 0)).map ByteOrder.ofBig
      = some 0xcea7403d4d606b6e074ec5d3baf39d18d0d1c8a799996bf0265b98b5d48ab919 := by
  decide +kernel

end Gcm

end FieldSeal
