import FieldSeal.Cipher.Block

/-!
# AES with a key of 256 bits

The block function alone. A state is 16 bytes, column after column. The substitution box is computed
from its definition: the inverse in the field of 256 elements, then an affine map over its bits.
-/

set_option autoImplicit false

namespace FieldSeal.Aes256

/-! ## The field of 256 elements -/

/-- Multiplication by the element 2. -/
def double (x : UInt8) : UInt8 := (x <<< 1) ^^^ (if x &&& 0x80 = 0 then 0 else 0x1b)

/-- The product, by the lowest bits of the second factor. -/
def mulBits : Nat → UInt8 → UInt8 → UInt8
  | 0, _, _ => 0
  | n + 1, x, y => (if y &&& 1 = 0 then 0 else x) ^^^ mulBits n (double x) (y >>> 1)

def mul (x y : UInt8) : UInt8 := mulBits 8 x y

def square (x : UInt8) : UInt8 := mul x x

/-- The inverse, which is the power 254; of zero it is zero. -/
def inverse (x : UInt8) : UInt8 :=
  let x2 := square x
  let x4 := square x2
  let x8 := square x4
  let x16 := square x8
  let x32 := square x16
  let x64 := square x32
  mul x2 (mul x4 (mul x8 (mul x16 (mul x32 (mul x64 (square x64))))))

def rotl (x n : UInt8) : UInt8 := (x <<< n) ||| (x >>> (8 - n))

def substitute (x : UInt8) : UInt8 :=
  let y := inverse x
  y ^^^ rotl y 1 ^^^ rotl y 2 ^^^ rotl y 3 ^^^ rotl y 4 ^^^ 0x63

def box : Vector UInt8 256 := Vector.ofFn fun i => substitute (UInt8.ofNat i)

def lookup (x : UInt8) : UInt8 := box.get x.toFin

/-! ## The key schedule -/

abbrev Word := List UInt8

def xor (a b : List UInt8) : List UInt8 := List.zipWith (· ^^^ ·) a b

/-- The constant of every eighth word, as a power of 2. -/
def roundConstant : Nat → UInt8
  | 0 => 1
  | n + 1 => double (roundConstant n)

/-- Word `i` of the schedule from the word before it and the one eight before it. -/
def nextWord (i : Nat) (before eightBefore : Word) : Word :=
  let changed :=
    if i % 8 = 0 then
      xor ((before.drop 1 ++ before.take 1).map lookup) [roundConstant (i / 8 - 1), 0, 0, 0]
    else if i % 8 = 4 then before.map lookup
    else before
  xor eightBefore changed

/-- Extends the words, which are kept last one first, by so many. -/
def extend : Nat → List Word → List Word
  | 0, backwards => backwards
  | n + 1, backwards =>
    let word := nextWord backwards.length (backwards.headD []) (backwards.getD 7 [])
    extend n (word :: backwards)

def quarters : List UInt8 → List Word
  | a :: b :: c :: d :: rest => [a, b, c, d] :: quarters rest
  | _ => []

def join : List Word → List (List UInt8)
  | a :: b :: c :: d :: rest => (a ++ b ++ c ++ d) :: join rest
  | _ => []

/-- The fifteen round keys of a key of 32 bytes. -/
def roundKeys (key : List UInt8) : List (List UInt8) :=
  join (extend 52 (quarters key).reverse).reverse

/-! ## The rounds -/

/-- Row `r` of the state moves `r` columns to the left. -/
def shiftRows (state : List UInt8) : List UInt8 :=
  (List.range 16).map fun i => state.getD (5 * i % 16) 0

def mixColumns : List UInt8 → List UInt8
  | a :: b :: c :: d :: rest =>
    let all := a ^^^ b ^^^ c ^^^ d
    (a ^^^ all ^^^ double (a ^^^ b)) :: (b ^^^ all ^^^ double (b ^^^ c)) ::
      (c ^^^ all ^^^ double (c ^^^ d)) :: (d ^^^ all ^^^ double (d ^^^ a)) :: mixColumns rest
  | _ => []

/-- The rounds after the first key; the last one mixes no columns. -/
def rounds : List (List UInt8) → List UInt8 → List UInt8
  | [], state => state
  | [last], state => xor (shiftRows (state.map lookup)) last
  | key :: rest, state => rounds rest (xor (mixColumns (shiftRows (state.map lookup))) key)

def encryptWith (keys : List (List UInt8)) (block : Block) : Block :=
  match keys with
  | [] => block
  | first :: rest => .ofBytes (rounds rest (xor block.toBytes first))

def cipher (key : List UInt8) : Block → Block :=
  let keys := roundKeys key
  fun block => encryptWith keys block

/-- The example of the standard, under the key of the bytes from 0 to 31. -/
example : cipher ((List.range 32).map UInt8.ofNat) 0x00112233445566778899aabbccddeeff#128
    = 0x8ea2b7ca516745bfeafc49904b496089#128 := by
  decide +kernel

end FieldSeal.Aes256
