/-!
# Binary floating point by its bits

A magnitude (the bits without the sign) is a natural number, and so is what it stands for, once it
is counted in units of the smallest subnormal: `2^-149` for the 32-bit format, `2^-1074` for the
64-bit one. `Format.units` is that count and `Format.nearest` the way back, which rounds any
quotient to the nearest magnitude and sends a tie to the even neighbour. Everything a number
format needs here (widening, narrowing, products, quotients, integers) is one `nearest` of exact
natural numbers.

The magnitudes of a format are ordered like their values, and stepping to the next one is adding 1,
across the border between two exponents as well; that is why `nearest` needs no case for a
significand that rounds up to the next power of two.
-/

set_option autoImplicit false

namespace FieldSeal.Ieee

/- A power of natural numbers is that of core here, whatever else is in scope. -/
attribute [local instance (high)] instPowNat

/-- An interchange format: the width of the fraction and of the exponent. -/
structure Format where
  fractionBits : Nat
  exponentBits : Nat
deriving DecidableEq, Repr

namespace Format

def single : Format := ⟨23, 8⟩

def double : Format := ⟨52, 11⟩

variable (f : Format)

/-- The magnitude of infinity; the greater ones are not numbers. -/
def infinity : Nat := (2 ^ f.exponentBits - 1) * 2 ^ f.fractionBits

/-- The sign bit, above every magnitude. -/
def sign : Nat := 2 ^ (f.exponentBits + f.fractionBits)

/-- A unit is `2` to minus this power. -/
def unitExponent : Nat := 2 ^ (f.exponentBits - 1) - 2 + f.fractionBits

/-- One unit as the quotient `1 / scale`. -/
def scale : Nat := 2 ^ f.unitExponent

/-- The biased exponent of a magnitude. -/
def exponent (magnitude : Nat) : Nat := magnitude / 2 ^ f.fractionBits

/-- What a finite magnitude stands for, in units. -/
def units (magnitude : Nat) : Nat :=
  let fraction := magnitude % 2 ^ f.fractionBits
  match f.exponent magnitude with
  | 0 => fraction
  | e + 1 => (2 ^ f.fractionBits + fraction) * 2 ^ e

end Format

/-- The natural number nearest to a quotient; a tie goes to the even one. -/
def roundEven (num den : Nat) : Nat :=
  let q := num / den
  let r := num % den
  if 2 * r < den then q else if den < 2 * r then q + 1 else q + q % 2

/-- The magnitude nearest to `num / den` units, infinity from the point where it is nearer than
the greatest finite one would be with an unbounded exponent. -/
def Format.nearest (f : Format) (num den : Nat) : Nat :=
  let shift := (num / den).log2 - f.fractionBits
  min f.infinity (shift * 2 ^ f.fractionBits + roundEven num (den * 2 ^ shift))

/-- A number of the 32-bit format, by its bits. -/
structure Binary32 where
  bits : UInt32
deriving DecidableEq, Repr, Inhabited

/-- A number of the 64-bit format, by its bits. -/
structure Binary64 where
  bits : UInt64
deriving DecidableEq, Repr, Inhabited

namespace Binary32

def negative (x : Binary32) : Bool := x.bits.toNat / Format.single.sign == 1

def magnitude (x : Binary32) : Nat := x.bits.toNat % Format.single.sign

def isFinite (x : Binary32) : Bool := x.magnitude < Format.single.infinity

def isNaN (x : Binary32) : Bool := Format.single.infinity < x.magnitude

def ofParts (negative : Bool) (magnitude : Nat) : Binary32 :=
  ⟨UInt32.ofNat (if negative then Format.single.sign + magnitude else magnitude)⟩

end Binary32

namespace Binary64

def negative (x : Binary64) : Bool := x.bits.toNat / Format.double.sign == 1

def magnitude (x : Binary64) : Nat := x.bits.toNat % Format.double.sign

def isFinite (x : Binary64) : Bool := x.magnitude < Format.double.infinity

def isNaN (x : Binary64) : Bool := Format.double.infinity < x.magnitude

def isZero (x : Binary64) : Bool := x.magnitude == 0

def units (x : Binary64) : Nat := Format.double.units x.magnitude

def ofParts (negative : Bool) (magnitude : Nat) : Binary64 :=
  ⟨UInt64.ofNat (if negative then Format.double.sign + magnitude else magnitude)⟩

def neg (x : Binary64) : Binary64 := ofParts (!x.negative) x.magnitude

def ofInt (n : Int) : Binary64 :=
  ofParts (n < 0) (Format.double.nearest (n.natAbs * Format.double.scale) 1)

/-- The rounded product of two finite numbers. -/
def mul (x y : Binary64) : Binary64 :=
  ofParts (x.negative != y.negative)
    (Format.double.nearest (x.units * y.units) Format.double.scale)

/-- The rounded quotient of two finite numbers, the second not zero. -/
def div (x y : Binary64) : Binary64 :=
  ofParts (x.negative != y.negative)
    (Format.double.nearest (x.units * Format.double.scale) y.units)

/-- The number of the 32-bit format nearest to a finite number. -/
def narrow (x : Binary64) : Binary32 :=
  .ofParts x.negative
    (Format.single.nearest x.units
      (2 ^ (Format.double.unitExponent - Format.single.unitExponent)))

end Binary64

/-- The same number in the 64-bit format, which holds every number of the 32-bit one. What is
infinite or not a number stays so. -/
def Binary32.widen (x : Binary32) : Binary64 :=
  if x.isFinite then
    .ofParts x.negative
      (Format.double.nearest
        (Format.single.units x.magnitude *
          2 ^ (Format.double.unitExponent - Format.single.unitExponent)) 1)
  else if x.isNaN then ⟨0x7ff8000000000000⟩
  else .ofParts x.negative Format.double.infinity

end FieldSeal.Ieee
