import FieldSeal.Ieee.Basic

/-!
# The shortest decimal that reads back

A finite number of the 64-bit format is what every real number of an interval around it rounds to;
the ends belong to the interval when the significand is even. `Binary64.shortest` gives the fewest
digits of a decimal in that interval, and among those the decimal nearest to the number, an even
last digit on a tie.

For each count of digits only two decimals can be the answer: the number's neighbours on the grid
of that many digits. The search tries the grids from coarse to fine.
-/

set_option autoImplicit false

namespace FieldSeal.Ieee

/- A power of natural numbers is that of core here, whatever else is in scope. -/
attribute [local instance (high)] instPowNat

/-- A decimal `0.d₁d₂… · 10^(exponent + 1)`: its digits, the first not zero, and the power of ten
that the first digit counts. -/
structure Decimal where
  digits : List Char
  exponent : Int
deriving DecidableEq, Repr

namespace Decimal

/-- The decimal `n · 10^power`, without zeros at its end. -/
def ofScaled (n : Nat) (power : Int) : Decimal :=
  let digits := Nat.toDigits 10 n
  ⟨(digits.reverse.dropWhile (· == '0')).reverse, power + digits.length - 1⟩

end Decimal

/-- The reals that round to a magnitude, in quarters of a unit. -/
structure Interval where
  low : Nat
  high : Nat
  closed : Bool

namespace Interval

/-- The interval of a finite magnitude. Below a power of two the neighbours lie half as far apart
as above it. -/
def ofMagnitude (f : Format) (magnitude : Nat) : Interval :=
  let e := f.exponent magnitude
  let gap := 2 ^ (e - 1)
  let value := 4 * f.units magnitude
  let below := if magnitude % 2 ^ f.fractionBits = 0 ∧ 1 < e then gap else 2 * gap
  ⟨value - below, value + 2 * gap, magnitude % 2 == 0⟩

/-- Whether the interval holds `num / den` quarters of a unit. -/
def holds (i : Interval) (num den : Nat) : Bool :=
  if i.closed then i.low * den ≤ num && num ≤ i.high * den
  else i.low * den < num && num < i.high * den

end Interval

namespace Binary64

/-- The power of ten of the leading digit of a finite number that is not zero. -/
def decimalExponent (x : Binary64) : Int :=
  -- The smallest number is above `10^-324`, so the quotient keeps its leading digit.
  (Nat.toDigits 10 (x.units * 10 ^ (400 : Nat) / Format.double.scale)).length - 401

/-- The better of the two neighbours on the grid of the multiples of `10^power` that lie in the
interval of the number, if one does. -/
def onGrid? (x : Binary64) (power : Int) : Option Decimal :=
  let interval := Interval.ofMagnitude .double x.magnitude
  let step := 4 * 10 ^ power.toNat * Format.double.scale
  let den := 10 ^ (-power).toNat
  let value := 4 * x.units * den
  let d := value / step
  let lower := interval.holds (d * step) den
  let upper := interval.holds ((d + 1) * step) den
  let upperNearer := (2 * d + 1) * step < 2 * value || ((2 * d + 1) * step == 2 * value && d % 2 == 1)
  if lower && !(upper && upperNearer) then some (.ofScaled d power)
  else if upper then some (.ofScaled (d + 1) power)
  else none

/-- The shortest decimal that rounds to a finite number other than zero. Seventeen digits always
suffice. -/
def shortest (x : Binary64) : Decimal :=
  let e := x.decimalExponent
  ((List.range 17).findSome? fun (n : Nat) => x.onGrid? (e - n)).getD ⟨['0'], 0⟩

end Binary64

end FieldSeal.Ieee
