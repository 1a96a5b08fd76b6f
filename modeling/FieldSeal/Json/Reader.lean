import FieldSeal.Json.Basic
import FieldSeal.Json.Written

/-!
# What a JSON text stands for

From the text as written to its tree: escapes become characters, numerals become numbers, and of
several members with one key the last one counts. Three things are refused here and not by the
grammar: a surrogate without its partner, a number beyond the 64-bit format, and more than 127
containers inside each other.

Numerals are rounded in two steps. The digits go into a significand of at most 64 bits, which takes
no further digit once one would not fit; the significand and then its product or quotient with a
power of ten are each rounded to the nearest number of the 64-bit format. The result can differ
from the nearest number in its last bit.
-/

set_option autoImplicit false

namespace FieldSeal.Json

open FieldSeal.Ieee

/- A power of natural numbers is that of core here, whatever else is in scope. -/
attribute [local instance (high)] instPowNat

/-! ## Numbers -/

namespace Numeral

/-- Takes digits into the significand while they fit 64 bits; gives the digits left over. -/
def accumulate (significand : Nat) : List Nat → Nat × List Nat
  | [] => (significand, [])
  | d :: rest =>
    if significand * 10 + d < 0x10000000000000000 then accumulate (significand * 10 + d) rest
    else (significand, d :: rest)

def tenTo (power : Nat) : Binary64 := .ofInt (10 ^ power)

/-- Divides by a power of ten, in steps of at most `10^308`, until nothing is left. -/
def divideByTenTo (x : Binary64) (power : Nat) : Binary64 :=
  if power ≤ 308 then x.div (tenTo power)
  else if x.isZero then x
  else divideByTenTo (x.div (tenTo 308)) (power - 308)
termination_by power

/-- Multiplies by a power of ten; what grows beyond the format is refused. -/
def multiplyByTenTo? (x : Binary64) (power : Nat) : Option Binary64 :=
  if power ≤ 308 then
    let y := x.mul (tenTo power)
    if y.isFinite then some y else none
  else if x.isZero then some x
  else none

def scaled? (significand : Nat) (power : Int) : Option Binary64 :=
  let x := Binary64.ofInt significand
  if 0 ≤ power then multiplyByTenTo? x power.toNat
  else some (divideByTenTo x (-power).toNat)

def natOfDigits (digits : List Nat) : Nat := digits.foldl (fun n d => n * 10 + d) 0

/-- The value without its sign of a numeral with a point, an exponent or too many digits. An
exponent that does not fit 32 bits decides alone, unless the significand is zero. -/
def magnitude? (n : Numeral) : Option Binary64 :=
  let (significand, beyond) := accumulate 0 n.whole
  let fraction := n.fraction.getD []
  let (significand, dropped) := accumulate significand fraction
  -- A whole digit that was left over is a factor of ten, a fraction digit that was taken a divisor.
  let power : Int := beyond.length - (fraction.length - dropped.length : Nat)
  match n.exponent with
  | none => scaled? significand power
  | some (negative, digits) =>
    let e := natOfDigits digits
    if e < 0x80000000 then scaled? significand (if negative then power - e else power + e)
    else if significand = 0 ∨ negative then some (.ofInt 0)
    else none

/-- The number that a numeral stands for. `-0` is not an integer. -/
def toNumber? (n : Numeral) : Option Number :=
  let integer? : Option Number :=
    match n.fraction, n.exponent with
    | none, none =>
      let whole := natOfDigits n.whole
      if !n.negative then Number.ofInt? whole
      else if whole = 0 then none
      else Number.ofInt? (-whole)
    | _, _ => none
  integer? <|> do
    let x ← n.magnitude?
    Number.ofBinary64? (if n.negative then x.neg else x)

end Numeral

/-! ## Texts -/

/-- The characters of a string literal; a high surrogate joins the low one right after it. -/
def textOfPieces? : List Piece → Option (List Char)
  | [] => some []
  | .char c :: rest => (textOfPieces? rest).map (c :: ·)
  | .unit u :: rest =>
    if u < 0xD800 ∨ 0xE000 ≤ u then (textOfPieces? rest).map (Char.ofNat u :: ·)
    else if u < 0xDC00 then
      match rest with
      | .unit v :: rest =>
        if 0xDC00 ≤ v ∧ v < 0xE000 then
          (textOfPieces? rest).map (Char.ofNat (0x10000 + (u - 0xD800) * 0x400 + (v - 0xDC00)) :: ·)
        else none
      | _ => none
    else none

/-- The text of a string literal. -/
def text? (pieces : List Piece) : Option String := (textOfPieces? pieces).map String.ofList

/-! ## Trees -/

/-- How many containers may stand inside each other. -/
def maxDepth : Nat := 127

mutual

/-- The tree of a written text, with a bound on the containers inside each other. -/
def Written.toJson? (depth : Nat) : Written → Option Json
  | .null => some .null
  | .bool b => some (.bool b)
  | .numeral n => n.toNumber?.map .number
  | .text pieces => (text? pieces).map .string
  | .array items =>
    match depth with
    | 0 => none
    | depth + 1 => (Written.itemsToJson? depth items).map .array
  | .object members =>
    match depth with
    | 0 => none
    | depth + 1 => (Written.membersToJson? depth members).map fun es => .object (Table.ofList es)

def Written.itemsToJson? (depth : Nat) : List Written → Option (List Json)
  | [] => some []
  | w :: rest => do return (← w.toJson? depth) :: (← Written.itemsToJson? depth rest)

def Written.membersToJson? (depth : Nat) : List (List Piece × Written) → Option (List (String × Json))
  | [] => some []
  | (key, w) :: rest => do
    return (← text? key, ← w.toJson? depth) :: (← Written.membersToJson? depth rest)

end

def ofText? (text : String) : Option Json := do
  (← Written.ofText? text).toJson? maxDepth

end FieldSeal.Json
