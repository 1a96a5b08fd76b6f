import FieldSeal.Ieee.Shortest
import FieldSeal.Json.Basic

/-!
# JSON trees as text

Two layouts: `compact`, without any blank, and `pretty`, with one member or item a line and two
spaces a level. Strings escape the quote, the backslash and the characters below the space, all
else stands as it is. Numbers that are not integers have the fewest digits that read back and always
a point or an exponent, so that they stay apart from integers.
-/

set_option autoImplicit false

namespace FieldSeal.Json

open FieldSeal.Ieee

/-! ## Numbers -/

/-- How decimals are laid out: from which power of ten of the first digit to which they are
written out with a point. -/
structure DecimalLayout where
  leastPlain : Int
  greatestPlain : Int

namespace DecimalLayout

/-- Decimals are written out from `0.00001` up to sixteen digits before the point. -/
def standard : DecimalLayout := ⟨-5, 15⟩

/-- The text of a decimal. Written out it keeps a digit on both sides of the point; with an
exponent the first digit stands before the point and the sign of the exponent is always shown. -/
def render (layout : DecimalLayout) (d : Decimal) : String :=
  let zeros (n : Nat) := List.replicate n '0'
  if layout.leastPlain ≤ d.exponent ∧ d.exponent ≤ layout.greatestPlain then
    if d.exponent < 0 then
      String.ofList ('0' :: '.' :: zeros (-d.exponent - 1).toNat ++ d.digits)
    else
      let before := (d.exponent + 1).toNat
      let fraction := d.digits.drop before
      String.ofList (d.digits.take before ++ zeros (before - d.digits.length) ++
        '.' :: (if fraction.isEmpty then ['0'] else fraction))
  else
    let first := d.digits.take 1
    let rest := d.digits.drop 1
    String.ofList (first ++ (if rest.isEmpty then [] else '.' :: rest)) ++
      (if d.exponent < 0 then "e-" else "e+") ++ toString d.exponent.natAbs

end DecimalLayout

def renderBinary64 (x : Binary64) : String :=
  (if x.negative then "-" else "") ++
    (if x.isZero then "0.0" else DecimalLayout.standard.render x.shortest)

def Number.render : Number → String
  | .integer n _ _ => toString n
  | .double x _ => renderBinary64 x

/-! ## Strings -/

def hexDigit (n : Nat) : Char := Nat.digitChar (n % 16)

/-- How a character is written inside a string literal. -/
def escape (c : Char) : List Char :=
  if c = '"' then ['\\', '"']
  else if c = '\\' then ['\\', '\\']
  else if c = '\n' then ['\\', 'n']
  else if c = '\r' then ['\\', 'r']
  else if c = '\t' then ['\\', 't']
  else if c = '\x08' then ['\\', 'b']
  else if c = '\x0c' then ['\\', 'f']
  else if c < ' ' then ['\\', 'u', '0', '0', hexDigit (c.toNat / 16), hexDigit c.toNat]
  else [c]

def quote (s : String) : String :=
  String.ofList ('"' :: (s.toList.flatMap escape ++ ['"']))

/-! ## Trees -/

mutual

/-- The text of a tree without any blank. -/
def compact : Json → String
  | .null => "null"
  | .bool true => "true"
  | .bool false => "false"
  | .number n => n.render
  | .string s => quote s
  | .array items => "[" ++ ",".intercalate (compactItems items) ++ "]"
  | .object members => "\x7b" ++ ",".intercalate (compactMembers members) ++ "\x7d"

def compactItems : List Json → List String
  | [] => []
  | j :: rest => j.compact :: compactItems rest

def compactMembers : List (String × Json) → List String
  | [] => []
  | (key, j) :: rest => (quote key ++ ":" ++ j.compact) :: compactMembers rest

end

/-- A container over several lines, its parts one level deeper than itself; an empty one stays on
its line. -/
def block (level : Nat) (opening closing : String) (parts : List String) : String :=
  if parts.isEmpty then opening ++ closing
  else
    let line (n : Nat) := "\n" ++ String.ofList (List.replicate (2 * n) ' ')
    opening ++ line (level + 1) ++ ("," ++ line (level + 1)).intercalate parts ++ line level ++ closing

mutual

/-- The text of a tree over several lines, at a level of indentation. -/
def prettyAt (level : Nat) : Json → String
  | .null => "null"
  | .bool true => "true"
  | .bool false => "false"
  | .number n => n.render
  | .string s => quote s
  | .array items => block level "[" "]" (prettyItems level items)
  | .object members => block level "\x7b" "\x7d" (prettyMembers level members)

def prettyItems (level : Nat) : List Json → List String
  | [] => []
  | j :: rest => j.prettyAt (level + 1) :: prettyItems level rest

def prettyMembers (level : Nat) : List (String × Json) → List String
  | [] => []
  | (key, j) :: rest => (quote key ++ ": " ++ j.prettyAt (level + 1)) :: prettyMembers level rest

end

def pretty (j : Json) : String := j.prettyAt 0

end FieldSeal.Json
