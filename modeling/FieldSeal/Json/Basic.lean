import FieldSeal.Ieee.Basic
import FieldSeal.Table

/-!
# JSON trees

The tree that a JSON text denotes. A number is an integer when it is written as one and fits 64
bits, else a finite number of the 64-bit format; the two stay apart, since `1` and `1.0` are
different documents. Both bounds are part of the type, so a tree never holds what cannot be
printed. The members of an object form a `Table`; `Json.Ordered` says so for a whole tree.
-/

set_option autoImplicit false

namespace FieldSeal.Json

open FieldSeal.Ieee

/-- A JSON number: an integer from `-2^63` to `2^64 - 1`, or a finite number of the 64-bit
format. -/
inductive Number where
  | integer (value : Int) (lower : -0x8000000000000000 ≤ value)
    (upper : value < 0x10000000000000000)
  | double (value : Binary64) (finite : value.isFinite = true)
deriving DecidableEq

namespace Number

/-- The number with an integer value, when it is in range. -/
def ofInt? (n : Int) : Option Number :=
  if h : -0x8000000000000000 ≤ n ∧ n < 0x10000000000000000 then some (.integer n h.1 h.2)
  else none

/-- The number with a given value, when that is finite. -/
def ofBinary64? (x : Binary64) : Option Number :=
  if h : x.isFinite = true then some (.double x h) else none

/-- The integer, when the number is written as one that fits 64 bits with a sign. -/
def toInt64? : Number → Option Int64
  | .integer n _ _ => if n < 0x8000000000000000 then some (Int64.ofInt n) else none
  | .double _ _ => none

/-- The integer, when the number is written as one and is not negative. -/
def toNat? : Number → Option Nat
  | .integer n _ _ => if 0 ≤ n then some n.toNat else none
  | .double _ _ => none

def toBinary64 : Number → Binary64
  | .integer n _ _ => .ofInt n
  | .double x _ => x

def ofInt32 (n : Int32) : Number :=
  .integer n.toInt (by have := n.le_toInt; omega) (by have := n.toInt_lt; omega)

def ofInt64 (n : Int64) : Number :=
  .integer n.toInt (by have := n.le_toInt; omega) (by have := n.toInt_lt; omega)

end Number

end FieldSeal.Json

namespace FieldSeal

inductive Json where
  | null
  | bool (value : Bool)
  | number (value : Json.Number)
  | string (text : String)
  | array (items : List Json)
  | object (members : List (String × Json))
deriving Inhabited

namespace Json

mutual

/-- The members of every object in the tree are in ascending key order. -/
def Ordered : Json → Prop
  | .array items => OrderedItems items
  | .object members => Table.Ascending members ∧ OrderedMembers members
  | _ => True

def OrderedItems : List Json → Prop
  | [] => True
  | j :: rest => j.Ordered ∧ OrderedItems rest

def OrderedMembers : List (String × Json) → Prop
  | [] => True
  | (_, j) :: rest => j.Ordered ∧ OrderedMembers rest

end

mutual

/-- How many texts there are in the tree. The keys of objects are not among them. -/
def texts : Json → Nat
  | .string _ => 1
  | .array items => textsOfItems items
  | .object members => textsOfMembers members
  | _ => 0

def textsOfItems : List Json → Nat
  | [] => 0
  | j :: rest => j.texts + textsOfItems rest

def textsOfMembers : List (String × Json) → Nat
  | [] => 0
  | (_, j) :: rest => j.texts + textsOfMembers rest

end

def asText? : Json → Option String
  | .string s => some s
  | _ => none

def asTexts? : Json → Option (List String)
  | .array items => items.mapM asText?
  | _ => none

/-- What kind of tree this is, in the words of error messages. -/
def kind : Json → String
  | .null => "null"
  | .bool _ => "boolean"
  | .number _ => "number"
  | .string _ => "string"
  | .array _ => "array"
  | .object _ => "object"

end Json

end FieldSeal
