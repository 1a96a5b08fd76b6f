import FieldSeal.Ieee.Basic
import FieldSeal.Schema.Basic
import FieldSeal.Table

/-!
# Values

One constructor per kind of schema. A value at a place with a union type is the member's value
itself: which member it belongs to is seen from its shape. A record carries its own type, which need
not be the type of the place where it sits, and holds its fields by position.

`Value.Regular` is what every value built by the operations of this library has: one value per
declared field in each record, and the entries of each map in ascending key order.
-/

set_option autoImplicit false

namespace FieldSeal

open FieldSeal.Ieee

/-- The 32-bit integer of the same value, if there is one. -/
def int32? (n : Int64) : Option Int32 := if n.toInt32.toInt64 = n then some n.toInt32 else none

/-- The text of a place with the typed tag, and which side of the cipher it is on. -/
inductive TaggedText where
  | plain (text : String)
  | encrypted (text : String)
deriving DecidableEq, Repr

namespace TaggedText

@[simp] def text : TaggedText → String
  | .plain text => text
  | .encrypted text => text

def isEncrypted : TaggedText → Bool
  | .plain _ => false
  | .encrypted _ => true

end TaggedText

mutual

inductive Value where
  | null
  | boolean (value : Bool)
  | int (value : Int32)
  | long (value : Int64)
  | float (value : Binary32)
  | double (value : Binary64)
  | bytes (data : List UInt8)
  | string (text : String)
  | tagged (text : TaggedText)
  | record (record : Record)
  | array (items : List Value)
  | map (entries : List (String × Value))
  | enum (symbol : String)
  | fixed (data : List UInt8)

structure Record where
  type : RecordType
  fields : List Value

end

instance : Inhabited Value := ⟨.null⟩

namespace Value

/-- What kind of value this is, in the words of error messages. -/
@[simp] def kind : Value → String
  | .null => "null"
  | .boolean _ => "boolean"
  | .int _ => "int"
  | .long _ => "long"
  | .float _ => "float"
  | .double _ => "double"
  | .bytes _ => "bytes"
  | .string _ => "string"
  | .tagged _ => "tagged string"
  | .record _ => "record"
  | .array _ => "array"
  | .map _ => "map"
  | .enum _ => "enum"
  | .fixed _ => "fixed"

def isNull : Value → Bool
  | .null => true
  | _ => false

def text? : Value → Option String
  | .string text => some text
  | .tagged t => some t.text
  | _ => none

def record? : Value → Option Record
  | .record r => some r
  | _ => none

mutual

/-- Each record has one value per declared field, and each map is in ascending key order. -/
def Regular : Value → Prop
  | .record ⟨type, fields⟩ => fields.length = type.fields.length ∧ RegularItems fields
  | .array items => RegularItems items
  | .map entries => Table.Ascending entries ∧ RegularEntries entries
  | _ => True

def RegularItems : List Value → Prop
  | [] => True
  | v :: rest => v.Regular ∧ RegularItems rest

def RegularEntries : List (String × Value) → Prop
  | [] => True
  | (_, v) :: rest => v.Regular ∧ RegularEntries rest

end

end Value

namespace Record

/-- A record with every field null. -/
def ofType (type : RecordType) : Record := ⟨type, type.fields.map fun _ => .null⟩

/-- A record from the values of its fields, which must be as many as its type declares. -/
def ofFields? (type : RecordType) (fields : List Value) : Option Record :=
  if fields.length = type.fields.length then some ⟨type, fields⟩ else none

def get? (r : Record) (position : Nat) : Option Value := r.fields[position]?

/-- Puts a value at a position; gives the record and the value that was there. Beyond the last
field there is nothing to put it in. -/
def put? (r : Record) (position : Nat) (v : Value) : Option (Value × Record) :=
  (r.get? position).map fun old => (old, { r with fields := r.fields.set position v })

def position? (r : Record) (name : String) : Option Nat := (r.type.field? name).map (·.position)

def getByName? (r : Record) (name : String) : Option Value := (r.position? name).bind r.get?

/-- Puts a value in a field; gives the record and the value that was there. -/
def putByName? (r : Record) (name : String) (v : Value) : Option (Value × Record) :=
  (r.position? name).bind fun position => r.put? position v

end Record

end FieldSeal
