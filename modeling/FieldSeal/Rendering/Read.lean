import FieldSeal.Rendering.Basic

/-!
# Reading values from JSON

The schema says how each part is read. A number for an integer type must be written as an integer
that fits; for a floating point type any number is rounded to the format. Members of an object that
the record does not declare are ignored. At a union `null` selects the null member, and an object
with a single member selects the first branch of that name.
-/

set_option autoImplicit false

namespace FieldSeal

/-- The error of a JSON value without the shape of its schema. -/
def Schema.misread (s : Schema) (actual : String) : CodecError := .typeMismatch s.typeName actual

def readItems (item : Json → Except CodecError Value) : List Json → Except CodecError (List Value)
  | [] => .ok []
  | j :: rest => do return (← item j) :: (← readItems item rest)

def readEntries (value : Json → Except CodecError Value) :
    List (String × Json) → Except CodecError (List (String × Value))
  | [] => .ok []
  | (key, j) :: rest => do return (key, ← value j) :: (← readEntries value rest)

/-- The bytes of a text, for a schema of bytes. -/
def readLatin1 (s : Schema) (text : String) : Except CodecError (List UInt8) :=
  match ofLatin1? text with
  | some data => .ok data
  | none => .error (s.misread "code point above U+00FF")

mutual

def Schema.fromJson (rendering : Rendering) : Schema → Json → Except CodecError Value
  | .null, j => match j with
    | .null => .ok .null
    | j => .error (Schema.null.misread j.kind)
  | .boolean, j => match j with
    | .bool b => .ok (.boolean b)
    | j => .error (Schema.boolean.misread j.kind)
  | .int, j => match j with
    | .number n => match n.toInt64?.bind int32? with
      | some n => .ok (.int n)
      | none => .error (Schema.int.misread "number")
    | j => .error (Schema.int.misread j.kind)
  | .long, j => match j with
    | .number n => match n.toInt64? with
      | some n => .ok (.long n)
      | none => .error (Schema.long.misread "number")
    | j => .error (Schema.long.misread j.kind)
  | .float, j => match j with
    | .number n => .ok (.float n.toBinary64.narrow)
    | j => .error (Schema.float.misread j.kind)
  | .double, j => match j with
    | .number n => .ok (.double n.toBinary64)
    | j => .error (Schema.double.misread j.kind)
  | .bytes, j => match j with
    | .string text => (readLatin1 .bytes text).map .bytes
    | j => .error (Schema.bytes.misread j.kind)
  | .string tag, j => match j with
    | .string text => match tag with
      | none => .ok (.string text)
      | some tag => .ok (rendering.ofText tag text)
    | j => .error ((Schema.string tag).misread j.kind)
  | .record type, j => match j with
    | .object members => (type.fromJson rendering members).map .record
    | j => .error ((Schema.record type).misread j.kind)
  | .array items, j => match j with
    | .array js => (readItems (items.fromJson rendering) js).map .array
    | j => .error ((Schema.array items).misread j.kind)
  | .map values, j => match j with
    | .object members => (readEntries (values.fromJson rendering) members).map .map
    | j => .error ((Schema.map values).misread j.kind)
  | .union members, j => match j with
    | .null =>
      if members.any (·.isNull) then .ok .null else .error (.invalidUnionBranch "null")
    -- Only an object with one member names a branch.
    | .object [(branch, j)] => memberFromJson rendering members branch j
    | j => .error (.invalidUnionBranch j.kind)
  | .enum type, j => match j with
    | .string symbol =>
      if type.symbols.contains symbol then .ok (.enum symbol) else .error (.unknownSymbol symbol)
    | j => .error ((Schema.enum type).misread j.kind)
  | .fixed type, j => match j with
    | .string text => do
      let data ← readLatin1 (.fixed type) text
      if data.length = type.size then return .fixed data
      else throw ((Schema.fixed type).misread (toString data.length ++ " bytes"))
    | j => .error ((Schema.fixed type).misread j.kind)

def RecordType.fromJson (rendering : Rendering) :
    RecordType → Table Json → Except CodecError Record
  | ⟨name, fields⟩, members => do
    return ⟨⟨name, fields⟩, ← fieldsFromJson rendering fields members⟩

def fieldsFromJson (rendering : Rendering) :
    List Field → Table Json → Except CodecError (List Value)
  | [], _ => .ok []
  | ⟨name, _, schema⟩ :: rest, members =>
    match Table.get? name members with
    | some j => do
      return (← schema.fromJson rendering j) :: (← fieldsFromJson rendering rest members)
    | none => .error (.missingField name)

/-- Reads a value of the first member with the name of the branch. -/
def memberFromJson (rendering : Rendering) :
    List Schema → String → Json → Except CodecError Value
  | [], branch, _ => .error (.invalidUnionBranch branch)
  | s :: rest, branch, j =>
    if s.typeName = branch then s.fromJson rendering j
    else memberFromJson rendering rest branch j

end

end FieldSeal
