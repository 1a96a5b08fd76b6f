import FieldSeal.Rendering.Basic
import FieldSeal.Wire.Encode

/-!
# Writing values as JSON

Numbers become numbers, strings and enum symbols strings, bytes and fixed bytes strings of
characters below 256, records and maps objects. At a union the null member is `null` and every other
branch an object with one member, named for the type of the branch. There is no JSON for a number
that is infinite or not a number.
-/

set_option autoImplicit false

namespace FieldSeal

open FieldSeal.Ieee

/-- The name of a number that JSON cannot hold. -/
def nonFiniteName (x : Binary64) : String :=
  if x.isNaN then "NaN" else if x.negative then "-inf" else "inf"

def renderNumber (x : Binary64) : Except Failure Json :=
  match Json.Number.ofBinary64? x with
  | some n => .ok (.number n)
  | none => .error (.codec (.nonFinite (nonFiniteName x)))

def renderItems (item : Value → Except Failure Json) : List Value → Except Failure (List Json)
  | [] => .ok []
  | v :: rest => do return (← item v) :: (← renderItems item rest)

def renderEntries (value : Value → Except Failure Json) :
    List (String × Value) → Except Failure (List (String × Json))
  | [] => .ok []
  | (key, v) :: rest => do return (key, ← value v) :: (← renderEntries value rest)

mutual

def Schema.toJson (rendering : Rendering) : Schema → Value → Except Failure Json
  | .null, v => match v with
    | .null => .ok .null
    | v => .error (Schema.null.mismatch v)
  | .boolean, v => match v with
    | .boolean b => .ok (.bool b)
    | v => .error (Schema.boolean.mismatch v)
  | .int, v => match v with
    | .int n => .ok (.number (.ofInt32 n))
    | v => .error (Schema.int.mismatch v)
  | .long, v => match v with
    | .long n => .ok (.number (.ofInt64 n))
    | v => .error (Schema.long.mismatch v)
  | .float, v => match v with
    | .float x => renderNumber x.widen
    | v => .error (Schema.float.mismatch v)
  | .double, v => match v with
    | .double x => renderNumber x
    | v => .error (Schema.double.mismatch v)
  | .bytes, v => match v with
    | .bytes data => .ok (.string (latin1 data))
    | v => .error (Schema.bytes.mismatch v)
  | .string none, v => match v with
    | .string text => .ok (.string text)
    | v => .error ((Schema.string none).mismatch v)
  | .string (some tag), v => (rendering.toText tag v).map .string
  | .record type, v => match v with
    | .record r => (type.toJson rendering r).map fun members => .object (Table.ofList members)
    | v => .error ((Schema.record type).mismatch v)
  | .array items, v => match v with
    | .array vs => (renderItems (items.toJson rendering) vs).map .array
    | v => .error ((Schema.array items).mismatch v)
  | .map values, v => match v with
    | .map entries => (renderEntries (values.toJson rendering) entries).map .object
    | v => .error ((Schema.map values).mismatch v)
  | .union members, v => memberToJson rendering members v
  | .enum type, v => match v with
    | .enum symbol =>
      if type.symbols.contains symbol then .ok (.string symbol)
      else .error (.codec (.unknownSymbol symbol))
    | v => .error ((Schema.enum type).mismatch v)
  | .fixed type, v => match v with
    | .fixed data =>
      if data.length = type.size then .ok (.string (latin1 data))
      else .error ((Schema.fixed type).mismatch (.fixed data))
    | v => .error ((Schema.fixed type).mismatch v)

/-- The members of the object of a record, in the order of its fields. -/
def RecordType.toJson (rendering : Rendering) :
    RecordType → Record → Except Failure (List (String × Json))
  | ⟨name, fields⟩, r =>
    if r.type.name.full = name.full then fieldsToJson rendering fields r
    else .error ((Schema.record ⟨name, fields⟩).mismatch (.record r))

def fieldsToJson (rendering : Rendering) :
    List Field → Record → Except Failure (List (String × Json))
  | [], _ => .ok []
  | ⟨name, position, schema⟩ :: rest, r =>
    match r.get? position with
    | some v => do return (name, ← schema.toJson rendering v) :: (← fieldsToJson rendering rest r)
    | none => .error (.codec (.missingField name))

/-- Renders under the first member that accepts the value. -/
def memberToJson (rendering : Rendering) : List Schema → Value → Except Failure Json
  | [], v => .error (.codec (.invalidUnionBranch v.kind))
  | s :: rest, v =>
    if s.accepts v then
      if s.isNull then .ok .null
      else (s.toJson rendering v).map fun j => .object [(s.typeName, j)]
    else memberToJson rendering rest v

end

end FieldSeal
