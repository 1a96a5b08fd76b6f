import FieldSeal.Utf8
import FieldSeal.Value.Shape
import FieldSeal.Wire.Decode

/-!
# Writing values on the wire

What a writer puts on a sink is an `Emission`: the bytes, and the failure that cut them short, if
one did. Bytes before a failure are out, so they are part of the result; `Schema.encode` is for those
who want all or nothing. `Sink.accept` says what arrives on a sink, also on one that is full after a
number of bytes.

Arrays and maps are written as one block. The branch of a union is the first that accepts the value.
-/

set_option autoImplicit false

namespace FieldSeal

open FieldSeal.Ieee FieldSeal.Wire

namespace Wire

/-- The bytes that a writer puts out, and the failure that ended it. -/
structure Emission where
  bytes : List UInt8
  failure : Option Failure
deriving DecidableEq

namespace Emission

def of (bytes : List UInt8) : Emission := ⟨bytes, none⟩

def fail (failure : Failure) : Emission := ⟨[], some failure⟩

/-- One emission and then another, unless the first has failed. -/
def andThen (a b : Emission) : Emission :=
  match a.failure with
  | none => ⟨a.bytes ++ b.bytes, b.failure⟩
  | some _ => a

/-- The bytes, if nothing failed. -/
def toExcept (e : Emission) : Except Failure (List UInt8) :=
  match e.failure with
  | none => .ok e.bytes
  | some failure => .error failure

end Emission

/-- A sink: what has arrived, and how many bytes it can hold. -/
structure Sink where
  received : List UInt8
  capacity : Option Nat

/-- Puts an emission on a sink. What does not fit is lost, and the writer then fails for want of
room whatever else would have failed later. -/
def Sink.accept (sink : Sink) (e : Emission) : Sink × Option Failure :=
  let whole := { sink with received := sink.received ++ e.bytes }
  match sink.capacity with
  | none => (whole, e.failure)
  | some capacity =>
    let room := capacity - sink.received.length
    if e.bytes.length ≤ room then (whole, e.failure)
    else ({ sink with received := sink.received ++ e.bytes.take room },
      some (.codec (.io "failed to write whole buffer")))

def writeLength (n : Nat) : List UInt8 := Varint.encode (Int64.ofNat n)

def writeBytes (data : List UInt8) : Emission := .of (writeLength data.length ++ data)

def writeText (text : String) : Emission := writeBytes (Utf8.encode text)

def writeMany {α : Type} (item : α → Emission) : List α → Emission
  | [] => .of []
  | a :: rest => (item a).andThen (writeMany item rest)

/-- Items as one block and the end. -/
def writeBlock {α : Type} (item : α → Emission) (items : List α) : Emission :=
  if items.isEmpty then .of (writeLength 0)
  else (Emission.of (writeLength items.length)).andThen
    ((writeMany item items).andThen (.of (writeLength 0)))

def writeEntry (value : Value → Emission) (entry : String × Value) : Emission :=
  (writeText entry.1).andThen (value entry.2)

end Wire

/-- The error of a value without the shape of its schema. -/
def Schema.mismatch (s : Schema) (v : Value) : Failure :=
  .codec (.typeMismatch s.typeName v.kind)

mutual

def Schema.write : Schema → Value → Emission
  | .null, v => match v with
    | .null => .of []
    | v => .fail (Schema.null.mismatch v)
  | .boolean, v => match v with
    | .boolean b => .of [if b then 1 else 0]
    | v => .fail (Schema.boolean.mismatch v)
  | .int, v => match v with
    | .int n => .of (Varint.encode (Int64.ofInt n.toInt))
    | v => .fail (Schema.int.mismatch v)
  | .long, v => match v with
    | .long n => .of (Varint.encode n)
    | v => .fail (Schema.long.mismatch v)
  | .float, v => match v with
    | .float x => .of (ByteOrder.little 4 x.bits.toNat)
    | v => .fail (Schema.float.mismatch v)
  | .double, v => match v with
    | .double x => .of (ByteOrder.little 8 x.bits.toNat)
    | v => .fail (Schema.double.mismatch v)
  | .bytes, v => match v with
    | .bytes data => writeBytes data
    | v => .fail (Schema.bytes.mismatch v)
  | .string none, v => match v with
    | .string text => writeText text
    | v => .fail ((Schema.string none).mismatch v)
  | .string (some tag), v => match tag.toWire v with
    | .ok text => writeText text
    | .error e => .fail (.schema e)
  | .record type, v => match v with
    | .record r => type.write r
    | v => .fail ((Schema.record type).mismatch v)
  | .array items, v => match v with
    | .array vs => writeBlock items.write vs
    | v => .fail ((Schema.array items).mismatch v)
  | .map values, v => match v with
    | .map entries => writeBlock (writeEntry values.write) entries
    | v => .fail ((Schema.map values).mismatch v)
  | .union members, v => writeMember 0 members v
  | .enum type, v => match v with
    | .enum symbol => match type.symbols.idxOf? symbol with
      | some i => .of (writeLength i)
      | none => .fail (.codec (.unknownSymbol symbol))
    | v => .fail ((Schema.enum type).mismatch v)
  | .fixed type, v => match v with
    | .fixed data =>
      if data.length = type.size then .of data else .fail ((Schema.fixed type).mismatch (.fixed data))
    | v => .fail ((Schema.fixed type).mismatch v)

/-- Writes a record, which must have the name of the type; its own type may differ otherwise. -/
def RecordType.write : RecordType → Record → Emission
  | ⟨name, fields⟩, r =>
    if r.type.name.full = name.full then writeFields fields r
    else .fail ((Schema.record ⟨name, fields⟩).mismatch (.record r))

def writeFields : List Field → Record → Emission
  | [], _ => .of []
  | ⟨name, position, schema⟩ :: rest, r =>
    match r.get? position with
    | some v => (schema.write v).andThen (writeFields rest r)
    | none => .fail (.codec (.missingField name))

/-- Writes under the first member that accepts the value; `index` is that of the first one left. -/
def writeMember (index : Nat) : List Schema → Value → Emission
  | [], v => .fail (.codec (.invalidUnionBranch v.kind))
  | s :: rest, v =>
    if s.accepts v then (Emission.of (writeLength index)).andThen (s.write v)
    else writeMember (index + 1) rest v

end

/-- The bytes of a value, or the failure of writing it. -/
def Schema.encode (s : Schema) (v : Value) : Except Failure (List UInt8) := (s.write v).toExcept

end FieldSeal
