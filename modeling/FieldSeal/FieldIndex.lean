import FieldSeal.Schema.Equality

/-!
# Which fields lead to a tagged string

A field index remembers, for each record type it has been asked about, the positions of the fields
whose schema has a tagged string somewhere in it. Entries list direct fields only: a nested record
has its own entry, made on the way. The key is the whole record type, so two types that share a name
do not share an entry.

Lookups give the index back with what they have learned; an entry that is there is never changed.
-/

set_option autoImplicit false

namespace FieldSeal

/-- The positions found so far, by record type. -/
structure FieldIndex where
  entries : List (RecordType × List Nat)

namespace FieldIndex

def empty : FieldIndex := ⟨[]⟩

def get? (index : FieldIndex) (type : RecordType) : Option (List Nat) :=
  index.entries.lookup type

/-- Adds an entry, unless there is one; gives the positions that then stand in the index. -/
def record (index : FieldIndex) (type : RecordType) (positions : List Nat) :
    List Nat × FieldIndex :=
  match index.get? type with
  | some known => (known, index)
  | none => (positions, ⟨index.entries ++ [(type, positions)]⟩)

/-- Whether a record type of this name has an entry. -/
def contains (index : FieldIndex) (name : String) : Bool :=
  index.entries.any fun e => e.1.name.full == name

def size (index : FieldIndex) : Nat := index.entries.length

end FieldIndex

mutual

/-- Whether a schema has a tagged string in it. A union is searched up to the first member that
has one. -/
def Schema.sensitive : Schema → FieldIndex → Bool × FieldIndex
  | .string tag, index => (tag.isSome, index)
  | .record type, index =>
    let (positions, index) := type.sensitivePositions index
    (!positions.isEmpty, index)
  | .array items, index => items.sensitive index
  | .map values, index => values.sensitive index
  | .union members, index => anySensitive members index
  | _, index => (false, index)

/-- The positions of the fields of a record type that have a tagged string in them. -/
def RecordType.sensitivePositions : RecordType → FieldIndex → List Nat × FieldIndex
  | ⟨name, fields⟩, index =>
    match index.get? ⟨name, fields⟩ with
    | some positions => (positions, index)
    | none =>
      -- Records inside the fields enter the index before this one.
      let (positions, index) := sensitiveAmong fields index
      index.record ⟨name, fields⟩ positions

def sensitiveAmong : List Field → FieldIndex → List Nat × FieldIndex
  | [], index => ([], index)
  | ⟨_, position, schema⟩ :: rest, index =>
    let (here, index) := schema.sensitive index
    let (positions, index) := sensitiveAmong rest index
    (if here then position :: positions else positions, index)

def anySensitive : List Schema → FieldIndex → Bool × FieldIndex
  | [], index => (false, index)
  | s :: rest, index =>
    match s.sensitive index with
    | (true, index) => (true, index)
    | (false, index) => anySensitive rest index

end

end FieldSeal
