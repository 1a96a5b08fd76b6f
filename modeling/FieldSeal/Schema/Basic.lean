/-!
# Schemas

The types a value can have: eight primitives, of which strings may carry a sensitivity tag, and
records, enums, fixed-size bytes, arrays, maps and unions. References to named types are gone by the
time a `Schema` exists: every place holds the whole definition, so a schema is a finite tree and the
recursions below are structural.
-/

set_option autoImplicit false

namespace FieldSeal

/-- A sensitivity tag on a string. -/
inductive Tag where
  /-- The value stays a bare text; only the schema says that it is sensitive. -/
  | inline
  /-- The value itself says whether its text is plain or encrypted. -/
  | typed
deriving DecidableEq, Repr

namespace Tag

/-- How a schema document spells the tag. -/
def name : Tag → String
  | .inline => "inline-encrypted-string"
  | .typed => "encrypted-string"

/-- The tag of a spelling; all other names are not tags. -/
def ofName? (name : String) : Option Tag :=
  if name = inline.name then some inline
  else if name = typed.name then some typed
  else none

end Tag

/-- The name of a type: the part after the last dot, and the namespace. The namespace can be the
empty text, which qualifies nothing. -/
structure TypeName where
  base : String
  space : Option String
deriving DecidableEq, Repr

/-- A name inside a namespace, written with a dot. -/
def qualify (base : String) : Option String → String
  | some space => if space.isEmpty then base else space ++ "." ++ base
  | none => base

/-- The whole name, under which the type is known. -/
def TypeName.full (n : TypeName) : String := qualify n.base n.space

structure EnumType where
  name : TypeName
  symbols : List String
deriving DecidableEq, Repr

structure FixedType where
  name : TypeName
  size : Nat
deriving DecidableEq, Repr

mutual

inductive Schema where
  | null
  | boolean
  | int
  | long
  | float
  | double
  | bytes
  | string (tag : Option Tag)
  | record (type : RecordType)
  | array (items : Schema)
  | map (values : Schema)
  | union (members : List Schema)
  | enum (type : EnumType)
  | fixed (type : FixedType)

structure RecordType where
  name : TypeName
  fields : List Field

/-- A field of a record. `position` is its index among the fields. -/
structure Field where
  name : String
  position : Nat
  schema : Schema

end

instance : Inhabited Schema := ⟨.null⟩
instance : Inhabited RecordType := ⟨⟨⟨"", none⟩, []⟩⟩

def RecordType.field? (t : RecordType) (name : String) : Option Field :=
  t.fields.find? (·.name == name)

namespace Schema

/-- The name of the type; of a named type the whole name, which also marks its branch of a union in
JSON. -/
def typeName : Schema → String
  | .null => "null"
  | .boolean => "boolean"
  | .int => "int"
  | .long => "long"
  | .float => "float"
  | .double => "double"
  | .bytes => "bytes"
  | .string _ => "string"
  | .record type => type.name.full
  | .array _ => "array"
  | .map _ => "map"
  | .union _ => "union"
  | .enum type => type.name.full
  | .fixed type => type.name.full

def tag? : Schema → Option Tag
  | .string tag => tag
  | _ => none

def isInline (s : Schema) : Bool := s.tag? == some .inline

def isTyped (s : Schema) : Bool := s.tag? == some .typed

def isTagged (s : Schema) : Bool := s.tag?.isSome

def isNull : Schema → Bool
  | .null => true
  | _ => false

end Schema

/-! ## The records of a schema -/

mutual

/-- Adds the records of a schema to those found so far, each name once, outer ones first. -/
def Schema.collectRecords : Schema → List RecordType → List RecordType
  | .record type, found => type.collectRecords found
  | .array items, found => items.collectRecords found
  | .map values, found => values.collectRecords found
  | .union members, found => collectMembers members found
  | _, found => found

def RecordType.collectRecords : RecordType → List RecordType → List RecordType
  | ⟨name, fields⟩, found =>
    if found.any (·.name.full == name.full) then found
    else collectFields fields (found ++ [⟨name, fields⟩])

def collectFields : List Field → List RecordType → List RecordType
  | [], found => found
  | ⟨_, _, schema⟩ :: rest, found => collectFields rest (schema.collectRecords found)

def collectMembers : List Schema → List RecordType → List RecordType
  | [], found => found
  | schema :: rest, found => collectMembers rest (schema.collectRecords found)

end

/-- Every record type in a schema, depth first, fields in order; a name that has been met is not
entered again. -/
def Schema.records (s : Schema) : List RecordType := s.collectRecords []

end FieldSeal
