import FieldSeal.Schema.Outline

/-!
# Resolving the names of a schema document

A name is *open* from its declaration until its definition is complete, and *known* afterwards. A
reference to an open name would be a recursive type and is refused, and so is a second declaration
of a name that is open or known; every other reference is replaced by the definition it denotes.

`Outline.resolve` walks an outline in the order of the document and carries the table of names
along. Everything about names is in the three functions on `Names`.
-/

set_option autoImplicit false

namespace FieldSeal

/-- The names met so far in a document. -/
structure Names where
  known : List (String × Schema)
  opened : List String

namespace Names

def empty : Names := ⟨[], []⟩

def primitive? (name : String) : Option Schema :=
  if name = "null" then some .null
  else if name = "boolean" then some .boolean
  else if name = "int" then some .int
  else if name = "long" then some .long
  else if name = "float" then some .float
  else if name = "double" then some .double
  else if name = "bytes" then some .bytes
  else if name = "string" then some (.string none)
  else none

/-- What a whole name stands for, if it has been declared. -/
def lookup? (names : Names) (full : String) : Option (Except SchemaError Schema) :=
  if names.opened.contains full then some (.error (.recursiveReference full))
  else (names.known.lookup full).map .ok

/-- What a reference denotes. A bare name is looked up in the enclosing namespace first and then as
it is written, a dotted one only as it is written. -/
def refer (names : Names) (space : Option String) (name : String) : Except SchemaError Schema :=
  match primitive? name with
  | some schema => .ok schema
  | none =>
    let qualified := if name.toList.contains '.' then name else qualify name space
    ((names.lookup? qualified).or (names.lookup? name)).getD (.error (.unknownType name))

/-- The part before the last dot, if there is a dot, and the part after it. -/
def splitLast (name : List Char) : Option (List Char) × List Char :=
  match name with
  | [] => (none, [])
  | c :: rest =>
    match splitLast rest with
    | (some before, after) => (some (c :: before), after)
    | (none, after) => if c = '.' then (some [], after) else (none, c :: after)

/-- The name that a declaration gives its type: a dot in it separates the namespace, else the
declared or the enclosing namespace holds, unless it is empty. -/
def nameOf (d : Declaration) (enclosing : Option String) : TypeName :=
  match splitLast d.name.toList with
  | (some space, base) => ⟨String.ofList base, some (String.ofList space)⟩
  | (none, _) => ⟨d.name, (d.space.or enclosing).filter (!·.isEmpty)⟩

/-- Opens a name, which must be new. -/
def declare (names : Names) (name : TypeName) : Except SchemaError Names :=
  if (names.known.lookup name.full).isSome || names.opened.contains name.full then
    .error (.duplicateName name.full)
  else .ok { names with opened := name.full :: names.opened }

/-- Closes a name with its definition. -/
def define (names : Names) (name : TypeName) (schema : Schema) : Names :=
  ⟨(name.full, schema) :: names.known, names.opened.filter (· != name.full)⟩

end Names

/-- The fault of a field, seen from its record and its position. -/
def FieldFault.toSchemaFault (record : String) (position : Nat) : FieldFault → SchemaFault
  | .listMissing => .missing "fields"
  | .notList => .fieldsNotList record
  | .notObject => .fieldNotObject position record
  | .nameMissing => .missing "name"
  | .nameNotText => .fieldNameNotText

/-- A definition must have its content in the right form. -/
def Member.demand {α : Type} (key : String) (fault : SchemaFault) :
    Member α → Except SchemaError α
  | .absent => .error (.invalid (.missing key))
  | .malformed => .error (.invalid fault)
  | .given value => .ok value

namespace Outline

mutual

/-- The schema of an outline inside a namespace, and the names after it. -/
def resolve (space : Option String) : Outline → Names → Except SchemaError (Schema × Names)
  | .malformed fault, _ => .error (.invalid fault)
  | .reference name, names => do return (← names.refer space name, names)
  | .union members, names => do
    let (members, names) ← resolveMembers space members names
    return (.union members, names)
  | .array items, names => do
    let (items, names) ← items.resolve space names
    return (.array items, names)
  | .map values, names => do
    let (values, names) ← values.resolve space names
    return (.map values, names)
  | .record declaration fields, names => do
    let name := Names.nameOf declaration space
    let names ← names.declare name
    let (fields, names) ← resolveFields name 0 [] fields names
    let schema := Schema.record ⟨name, fields⟩
    return (schema, names.define name schema)
  | .enum declaration symbols, names => do
    let name := Names.nameOf declaration space
    let names ← names.declare name
    let schema := Schema.enum ⟨name, ← symbols.demand "symbols" (.symbolsNotTexts name.base)⟩
    return (schema, names.define name schema)
  | .fixed declaration size, names => do
    let name := Names.nameOf declaration space
    let names ← names.declare name
    let schema := Schema.fixed ⟨name, ← size.demand "size" (.sizeNotNumber name.base)⟩
    return (schema, names.define name schema)
  | .tagged tag base, names => do
    let (base, names) ← base.resolve space names
    tag.check base
    return (.string (some tag), names)

def resolveMembers (space : Option String) :
    List Outline → Names → Except SchemaError (List Schema × Names)
  | [], names => .ok ([], names)
  | o :: rest, names => do
    let (schema, names) ← o.resolve space names
    let (schemas, names) ← resolveMembers space rest names
    return (schema :: schemas, names)

/-- The fields of a record from a position on; `seen` are the names of the fields before. -/
def resolveFields (record : TypeName) (position : Nat) (seen : List String) :
    List FieldOutline → Names → Except SchemaError (List Field × Names)
  | [], names => .ok ([], names)
  | .malformed fault :: _, _ => .error (.invalid (fault.toSchemaFault record.full position))
  | .field name type :: rest, names => do
    if seen.contains name then .error (.duplicateName (record.full ++ "." ++ name))
    -- The namespace of the record holds for its fields, and not the one around it.
    let (schema, names) ← type.resolve record.space names
    let (fields, names) ← resolveFields record (position + 1) (name :: seen) rest names
    return (⟨name, position, schema⟩ :: fields, names)

end

end Outline

namespace Schema

def ofJson (document : Json) : Except SchemaError Schema :=
  ((Outline.ofJson document).resolve none .empty).map (·.1)

def ofText (text : String) : Except SchemaError Schema :=
  match Json.ofText? text with
  | some document => ofJson document
  | none => .error (.invalid .notJson)

end Schema

end FieldSeal
