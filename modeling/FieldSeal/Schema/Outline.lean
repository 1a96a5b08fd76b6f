import FieldSeal.Json.Printer
import FieldSeal.Json.Reader
import FieldSeal.Schema.Error

/-!
# The outline of a schema document

A schema document says two things at once: the shape of a type, and which names it declares and
refers to. `Outline` is the first alone. It is read off the JSON tree with no regard to names, so
that looking names up (`Outline.resolve`, in `FieldSeal.Schema.Names`) is a plain recursion over it.

Reading an outline never fails. What is wrong stands in the outline as a fault, at the place where
resolving comes upon it; the first fault in the order of evaluation is then the error of the whole
document. A `logicalType` that is not a tag leaves no trace.
-/

set_option autoImplicit false

namespace FieldSeal

/-- A member of an object: not there, not of the right form, or given. -/
inductive Member (α : Type) where
  | absent
  | malformed
  | given (value : α)

/-- The name and the namespace as a declaration writes them. -/
structure Declaration where
  name : String
  space : Option String

/-- Why the fields of a record cannot be read on. -/
inductive FieldFault where
  | listMissing
  | notList
  | notObject
  | nameMissing
  | nameNotText

mutual

inductive Outline where
  | malformed (fault : SchemaFault)
  | reference (name : String)
  | union (members : List Outline)
  | array (items : Outline)
  | map (values : Outline)
  | record (declaration : Declaration) (fields : List FieldOutline)
  | enum (declaration : Declaration) (symbols : Member (List String))
  | fixed (declaration : Declaration) (size : Member Nat)
  | tagged (tag : Tag) (base : Outline)

inductive FieldOutline where
  | malformed (fault : FieldFault)
  | field (name : String) (type : Outline)

end

instance : Inhabited Outline := ⟨.malformed .withoutType⟩

namespace Outline

/-- The outlines of those members of an object that hold schemas themselves. -/
structure Parts where
  type : Option Outline
  items : Option Outline
  values : Option Outline
  fields : List FieldOutline

/-- What is known of an object without a member of these names. -/
def Parts.none : Parts := ⟨Option.none, Option.none, Option.none, [.malformed .listMissing]⟩

/-- The outline of a declaration, when the name is readable. -/
def declared (members : Table Json) (body : Declaration → Outline) : Outline :=
  match Table.get? "name" members with
  | none => .malformed (.missing "name")
  | some (.string name) => body ⟨name, (Table.get? "namespace" members).bind Json.asText?⟩
  | some _ => .malformed .nameNotText

def symbols (members : Table Json) : Member (List String) :=
  match Table.get? "symbols" members with
  | none => .absent
  | some j => match j.asTexts? with
    | some texts => .given texts
    | none => .malformed

def size (members : Table Json) : Member Nat :=
  match Table.get? "size" members with
  | none => .absent
  | some (.number n) => match n.toNat? with
    | some size => .given size
    | none => .malformed
  | some _ => .malformed

/-- The outline of an object, from its members and the outlines in them. A type written as text is
a kind of type or a reference. -/
def ofParts (members : Table Json) (parts : Parts) : Outline :=
  let base : Outline :=
    match Table.get? "type" members with
    | none => .malformed .withoutType
    | some (.string kind) =>
      if kind = "record" ∨ kind = "error" then declared members fun d => .record d parts.fields
      else if kind = "enum" then declared members fun d => .enum d (symbols members)
      else if kind = "fixed" then declared members fun d => .fixed d (size members)
      else if kind = "array" then
        match parts.items with
        | some items => .array items
        | none => .malformed (.missing "items")
      else if kind = "map" then
        match parts.values with
        | some values => .map values
        | none => .malformed (.missing "values")
      else .reference kind
    | some _ => parts.type.getD default
  match (Table.get? "logicalType" members).bind Json.asText? with
  | some name => match Tag.ofName? name with
    | some tag => .tagged tag base
    | none => base
  | none => base

/-- The outline of a field, from the members of its object and the outlines in them. -/
def fieldOfParts (members : Table Json) (parts : Parts) : FieldOutline :=
  match Table.get? "name" members with
  | none => .malformed .nameMissing
  | some (.string name) => .field name (parts.type.getD (.malformed (.fieldWithoutType name)))
  | some _ => .malformed .nameNotText

mutual

def ofJson : Json → Outline
  | .string name => .reference name
  | .array members => .union (ofJsons members)
  | .object members => ofParts members (partsOf members)
  | j => .malformed (.unexpectedElement j.compact)

def ofJsons : List Json → List Outline
  | [] => []
  | j :: rest => ofJson j :: ofJsons rest

def partsOf : List (String × Json) → Parts
  | [] => .none
  | (key, j) :: rest =>
    if key = "type" then { partsOf rest with type := some (ofJson j) }
    else if key = "items" then { partsOf rest with items := some (ofJson j) }
    else if key = "values" then { partsOf rest with values := some (ofJson j) }
    else if key = "fields" then { partsOf rest with fields := fieldsOf j }
    else partsOf rest

def fieldsOf : Json → List FieldOutline
  | .array items => fieldsOfItems items
  | _ => [.malformed .notList]

def fieldsOfItems : List Json → List FieldOutline
  | [] => []
  | j :: rest => fieldOf j :: fieldsOfItems rest

def fieldOf : Json → FieldOutline
  | .object members => fieldOfParts members (partsOf members)
  | _ => .malformed .notObject

end

end Outline

end FieldSeal
