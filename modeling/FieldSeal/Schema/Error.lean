import FieldSeal.Schema.Basic

/-!
# What can be wrong with a schema or with a tag

`SchemaFault` lists what makes a document no schema at all; `SchemaError` adds the conflicts between
names, a tag in the wrong place, and the refusals of a tagged string to go on the wire. The wording
is in the two `message` functions and nowhere else.
-/

set_option autoImplicit false

namespace FieldSeal

/-- Why a document is not a schema. -/
inductive SchemaFault where
  | notJson
  | unexpectedElement (shown : String)
  | withoutType
  | missing (key : String)
  | nameNotText
  | fieldsNotList (record : String)
  | fieldNotObject (position : Nat) (record : String)
  | fieldNameNotText
  | fieldWithoutType (field : String)
  | symbolsNotTexts (enum : String)
  | sizeNotNumber (fixed : String)
deriving DecidableEq, Repr

def SchemaFault.message : SchemaFault → String
  | .notJson => "the text is not JSON"
  | .unexpectedElement shown => "unexpected schema element: " ++ shown
  | .withoutType => "schema object without 'type'"
  | .missing key => "missing '" ++ key ++ "'"
  | .nameNotText => "name must be a string"
  | .fieldsNotList record => "fields of " ++ record ++ " must be a list"
  | .fieldNotObject position record =>
    "field " ++ toString position ++ " of " ++ record ++ " must be an object"
  | .fieldNameNotText => "field name must be a string"
  | .fieldWithoutType field => "field " ++ field ++ " has no type"
  | .symbolsNotTexts enum => "symbols of " ++ enum ++ " must be strings"
  | .sizeNotNumber fixed => "size of " ++ fixed ++ " must be a number"

inductive SchemaError where
  /-- A tag on something that is not a string. -/
  | tagMismatch (tag : Tag) (base : String)
  /-- A tagged string that is still plain may not be written. -/
  | plainOnWire
  /-- A value without the shape that the tag of its place asks for. -/
  | notInstance (kind : String) (tag : Tag)
  | invalid (fault : SchemaFault)
  | unknownType (name : String)
  | duplicateName (name : String)
  | recursiveReference (name : String)
deriving DecidableEq, Repr

def SchemaError.message : SchemaError → String
  | .tagMismatch tag base =>
    "'" ++ tag.name ++ "' can only be used with an underlying string type, got " ++ base
  | .plainOnWire => "only encrypted values may be serialized"
  | .notInstance kind tag =>
    "Invalid schema: value " ++ kind ++ " is not an instance of '" ++ tag.name ++ "'"
  | .invalid fault => "Invalid schema: " ++ fault.message
  | .unknownType name => "Unknown type: " ++ name
  | .duplicateName name => "Duplicate name: " ++ name
  | .recursiveReference name => "Recursive reference to '" ++ name ++ "' is not supported"

/-- A tag may only stand on a string. -/
def Tag.check (tag : Tag) : Schema → Except SchemaError Unit
  | .string _ => .ok ()
  | base => .error (.tagMismatch tag base.typeName)

end FieldSeal
