import FieldSeal.Schema.Error
import FieldSeal.Value.Basic

/-!
# Which values belong at a place

`Tag.isInstance`, `Tag.toWire` and `Tag.ofWire` are the rules of the two tags: the inline tag leaves
the text bare, the typed tag wraps it, and a typed text that is still plain never becomes wire text.

`Schema.accepts` is the test by which writers pick a branch of a union. It looks at the value
itself and not into it: a record by its name, an enum by its symbol, fixed bytes by their count.
-/

set_option autoImplicit false

namespace FieldSeal

namespace Tag

/-- Whether a value has the shape that the tag gives to strings. -/
def isInstance : Tag → Value → Bool
  | .inline, .string _ => true
  | .typed, .tagged _ => true
  | _, _ => false

/-- The value of a text from the wire; under the typed tag it is taken to be encrypted. -/
def ofWire : Tag → String → Value
  | .inline, text => .string text
  | .typed, text => .tagged (.encrypted text)

def toWire : Tag → Value → Except SchemaError String
  | .inline, .string text => .ok text
  | .typed, .tagged (.encrypted text) => .ok text
  | .typed, .tagged (.plain _) => .error .plainOnWire
  | tag, v => .error (.notInstance v.kind tag)

end Tag

mutual

/-- Whether a value looks like one of the schema; a union accepts what a member accepts. -/
def Schema.accepts : Schema → Value → Bool
  | .null, v => match v with | .null => true | _ => false
  | .boolean, v => match v with | .boolean _ => true | _ => false
  | .int, v => match v with | .int _ => true | _ => false
  | .long, v => match v with | .long _ => true | _ => false
  | .float, v => match v with | .float _ => true | _ => false
  | .double, v => match v with | .double _ => true | _ => false
  | .bytes, v => match v with | .bytes _ => true | _ => false
  | .string none, v => match v with | .string _ => true | _ => false
  | .string (some tag), v => tag.isInstance v
  | .record type, v => match v with | .record r => r.type.name.full == type.name.full | _ => false
  | .array _, v => match v with | .array _ => true | _ => false
  | .map _, v => match v with | .map _ => true | _ => false
  | .union members, v => membersAccept members v
  | .enum type, v => match v with | .enum symbol => type.symbols.contains symbol | _ => false
  | .fixed type, v => match v with | .fixed data => data.length == type.size | _ => false

def membersAccept : List Schema → Value → Bool
  | [], _ => false
  | s :: rest, v => s.accepts v || membersAccept rest v

end

end FieldSeal
