import FieldSeal.Error
import FieldSeal.Json.Basic
import FieldSeal.Value.Shape

/-!
# Values as JSON: the two renderings

A value with the typed tag is either plain or encrypted, and JSON has only its text. A rendering says
how the mark is dropped and made up again: on the `wire` every text is an encrypted one, and a plain
one may not be written; in a `plain` document texts that are read are plain ones, and both kinds are
written.
-/

set_option autoImplicit false

namespace FieldSeal

inductive Rendering where
  | wire
  | plain
deriving DecidableEq, Repr

namespace Rendering

def ofText : Rendering → Tag → String → Value
  | .wire, tag, text => tag.ofWire text
  | .plain, .inline, text => .string text
  | .plain, .typed, text => .tagged (.plain text)

def toText : Rendering → Tag → Value → Except Failure String
  | .wire, tag, v => match tag.toWire v with
    | .ok text => .ok text
    | .error e => .error (.schema e)
  | .plain, .inline, .string text => .ok text
  | .plain, .typed, .tagged t => .ok t.text
  | .plain, _, v => .error (.codec (.typeMismatch "string" v.kind))

end Rendering

/-! ## Bytes as text -/

/-- Each byte becomes the character of its number. -/
def latin1 (data : List UInt8) : String := String.ofList (data.map fun b => Char.ofNat b.toNat)

/-- The bytes of a text whose characters all have a number below 256. -/
def ofLatin1? (text : String) : Option (List UInt8) :=
  text.toList.mapM fun c => if c.toNat < 256 then some (UInt8.ofNat c.toNat) else none

end FieldSeal
