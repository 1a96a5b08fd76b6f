import FieldSeal.Rendering.Read
import FieldSeal.Rendering.Write
import FieldSeal.Walk

/-!
# Sealing whole JSON documents

A plain document becomes a wire document with its tagged strings encrypted, and a wire document a
plain one with them decrypted: read under one rendering, walk, write under the other.
-/

set_option autoImplicit false

namespace FieldSeal

namespace Direction

/-- How the document to work on is read. -/
def source : Direction → Rendering
  | .encrypt => .plain
  | .decrypt => .wire

/-- How the result is written. -/
def target : Direction → Rendering
  | .encrypt => .wire
  | .decrypt => .plain

end Direction

/-- The document with its tagged strings encrypted or decrypted, and what the index has learned. -/
def Schema.sealDocument (s : Schema) (cipher : Cipher) (direction : Direction) (document : Json)
    (index : FieldIndex) : Except Failure (Json × FieldIndex) :=
  match s.fromJson direction.source document with
  | .error e => .error (.codec e)
  | .ok v =>
    let outcome := (cipher.walk direction).run s v index
    match outcome.failure with
    | some e => .error (.cipher e)
    | none => (s.toJson direction.target outcome.value).map (·, outcome.trace.index)

end FieldSeal
