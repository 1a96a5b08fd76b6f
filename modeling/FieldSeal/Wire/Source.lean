import FieldSeal.Error

/-!
# Byte sources

A source is the bytes that are still to come and what happens after them: it may end there, or fail
there. A read that asks for more than there is gets nothing; a read of no bytes never touches the
source and succeeds on an empty or broken one.
-/

set_option autoImplicit false

namespace FieldSeal.Wire

/-- What lies behind the last byte of a source. -/
inductive Ending where
  | ended
  | broken (reason : String)
deriving DecidableEq, Repr

def Ending.error : Ending → CodecError
  | .ended => .unexpectedEnd
  | .broken reason => .io reason

structure Source where
  bytes : List UInt8
  ending : Ending
deriving DecidableEq, Repr

/-- A source of the given bytes and no more. -/
def Source.ofBytes (bytes : List UInt8) : Source := ⟨bytes, .ended⟩

/-- An action that takes bytes off a source. -/
abbrev Reader (α : Type) := StateT Source (Except CodecError) α

namespace Reader

def next : Reader UInt8 := fun source =>
  match source.bytes with
  | b :: rest => .ok (b, ⟨rest, source.ending⟩)
  | [] => .error source.ending.error

def take (n : Nat) : Reader (List UInt8) := fun source =>
  if n ≤ source.bytes.length then
    .ok (source.bytes.take n, ⟨source.bytes.drop n, source.ending⟩)
  else .error source.ending.error

end Reader

end FieldSeal.Wire
