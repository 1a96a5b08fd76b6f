import FieldSeal.Error
import FieldSeal.FieldIndex
import FieldSeal.Value.Basic

/-!
# Encrypting and decrypting the tagged strings of a value

A walk goes through a value along its schema and hands the text of each tagged string to a cipher.
The field index tells which fields of a record and which items of a container to visit; all else is
left as it is, unseen. Items that are under the inline tag themselves are visited without asking it.

At an inline tag every bare text is handed over. Nothing shows whether such a text has been encrypted
before, so encrypting twice makes two layers, and a text that does not decrypt is taken to be plain
and stays. At a typed tag the mark decides: encrypting passes over what is encrypted, decrypting over
what is plain, and a failure there ends the walk. At a union the shape of the value decides where the
walk goes on: a record by its own type, a container by the first member of its kind.

The result of a walk that fails is the value as far as it came. Since a cipher may answer differently
each time it is asked, calls are numbered.
-/

set_option autoImplicit false

namespace FieldSeal

inductive Direction where
  | encrypt
  | decrypt
deriving DecidableEq, Repr

/-- What happens to a text: the answer to the call of a number. -/
abbrev Leaf := Nat → String → Except CipherError String

structure Cipher where
  encrypt : Leaf
  decrypt : String → Except CipherError String

def Cipher.leaf (cipher : Cipher) : Direction → Leaf
  | .encrypt => cipher.encrypt
  | .decrypt => fun _ => cipher.decrypt

/-- What a walk has done so far: what the index has learned, and the texts handed over. -/
structure Trace where
  index : FieldIndex
  calls : List String

/-- What a walk gives back: the value as far as it came, the trace, and the failure that ended it. -/
structure Outcome (α : Type) where
  value : α
  trace : Trace
  failure : Option CipherError

namespace Outcome

variable {α β : Type}

def unchanged (a : α) (trace : Trace) : Outcome α := ⟨a, trace, none⟩

def map (f : α → β) (o : Outcome α) : Outcome β := ⟨f o.value, o.trace, o.failure⟩

/-- Goes on to the rest of a sequence, unless the walk has failed: then the rest stays as it is. -/
def andRest (first : Outcome α) (rest : β) (next : Trace → Outcome β) : Outcome (α × β) :=
  match first.failure with
  | none =>
    let others := next first.trace
    ⟨(first.value, others.value), others.trace, others.failure⟩
  | some e => ⟨(first.value, rest), first.trace, some e⟩

end Outcome

/-! ## Where a value of some shape is visited -/

namespace Schema

/-- A bare text here is under the inline tag. -/
def takesInline : Schema → Bool
  | .union members => members.any isInline
  | s => s.isInline

/-- A marked text here is under the typed tag. -/
def takesTyped : Schema → Bool
  | .union members => members.any isTyped
  | s => s.isTyped

/-- The record type along which a record here is visited. -/
def recordType? (own : RecordType) : Schema → Option RecordType
  | .record type => some type
  | .union _ => some own
  | _ => none

def items? : Schema → Option Schema
  | .array items => some items
  | _ => none

def values? : Schema → Option Schema
  | .map values => some values
  | _ => none

/-- The schema along which the items of an array here are visited. -/
def itemSchema? : Schema → Option Schema
  | .union members => members.findSome? items?
  | s => s.items?

/-- The schema along which the values of a map here are visited. -/
def valueSchema? : Schema → Option Schema
  | .union members => members.findSome? values?
  | s => s.values?

end Schema

/-! ## The walk -/

structure Walk where
  direction : Direction
  leaf : Leaf

namespace Walk

variable (w : Walk)

def call (text : String) (trace : Trace) : Except CipherError String × Trace :=
  (w.leaf trace.calls.length text, { trace with calls := trace.calls ++ [text] })

def visitInline (text : String) (trace : Trace) : Outcome String :=
  match w.call text trace with
  | (.ok answer, trace) => .unchanged answer trace
  | (.error e, trace) =>
    match w.direction with
    | .encrypt => ⟨text, trace, some e⟩
    -- It was plain, or sealed under another key; nothing tells one from the other.
    | .decrypt => .unchanged text trace

def visitTyped (t : TaggedText) (trace : Trace) : Outcome TaggedText :=
  match w.direction, t with
  | .encrypt, .plain text =>
    match w.call text trace with
    | (.ok answer, trace) => .unchanged (.encrypted answer) trace
    | (.error e, trace) => ⟨.plain text, trace, some e⟩
  | .decrypt, .encrypted text =>
    match w.call text trace with
    | (.ok answer, trace) => .unchanged (.plain answer) trace
    | (.error e, trace) => ⟨.encrypted text, trace, some e⟩
  -- Already as the direction would have it.
  | _, t => .unchanged t trace

/-- Visits a value under the inline tag, where only a bare text is of interest. -/
def visitBare : Value → Trace → Outcome Value
  | .string text, trace => (w.visitInline text trace).map .string
  | v, trace => .unchanged v trace

/-- Visits items that are under the inline tag themselves. -/
def visitBareItems : List Value → Trace → Outcome (List Value)
  | [], trace => .unchanged [] trace
  | v :: rest, trace =>
    ((w.visitBare v trace).andRest rest (visitBareItems rest)).map fun p => p.1 :: p.2

/-- Visits the values of a map that are under the inline tag themselves. -/
def visitBareEntries : List (String × Value) → Trace → Outcome (List (String × Value))
  | [], trace => .unchanged [] trace
  | (key, v) :: rest, trace =>
    ((w.visitBare v trace).andRest rest (visitBareEntries rest)).map fun p => (key, p.1) :: p.2

mutual

def visit (s : Schema) : Value → Trace → Outcome Value
  | .string text, trace =>
    if s.takesInline then (w.visitInline text trace).map .string
    else .unchanged (.string text) trace
  | .tagged t, trace =>
    if s.takesTyped then (w.visitTyped t trace).map .tagged
    else .unchanged (.tagged t) trace
  | .record ⟨own, fields⟩, trace =>
    match s.recordType? own with
    | some type =>
      let (positions, index) := type.sensitivePositions trace.index
      (visitFields type.fields positions fields { trace with index }).map fun fields =>
        .record ⟨own, fields⟩
    | none => .unchanged (.record ⟨own, fields⟩) trace
  | .array items, trace =>
    match s.itemSchema? with
    | some item =>
      if item.isInline then (w.visitBareItems items trace).map .array
      -- The index learns of the items even where there are none.
      else match item.sensitive trace.index with
      | (true, index) => (visitItems item items { trace with index }).map .array
      | (false, index) => .unchanged (.array items) { trace with index }
    | none => .unchanged (.array items) trace
  | .map entries, trace =>
    match s.valueSchema? with
    | some value =>
      if value.isInline then (w.visitBareEntries entries trace).map .map
      else match value.sensitive trace.index with
      | (true, index) => (visitEntries value entries { trace with index }).map .map
      | (false, index) => .unchanged (.map entries) { trace with index }
    | none => .unchanged (.map entries) trace
  | v, trace => .unchanged v trace

/-- Visits the values of fields, those at the given positions. -/
def visitFields (fields : List Field) (positions : List Nat) :
    List Value → Trace → Outcome (List Value)
  | [], trace => .unchanged [] trace
  | v :: rest, trace =>
    match fields with
    -- The type along which the record is visited has fewer fields than its own.
    | [] => .unchanged (v :: rest) trace
    | field :: fields =>
      let first :=
        if positions.contains field.position then visit field.schema v trace
        else .unchanged v trace
      (first.andRest rest (visitFields fields positions rest)).map fun p => p.1 :: p.2

def visitItems (item : Schema) : List Value → Trace → Outcome (List Value)
  | [], trace => .unchanged [] trace
  | v :: rest, trace =>
    ((visit item v trace).andRest rest (visitItems item rest)).map fun p => p.1 :: p.2

/-- Visits the values of a map; the keys stay. -/
def visitEntries (value : Schema) :
    List (String × Value) → Trace → Outcome (List (String × Value))
  | [], trace => .unchanged [] trace
  | (key, v) :: rest, trace =>
    ((visit value v trace).andRest rest (visitEntries value rest)).map fun p => (key, p.1) :: p.2

end

/-- Walks through a value along a schema, with what the index has learned before. -/
def run (s : Schema) (v : Value) (index : FieldIndex) : Outcome Value :=
  w.visit s v ⟨index, []⟩

def runRecord (r : Record) (index : FieldIndex) : Outcome Record :=
  let (positions, index) := r.type.sensitivePositions index
  (w.visitFields r.type.fields positions r.fields ⟨index, []⟩).map fun fields => ⟨r.type, fields⟩

end Walk

def Cipher.walk (cipher : Cipher) (direction : Direction) : Walk := ⟨direction, cipher.leaf direction⟩

end FieldSeal
