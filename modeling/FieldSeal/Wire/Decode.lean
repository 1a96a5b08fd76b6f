import FieldSeal.ByteOrder
import FieldSeal.Utf8
import FieldSeal.Value.Shape
import FieldSeal.Wire.Varint

/-!
# Reading values off the wire

The layout by kind of schema:

* null is empty; a boolean is one byte, 0 or 1;
* integers are zig-zag varints; floating point numbers are their bits, lowest byte first;
* bytes and strings have their length in front; fixed bytes stand alone;
* a record is its fields one after the other;
* an array or a map is a sequence of blocks, each a count and so many items, ended by a count of
  zero; a negative count says that the size of the block in bytes follows, which is not needed;
* a union is the index of a member and a value of it; an enum is the index of a symbol.

Items of no width cost no input, so the number of items in all blocks together is bounded by
`maxItems`. Of map entries with one key the last one counts.
-/

set_option autoImplicit false

namespace FieldSeal

open FieldSeal.Ieee FieldSeal.Wire

namespace Wire

/-- How many items one array or map may have. -/
def maxItems : Nat := 0x1000000

def readLength : Reader Nat := do
  let n ← Varint.read
  if n.toInt < 0 then throw .invalidVarint else return n.toInt.toNat

def readBytes : Reader (List UInt8) := do Reader.take (← readLength)

def readText : Reader String := do
  match Utf8.decode? (← readBytes) with
  | some text => return text
  | none => throw .invalidText

def readBoolean : Reader Bool := do
  let b ← Reader.next
  if b = 0 then return false
  else if b = 1 then return true
  else throw (.typeMismatch "boolean" ("byte " ++ toString b.toNat))

def readInt : Reader Int32 := do
  match int32? (← Varint.read) with
  | some n => return n
  | none => throw .invalidVarint

/-- Reads an index into a list; a bad one is reported by the given error. -/
def readIndex {α : Type} (choices : List α) (error : String → CodecError) : Reader α := do
  let n ← Varint.read
  match if n.toInt < 0 then none else choices[n.toInt.toNat]? with
  | some a => return a
  | none => throw (error ("index " ++ toString n.toInt))

/-- The item count of the next block, none at the end, after `seen` items in the blocks before. -/
def readCount (seen : Nat) : Reader (Option { count : Nat // 0 < count ∧ seen + count ≤ maxItems }) := do
  let n ← Varint.read
  if n.toInt = 0 then return none
  if n.toInt < 0 then
    -- The size in bytes, for readers that skip the block.
    let _ ← Varint.read
  let count := n.toInt.natAbs
  if h : 0 < count ∧ seen + count ≤ maxItems then return some ⟨count, h⟩
  else throw (.collectionTooLarge count)

/-- Reads so many items, on top of those before, last one first. -/
def readMany {α : Type} (item : Reader α) : Nat → List α → Reader (List α)
  | 0, done => fun source => .ok (done, source)
  | n + 1, done => fun source =>
    match item source with
    | .ok (a, source) => readMany item n (a :: done) source
    | .error e => .error e

/-- Reads blocks up to the end, after `seen` items, which are in `done`, last one first. -/
def readBlocks {α : Type} (item : Reader α) (seen : Nat) (done : List α) : Reader (List α) := do
  match ← readCount seen with
  | none => return done.reverse
  | some count => readBlocks item (seen + count) (← readMany item count done)
termination_by maxItems - seen
decreasing_by have := count.2; omega

def readEntry (value : Reader Value) : Reader (String × Value) := do
  let key ← readText
  return (key, ← value)

end Wire

mutual

def Schema.read : Schema → Reader Value
  | .null => return .null
  | .boolean => return .boolean (← readBoolean)
  | .int => return .int (← readInt)
  | .long => return .long (← Varint.read)
  | .float => return .float ⟨UInt32.ofNat (ByteOrder.ofLittle (← Reader.take 4))⟩
  | .double => return .double ⟨UInt64.ofNat (ByteOrder.ofLittle (← Reader.take 8))⟩
  | .bytes => return .bytes (← readBytes)
  | .string none => return .string (← readText)
  | .string (some tag) => return tag.ofWire (← readText)
  | .record type => return .record (← type.read)
  | .array items => return .array (← readBlocks items.read 0 [])
  | .map values => return .map (Table.ofList (← readBlocks (readEntry values.read) 0 []))
  | .union members => do (← readIndex (readMembers members) .invalidUnionBranch)
  | .enum type => return .enum (← readIndex type.symbols .unknownSymbol)
  | .fixed type => return .fixed (← Reader.take type.size)

def RecordType.read : RecordType → Reader Record
  | ⟨name, fields⟩ => do return ⟨⟨name, fields⟩, ← readFields fields⟩

def readFields : List Field → Reader (List Value)
  | [] => return []
  | ⟨_, _, schema⟩ :: rest => do
    let v ← schema.read
    return v :: (← readFields rest)

def readMembers : List Schema → List (Reader Value)
  | [] => []
  | s :: rest => s.read :: readMembers rest

end

/-- The value that the bytes hold, all of them. -/
def Schema.decode (s : Schema) (bytes : List UInt8) : Except CodecError Value := do
  let (v, source) ← s.read (.ofBytes bytes)
  if source.bytes.isEmpty then return v else throw (.trailingBytes source.bytes.length)

end FieldSeal
