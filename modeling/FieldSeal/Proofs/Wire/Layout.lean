import FieldSeal.Proofs.Table
import FieldSeal.Wire.Decode

/-!
# The layout of values, by itself

What bytes a value may have on the wire, said without a reader. `Schema.LaidOut s v bytes` goes down
the schema and cuts the bytes into what each part takes; how the cuts are found is no part of it.
The same value can have many layouts: a varint need not be the shortest one, an array may be cut
into blocks in any way, and a map may name a key more than once.

Where a layout asks for a number it is the number itself that is asked for (`Varint.Spells`), and
the limit on items counts those of all blocks of one array or map together.
-/

set_option autoImplicit false

namespace FieldSeal

open FieldSeal.Wire

namespace Wire

/-! ## Integers -/

namespace Varint

/-- The number in the low seven bits of each byte, the lowest seven first. -/
def number : List UInt8 → Nat
  | [] => 0
  | b :: rest => b.toNat % 128 + 128 * number rest

/-- The bytes of a varint with so many groups after the first, at most: all but the last have their
high bit set, and the last of all the groups there can be holds one bit. -/
structure Grouped (room z : Nat) (bytes : List UInt8) : Prop where
  short : bytes.length ≤ room + 1
  ends : ∃ before last, bytes = before ++ [last] ∧ (∀ b ∈ before, 128 ≤ b.toNat) ∧ last.toNat < 128
  top : ∀ b, bytes[room]? = some b → b.toNat ≤ 1
  number_eq : number bytes = z

/-- The bytes are a varint of the integer, in the shortest form or not. -/
def Spells (n : Int64) (bytes : List UInt8) : Prop := Grouped moreGroups (zigzag n) bytes

end Varint

/-! ## Lengths, texts and choices -/

/-- A length that is not negative and so many bytes. -/
def Counted (data bytes : List UInt8) : Prop :=
  ∃ (n : Int64) (mark : List UInt8), Varint.Spells n mark ∧ n.toInt = data.length ∧
    bytes = mark ++ data

/-- The bytes of a text behind their length. -/
def Written (text : String) (bytes : List UInt8) : Prop := Counted (Utf8.encode text) bytes

/-- The index of a choice. -/
def Chosen {α : Type} (choices : List α) (a : α) (bytes : List UInt8) : Prop :=
  ∃ (n : Int64) (i : Nat), Varint.Spells n bytes ∧ n.toInt = i ∧ choices[i]? = some a

/-! ## Blocks -/

section Blocks

variable {α : Type} (item : α → List UInt8 → Prop)

/-- Items one after the other. -/
inductive Row : List α → List UInt8 → Prop
  | nil : Row [] []
  | cons {a : α} {rest : List α} {first bytes : List UInt8} (head : item a first)
    (tail : Row rest bytes) : Row (a :: rest) (first ++ bytes)

/-- What stands in front of a block of so many items: their number, or that number negated and then
any integer. -/
inductive Heads (count : Nat) : List UInt8 → Prop
  | plain {n : Int64} {mark : List UInt8} (hn : n.toInt = count) (spelled : Varint.Spells n mark) :
    Heads count mark
  | sized {n size : Int64} {mark extent : List UInt8} (hn : n.toInt = -count)
    (spelled : Varint.Spells n mark) (skipped : Varint.Spells size extent) :
    Heads count (mark ++ extent)

/-- Any number of blocks that are not empty, and the count of zero that ends them. -/
inductive Blocks : List α → List UInt8 → Prop
  | ended {mark : List UInt8} (spelled : Varint.Spells 0 mark) : Blocks [] mark
  | block {items rest : List α} {head body bytes : List UInt8} (filled : items ≠ [])
    (headed : Heads items.length head) (row : Row item items body) (more : Blocks rest bytes) :
    Blocks (items ++ rest) (head ++ body ++ bytes)

/-- Blocks with no more items in them than there may be. -/
def Collected (items : List α) (bytes : List UInt8) : Prop :=
  items.length ≤ maxItems ∧ Blocks item items bytes

end Blocks

/-- A key and then a value. -/
def Paired (value : Value → List UInt8 → Prop) (entry : String × Value) (bytes : List UInt8) :
    Prop :=
  ∃ first second, bytes = first ++ second ∧ Written entry.1 first ∧ value entry.2 second

end Wire

/-! ## Values -/

mutual

/-- The bytes are a layout of the value under the schema. -/
def Schema.LaidOut : Schema → Value → List UInt8 → Prop
  | .null, v, bytes => v = .null ∧ bytes = []
  | .boolean, v, bytes => v = .boolean false ∧ bytes = [0] ∨ v = .boolean true ∧ bytes = [1]
  | .int, v, bytes => ∃ n : Int32, v = .int n ∧ Varint.Spells n.toInt64 bytes
  | .long, v, bytes => ∃ n, v = .long n ∧ Varint.Spells n bytes
  | .float, v, bytes => ∃ x, v = .float x ∧ bytes = ByteOrder.little 4 x.bits.toNat
  | .double, v, bytes => ∃ x, v = .double x ∧ bytes = ByteOrder.little 8 x.bits.toNat
  | .bytes, v, bytes => ∃ data, v = .bytes data ∧ Counted data bytes
  | .string none, v, bytes => ∃ text, v = .string text ∧ Written text bytes
  | .string (some .inline), v, bytes => ∃ text, v = .string text ∧ Written text bytes
  | .string (some .typed), v, bytes => ∃ text, v = .tagged (.encrypted text) ∧ Written text bytes
  | .record type, v, bytes => ∃ fields, v = .record ⟨type, fields⟩ ∧ type.LaidOut fields bytes
  | .array items, v, bytes => ∃ vs, v = .array vs ∧ Collected items.LaidOut vs bytes
  | .map values, v, bytes => ∃ listed entries, v = .map entries ∧ Table.Gathers listed entries ∧
    Collected (Paired values.LaidOut) listed bytes
  | .union members, v, bytes => ∃ form mark body, Chosen (memberLayouts members) form mark ∧
    form v body ∧ bytes = mark ++ body
  | .enum type, v, bytes => ∃ symbol, v = .enum symbol ∧ Chosen type.symbols symbol bytes
  | .fixed type, v, bytes => v = .fixed bytes ∧ bytes.length = type.size

/-- The layout of a record's fields, one after the other. -/
def RecordType.LaidOut : RecordType → List Value → List UInt8 → Prop
  | ⟨_, fields⟩, vs, bytes => FieldsLaidOut fields vs bytes

def FieldsLaidOut : List Field → List Value → List UInt8 → Prop
  | [], vs, bytes => vs = [] ∧ bytes = []
  | ⟨_, _, schema⟩ :: rest, vs, bytes => ∃ v others first second, vs = v :: others ∧
    bytes = first ++ second ∧ schema.LaidOut v first ∧ FieldsLaidOut rest others second

/-- The layout under each member of a union. -/
def memberLayouts : List Schema → List (Value → List UInt8 → Prop)
  | [] => []
  | s :: rest => s.LaidOut :: memberLayouts rest

end

@[simp] theorem memberLayouts_eq_map (members : List Schema) :
    memberLayouts members = members.map Schema.LaidOut := by
  induction members with
  | nil => rfl
  | cons s rest ih => rw [memberLayouts, List.map_cons, ih]

/-- A union has the index of one of its members and a layout under that member. -/
theorem Schema.laidOut_union {members : List Schema} {v : Value} {bytes : List UInt8} :
    (Schema.union members).LaidOut v bytes ↔
      ∃ s mark body, Chosen members s mark ∧ s.LaidOut v body ∧ bytes = mark ++ body := by
  rw [Schema.LaidOut, memberLayouts_eq_map]
  constructor
  · rintro ⟨form, mark, body, ⟨n, i, hn, hi, hform⟩, hv, hbytes⟩
    rw [List.getElem?_map, Option.map_eq_some_iff] at hform
    obtain ⟨s, hs, rfl⟩ := hform
    exact ⟨s, mark, body, ⟨n, i, hn, hi, hs⟩, hv, hbytes⟩
  · rintro ⟨s, mark, body, ⟨n, i, hn, hi, hs⟩, hv, hbytes⟩
    refine ⟨s.LaidOut, mark, body, ⟨n, i, hn, hi, ?_⟩, hv, hbytes⟩
    rw [List.getElem?_map, hs, Option.map_some]

end FieldSeal
