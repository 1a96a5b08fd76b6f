import FieldSeal.Proofs.Schema.Nodes
import FieldSeal.Proofs.Wire.Blocks
import FieldSeal.Proofs.Wire.Recognizes

/-!
# Readers accept the layout and nothing else

Blocks are read by one loop with the limit running along, and values by recursion along the schema;
both are put together from readers that take a form each (`Recognizes`). The form of the loop is
`Remaining`, of the items that are still to come: what earlier blocks gave is given, and the limit
leaves only what they did not use up.

For values there is one lemma for each kind of schema, which asks of the schemas inside only that
their own readers take their own layouts. Most kinds are a reader whose answer is wrapped in a value
and need no more than `Recognizes.map`.
-/

set_option autoImplicit false

namespace FieldSeal.Wire

/- A power of natural numbers is that of core here, whatever else is in scope. -/
attribute [local instance (high)] instPowNat

/-! ## Blocks -/

/-- What stands for a count: the zero at the end, or the head of a block. -/
def Marks {seen : Nat} :
    Option { count : Nat // 0 < count ∧ seen + count ≤ maxItems } → List UInt8 → Prop
  | none, bytes => Varint.Spells 0 bytes
  | some count, bytes => Heads count bytes

/-- The count of a block that the limit still allows. -/
def limitCount (seen count : Nat) :
    Reader (Option { count : Nat // 0 < count ∧ seen + count ≤ maxItems }) :=
  if h : 0 < count ∧ seen + count ≤ maxItems then return some ⟨count, h⟩
  else throw (.collectionTooLarge count)

/-- A count is read in three steps: its number, the extent of its block if the number is negative,
and what the limit says to it. -/
theorem readCount_eq (seen : Nat) :
    readCount seen = (do
      let n ← Varint.read
      if n.toInt = 0 then return none
      if n.toInt < 0 then
        let _ ← Varint.read
      limitCount seen n.toInt.natAbs) := rfl

/-- Looking at the limit takes no bytes. It lets the count through or fails. -/
theorem recognizes_limit (seen count : Nat) :
    Recognizes (limitCount seen count) fun c bytes =>
      (∃ allowed, c = some allowed ∧ allowed.1 = count) ∧ bytes = [] := by
  rw [limitCount]
  by_cases h : 0 < count ∧ seen + count ≤ maxItems
  · rw [dif_pos h]
    apply Recognizes.allowed
    intro c
    constructor
    · rintro ⟨allowed, rfl, hcount⟩
      rw [Option.some.injEq]
      exact Subtype.ext hcount
    · rintro rfl
      exact ⟨_, rfl, rfl⟩
  · rw [dif_neg h]
    apply Recognizes.refused
    rintro c ⟨allowed, -, rfl⟩
    exact h allowed.2

/-- What stands behind the number of a count: nothing, but any integer if the number is negated. -/
def Follows {seen : Nat} (n : Int64) :
    Option { count : Nat // 0 < count ∧ seen + count ≤ maxItems } → List UInt8 → Prop
  | none, bytes => n.toInt = 0 ∧ bytes = []
  | some count, bytes => n.toInt = count.1 ∧ bytes = [] ∨
    n.toInt = -count.1 ∧ ∃ size, Varint.Spells size bytes

/-- The extent behind a negative number is any integer, which nobody looks at. -/
theorem recognizes_extent (seen : Nat) {n : Int64} (hn : n.toInt < 0) :
    Recognizes (do
        let _ ← Varint.read
        limitCount seen n.toInt.natAbs) (Follows n) := by
  apply (Varint.recognizes_read.bind fun _ _ _ => recognizes_limit seen n.toInt.natAbs).congr
  intro c bytes
  constructor
  · rintro ⟨size, extent, rest, rfl, hsize, ⟨count, rfl, hcount⟩, rfl⟩
    rw [List.append_nil]
    exact .inr ⟨by omega, size, hsize⟩
  · intro h
    cases c with
    | none => exact absurd h.1 (Int.ne_of_lt hn)
    | some count =>
      obtain ⟨hcount, -⟩ | ⟨hcount, size, hsize⟩ := h
      · omega
      · exact ⟨size, bytes, [], (List.append_nil _).symm, hsize, ⟨count, rfl, by omega⟩, rfl⟩

/-- Behind a positive number there is nothing. -/
theorem recognizes_plain (seen : Nat) {n : Int64} (hn : 0 < n.toInt) :
    Recognizes (limitCount seen n.toInt.natAbs) (Follows n) := by
  apply (recognizes_limit seen n.toInt.natAbs).congr
  intro c bytes
  constructor
  · rintro ⟨⟨count, rfl, hcount⟩, rfl⟩
    exact .inl ⟨by omega, rfl⟩
  · intro h
    cases c with
    | none => exact absurd h.1.symm (Int.ne_of_lt hn)
    | some count =>
      obtain ⟨hcount, rfl⟩ | ⟨hcount, -⟩ := h
      · exact ⟨⟨count, rfl, by omega⟩, rfl⟩
      · omega

theorem recognizes_follows (seen : Nat) (n : Int64) :
    Recognizes (do
        if n.toInt = 0 then return none
        if n.toInt < 0 then
          let _ ← Varint.read
        limitCount seen n.toInt.natAbs) (Follows n) := by
  by_cases hzero : n.toInt = 0
  · simp only [if_pos hzero]
    apply (Recognizes.pure none).congr
    intro c bytes
    cases c with
    | none => simp [Follows, hzero]
    | some count =>
      have hpos := count.2.1
      constructor
      · rintro ⟨h, -⟩
        cases h
      · rintro (⟨hcount, -⟩ | ⟨hcount, -⟩) <;> omega
  · by_cases hneg : n.toInt < 0
    · simp only [if_neg hzero, if_pos hneg]
      exact recognizes_extent seen hneg
    · simp only [if_neg hzero, if_neg hneg]
      exact recognizes_plain seen (by omega)

/-- The only zero is the end, however many bytes it is spelled with. -/
theorem recognizes_count (seen : Nat) : Recognizes (readCount seen) Marks := by
  rw [readCount_eq]
  apply (Varint.recognizes_read.bind fun n _ _ => recognizes_follows seen n).congr
  intro c bytes
  constructor
  · rintro ⟨n, mark, others, rfl, hn, hfollows⟩
    cases c with
    | none =>
      obtain ⟨hzero, rfl⟩ := hfollows
      obtain rfl : n = 0 := Int64.toInt_inj.mp hzero
      rw [List.append_nil]
      exact hn
    | some count =>
      obtain ⟨hcount, rfl⟩ | ⟨hcount, size, hsize⟩ := hfollows
      · rw [List.append_nil]
        exact .plain hcount hn
      · exact .sized hcount hn hsize
  · intro hmark
    cases c with
    | none => exact ⟨0, bytes, [], (List.append_nil _).symm, hmark, rfl, rfl⟩
    | some count =>
      cases hmark with
      | @plain n _ hn hspelled =>
        exact ⟨n, bytes, [], (List.append_nil _).symm, hspelled, .inl ⟨hn, rfl⟩⟩
      | @sized n size mark extent hn hspelled hsize =>
        exact ⟨n, mark, extent, rfl, hspelled, .inr ⟨hn, size, hsize⟩⟩

section

variable {α : Type} {item : Reader α} {form : α → List UInt8 → Prop}

/-- The loop keeps what it has read with the last item first. -/
theorem recognizes_many (h : Recognizes item form) (n : Nat) (done : List α) :
    Recognizes (readMany item n done) fun all bytes =>
      ∃ items, items.length = n ∧ Row form items bytes ∧ all = items.reverse ++ done := by
  induction n generalizing done with
  | zero =>
    apply (Recognizes.pure done).congr
    intro all bytes
    constructor
    · rintro ⟨rfl, rfl⟩
      exact ⟨[], rfl, .nil, rfl⟩
    · rintro ⟨items, hlen, hrow, rfl⟩
      rw [List.length_eq_zero_iff] at hlen
      subst hlen
      cases hrow
      exact ⟨rfl, rfl⟩
  | succ n ih =>
    rw [readMany_succ]
    apply (h.bind fun a _ _ => ih (a :: done)).congr
    intro all bytes
    constructor
    · rintro ⟨a, first, second, rfl, ha, items, rfl, hrow, rfl⟩
      exact ⟨a :: items, rfl, .cons ha hrow, by simp⟩
    · rintro ⟨items, hlen, hrow, rfl⟩
      cases hrow with
      | nil => cases hlen
      | @cons a rest first second ha hrest =>
        exact ⟨a, first, second, rfl, ha, rest, by simpa using hlen, hrest, by simp⟩

/-- The blocks that are still to come give the items behind those that are done. -/
def Remaining (form : α → List UInt8 → Prop) (seen : Nat) (done all : List α)
    (bytes : List UInt8) : Prop :=
  ∃ items, seen + items.length ≤ maxItems ∧ Blocks form items bytes ∧ all = done.reverse ++ items

/-- The items of one block, and those of all blocks after it. -/
def Continued (form : α → List UInt8 → Prop) (seen count : Nat) (done all : List α)
    (bytes : List UInt8) : Prop :=
  ∃ items more body others, items.length = count ∧ Row form items body ∧
    seen + count + more.length ≤ maxItems ∧ Blocks form more others ∧
    all = done.reverse ++ (items ++ more) ∧ bytes = body ++ others

/-- If the blocks after a block are read as they should be, then so are its items with them. -/
theorem recognizes_continued (h : Recognizes item form) {seen count : Nat}
    (hmore : ∀ done, Recognizes (readBlocks item (seen + count) done)
      (Remaining form (seen + count) done)) (done : List α) :
    Recognizes (do readBlocks item (seen + count) (← readMany item count done))
      (Continued form seen count done) := by
  apply ((recognizes_many h count done).bind fun all _ _ => hmore all).congr
  intro all bytes
  constructor
  · rintro ⟨_, body, others, rfl, ⟨items, hlen, hrow, rfl⟩, more, hmax, hblocks, rfl⟩
    exact ⟨items, more, body, others, hlen, hrow, hmax, hblocks, by simp, rfl⟩
  · rintro ⟨items, more, body, others, hlen, hrow, hmax, hblocks, rfl, rfl⟩
    exact ⟨items.reverse ++ done, body, others, rfl, ⟨items, hlen, hrow, rfl⟩, more, hmax, hblocks,
      by simp⟩

/-- After the zero there is nothing, after the head of a block the block and all others. -/
theorem readBlocks_eq (seen : Nat) (done : List α) :
    readBlocks item seen done = (do
      (← readCount seen).elim (return done.reverse) fun count => do
        readBlocks item (seen + count.1) (← readMany item count.1 done)) := by
  rw [readBlocks]
  apply congrArg (readCount seen >>= ·)
  funext count
  cases count <;> rfl

/-- The loop over blocks ends since each block that is not the last uses up some of the limit. -/
theorem recognizes_blocks (h : Recognizes item form) {seen : Nat} (hseen : seen ≤ maxItems)
    (done : List α) : Recognizes (readBlocks item seen done) (Remaining form seen done) := by
  rw [readBlocks_eq]
  have hafter : ∀ count : Option { count // 0 < count ∧ seen + count ≤ maxItems }, Recognizes
      (count.elim (Pure.pure done.reverse) fun count => do
        readBlocks item (seen + count.1) (← readMany item count.1 done))
      fun all bytes => count.elim (all = done.reverse ∧ bytes = []) fun count =>
        Continued form seen count.1 done all bytes := by
    intro count
    cases count with
    | none => exact .pure _
    | some count => exact recognizes_continued h (recognizes_blocks h count.2.2) done
  apply ((recognizes_count seen).bind fun count _ _ => hafter count).congr
  intro all bytes
  constructor
  · rintro ⟨count, mark, others, rfl, hmark, hothers⟩
    cases count with
    | none =>
      obtain ⟨rfl, rfl⟩ := hothers
      rw [List.append_nil]
      exact ⟨[], hseen, .ended hmark, (List.append_nil _).symm⟩
    | some count =>
      obtain ⟨items, more, body, bytes, hlen, hrow, hmax, hmore, rfl, rfl⟩ := hothers
      have hfilled : items ≠ [] := List.length_pos_iff.mp (hlen ▸ count.2.1)
      refine ⟨items ++ more, by rw [List.length_append]; omega, ?_, rfl⟩
      rw [← List.append_assoc]
      exact .block hfilled (by rw [hlen]; exact hmark) hrow hmore
  · rintro ⟨items, hmax, hblocks, rfl⟩
    cases hblocks with
    | ended hmark => exact ⟨none, bytes, [], (List.append_nil _).symm, hmark, by simp⟩
    | @block items more head body others hfilled hheads hrow hmore =>
      rw [List.length_append] at hmax
      have hpos := List.length_pos_iff.mpr hfilled
      refine ⟨some ⟨items.length, hpos, by omega⟩, head, body ++ others, by simp, hheads, ?_⟩
      exact ⟨items, more, body, others, rfl, hrow,
        show seen + items.length + more.length ≤ maxItems by omega, hmore, rfl, rfl⟩
termination_by maxItems - seen
decreasing_by have := count.2; omega

/-- At the start nothing has been read and all of the limit is left. -/
theorem recognizes_collected (h : Recognizes item form) :
    Recognizes (readBlocks item 0 []) (Collected form) := by
  apply (recognizes_blocks h (Nat.zero_le _) []).congr
  intro all bytes
  constructor
  · rintro ⟨items, hmax, hblocks, rfl⟩
    exact ⟨by simpa using hmax, hblocks⟩
  · rintro ⟨hmax, hblocks⟩
    exact ⟨all, by simpa using hmax, hblocks, rfl⟩

end

/-- An entry is a text and then a value. -/
theorem recognizes_entry {value : Reader Value} {form : Value → List UInt8 → Prop}
    (h : Recognizes value form) : Recognizes (readEntry value) (Paired form) := by
  apply (recognizes_text.bind fun key _ _ => h.map (f := fun v => (key, v))).congr
  intro entry bytes
  constructor
  · rintro ⟨key, first, second, rfl, hkey, v, rfl, hv⟩
    exact ⟨first, second, rfl, hkey, hv⟩
  · rintro ⟨first, second, rfl, hkey, hv⟩
    exact ⟨entry.1, first, second, rfl, hkey, entry.2, rfl, hv⟩

end FieldSeal.Wire

namespace FieldSeal

open FieldSeal.Ieee FieldSeal.Wire

/- A power of natural numbers is that of core here, whatever else is in scope. -/
attribute [local instance (high)] instPowNat

/-! ## Values -/

/-- The fields of a record stand one after the other with nothing between them. -/
theorem recognizes_readFields {fields : List Field}
    (h : ∀ f ∈ fields, Recognizes f.schema.read f.schema.LaidOut) :
    Recognizes (readFields fields) (FieldsLaidOut fields) := by
  induction fields with
  | nil => exact .pure []
  | cons f rest ih =>
    obtain ⟨name, position, schema⟩ := f
    obtain ⟨hfirst, hrest⟩ := List.forall_mem_cons.mp h
    apply (hfirst.bind fun v _ _ => (ih hrest).map (f := fun others => v :: others)).congr
    intro vs bytes
    constructor
    · rintro ⟨v, first, second, rfl, hv, others, rfl, hothers⟩
      exact ⟨v, others, first, second, rfl, rfl, hv, hothers⟩
    · rintro ⟨v, others, first, second, rfl, rfl, hv, hothers⟩
      exact ⟨v, first, second, rfl, hv, others, rfl, hothers⟩

theorem readMembers_eq_map (members : List Schema) :
    readMembers members = members.map Schema.read := by
  induction members with
  | nil => rfl
  | cons s rest ih => rw [readMembers, List.map_cons, ih]

theorem ofLittle_lt (bytes : List UInt8) : ByteOrder.ofLittle bytes < 256 ^ bytes.length := by
  induction bytes with
  | nil => exact Nat.zero_lt_one
  | cons b rest ih =>
    have := b.toNat_lt
    rw [ByteOrder.ofLittle, List.length_cons, Nat.pow_succ]
    omega

/-- So many bytes with the lowest first are those of the number that they are. -/
@[simp] theorem little_ofLittle (bytes : List UInt8) :
    ByteOrder.little bytes.length (ByteOrder.ofLittle bytes) = bytes := by
  induction bytes with
  | nil => rfl
  | cons b rest ih =>
    have := b.toNat_lt
    have hlow : (b.toNat + 256 * ByteOrder.ofLittle rest) % 256 = b.toNat := by omega
    have hhigh : (b.toNat + 256 * ByteOrder.ofLittle rest) / 256 = ByteOrder.ofLittle rest := by
      omega
    rw [ByteOrder.ofLittle, List.length_cons, ByteOrder.little, hlow, hhigh, ih,
      UInt8.ofNat_toNat]

/-- What is known by its bits is read from them, the lowest byte first. -/
theorem recognizes_bits {β : Type} (width : Nat) (ofBits : Nat → β) {bits : β → Nat}
    (hlt : ∀ b, bits b < 256 ^ width) (hof : ∀ b, ofBits (bits b) = b)
    (hbits : ∀ n < 256 ^ width, bits (ofBits n) = n) :
    Recognizes (do return ofBits (ByteOrder.ofLittle (← Reader.take width)))
      fun b bytes => bytes = ByteOrder.little width (bits b) := by
  apply ((recognizes_take width).map (f := fun data => ofBits (ByteOrder.ofLittle data))).congr
  intro b bytes
  constructor
  · rintro ⟨data, rfl, rfl, rfl⟩
    rw [hbits _ (ofLittle_lt data), little_ofLittle]
  · rintro rfl
    refine ⟨_, ?_, rfl, ByteOrder.length_little width (bits b)⟩
    rw [ofLittle_little width _ (hlt b), hof b]

theorem recognizes_binary32 :
    Recognizes (do return (⟨UInt32.ofNat (ByteOrder.ofLittle (← Reader.take 4))⟩ : Binary32))
      fun x bytes => bytes = ByteOrder.little 4 x.bits.toNat := by
  apply recognizes_bits 4 fun n => Binary32.mk (UInt32.ofNat n)
  · exact fun x => x.bits.toNat_lt
  · exact fun x => by rw [UInt32.ofNat_toNat]
  · exact fun n hn => UInt32.toNat_ofNat_of_lt' hn

theorem recognizes_binary64 :
    Recognizes (do return (⟨UInt64.ofNat (ByteOrder.ofLittle (← Reader.take 8))⟩ : Binary64))
      fun x bytes => bytes = ByteOrder.little 8 x.bits.toNat := by
  apply recognizes_bits 8 fun n => Binary64.mk (UInt64.ofNat n)
  · exact fun x => x.bits.toNat_lt
  · exact fun x => by rw [UInt64.ofNat_toNat]
  · exact fun n hn => UInt64.toNat_ofNat_of_lt' hn

/-! ## One kind of schema after another -/

namespace Schema

theorem recognizes_read_boolean : Recognizes boolean.read boolean.LaidOut := by
  rw [read]
  apply (recognizes_boolean.map (f := Value.boolean)).congr
  intro v bytes
  constructor
  · rintro ⟨b, rfl, ⟨rfl, hbytes⟩ | ⟨rfl, hbytes⟩⟩
    · exact .inl ⟨rfl, hbytes⟩
    · exact .inr ⟨rfl, hbytes⟩
  · rintro (⟨rfl, hbytes⟩ | ⟨rfl, hbytes⟩)
    · exact ⟨false, rfl, .inl ⟨rfl, hbytes⟩⟩
    · exact ⟨true, rfl, .inr ⟨rfl, hbytes⟩⟩

theorem recognizes_read_float : Recognizes float.read float.LaidOut := by
  have h := recognizes_binary32.map (f := Value.float)
  simp only [bind_assoc, pure_bind] at h
  exact h

theorem recognizes_read_double : Recognizes double.read double.LaidOut := by
  have h := recognizes_binary64.map (f := Value.double)
  simp only [bind_assoc, pure_bind] at h
  exact h

/-- Tagged or not, a string is a text on the wire. The tag only says what the text becomes. -/
theorem recognizes_read_string (tag : Option Tag) :
    Recognizes (string tag).read (string tag).LaidOut := by
  rcases tag with _ | _ | _
  · exact recognizes_text.map (f := Value.string)
  · exact recognizes_text.map (f := Tag.inline.ofWire)
  · exact recognizes_text.map (f := Tag.typed.ofWire)

theorem recognizes_read_record {type : RecordType}
    (hfields : ∀ f ∈ type.fields, Recognizes f.schema.read f.schema.LaidOut) :
    Recognizes (record type).read (record type).LaidOut := by
  obtain ⟨name, fields⟩ := type
  rw [read, RecordType.read]
  apply (((recognizes_readFields hfields).map (f := Record.mk ⟨name, fields⟩)).map
    (f := Value.record)).congr
  intro v bytes
  constructor
  · rintro ⟨_, rfl, vs, rfl, hvs⟩
    exact ⟨vs, rfl, hvs⟩
  · rintro ⟨vs, rfl, hvs⟩
    exact ⟨_, rfl, vs, rfl, hvs⟩

/-- The entries may come in any order and name a key twice: what the reader makes of them is what
they gather to. -/
theorem recognizes_read_map {values : Schema} (hvalues : Recognizes values.read values.LaidOut) :
    Recognizes (map values).read (map values).LaidOut := by
  rw [read]
  apply ((recognizes_collected (recognizes_entry hvalues)).map
    (f := fun listed => Value.map (Table.ofList listed))).congr
  intro v bytes
  constructor
  · rintro ⟨listed, rfl, hlisted⟩
    exact ⟨listed, _, rfl, Table.gathers_ofList listed, hlisted⟩
  · rintro ⟨listed, entries, rfl, hgathers, hlisted⟩
    exact ⟨listed, by rw [Table.gathers_iff.mp hgathers], hlisted⟩

/-- The reader of a union is that of the member with the index. -/
theorem read_union (members : List Schema) : (union members).read
    = (do let s ← readIndex members .invalidUnionBranch; s.read) := by
  rw [read, readMembers_eq_map, readIndex_map]
  simp only [bind_assoc, pure_bind]

theorem recognizes_read_union {members : List Schema}
    (hmembers : ∀ s ∈ members, Recognizes s.read s.LaidOut) :
    Recognizes (union members).read (union members).LaidOut := by
  have hchosen : ∀ s mark, Chosen members s mark → Recognizes s.read s.LaidOut := by
    rintro s _ ⟨_, _, -, -, hs⟩
    exact hmembers s (List.mem_of_getElem? hs)
  rw [read_union]
  apply ((recognizes_index members .invalidUnionBranch).bind hchosen).congr
  intro v bytes
  rw [laidOut_union]
  constructor
  · rintro ⟨s, mark, body, rfl, hs, hv⟩
    exact ⟨s, mark, body, hs, hv, rfl⟩
  · rintro ⟨s, mark, body, hs, hv, rfl⟩
    exact ⟨s, mark, body, rfl, hs, hv⟩

theorem recognizes_read_fixed (type : FixedType) :
    Recognizes (fixed type).read (fixed type).LaidOut := by
  rw [read]
  apply ((recognizes_take type.size).map (f := Value.fixed)).congr
  intro v bytes
  constructor
  · rintro ⟨data, rfl, rfl, hlen⟩
    exact ⟨rfl, hlen⟩
  · rintro ⟨rfl, hlen⟩
    exact ⟨bytes, rfl, rfl, hlen⟩

/-- **A schema's reader takes the layouts of its values and nothing else**, wherever they stand. -/
theorem recognizes_read (s : Schema) : Recognizes s.read s.LaidOut := by
  induction s using Schema.induction with
  | null => exact .pure Value.null
  | boolean => exact recognizes_read_boolean
  | int => exact recognizes_int.map (f := Value.int)
  | long => exact Varint.recognizes_read.map (f := Value.long)
  | float => exact recognizes_read_float
  | double => exact recognizes_read_double
  | bytes => exact recognizes_bytes.map (f := Value.bytes)
  | string tag => exact recognizes_read_string tag
  | record type ih => exact recognizes_read_record ih
  | array items ih => exact (recognizes_collected ih).map (f := Value.array)
  | map values ih => exact recognizes_read_map ih
  | union members ih => exact recognizes_read_union ih
  | enum type => exact (recognizes_index type.symbols .unknownSymbol).map (f := Value.enum)
  | fixed type => exact recognizes_read_fixed type

end Schema

/-- Two layouts that start the same bytes are the same one, of the same value. -/
theorem Schema.LaidOut.unique {s : Schema} {v v' : Value} {bytes bytes' rest rest' : List UInt8}
    (h : s.LaidOut v bytes) (h' : s.LaidOut v' bytes') (heq : bytes ++ rest = bytes' ++ rest') :
    v = v' ∧ bytes = bytes' :=
  s.recognizes_read.unique h h' heq

/-- **Decoding accepts exactly the layout**: the bytes are the value's if and only if they are laid
out as the schema says, all of them. -/
theorem Schema.decode_eq_ok_iff (s : Schema) (v : Value) (bytes : List UInt8) :
    s.decode bytes = .ok v ↔ s.LaidOut v bytes := by
  show (s.read ⟨bytes, .ended⟩ >>= fun p =>
    if p.2.bytes.isEmpty then Except.ok p.1 else .error (.trailingBytes p.2.bytes.length)) = .ok v ↔ _
  constructor
  · intro h
    cases hread : s.read ⟨bytes, .ended⟩ with
    | error e =>
      rw [hread] at h
      cases h
    | ok p =>
      obtain ⟨v', after⟩ := p
      obtain ⟨taken, rest, rfl, hv, rfl⟩ := (s.recognizes_read bytes .ended v' after).mp hread
      rw [hread] at h
      change (if rest.isEmpty then Except.ok v' else _) = _ at h
      by_cases hrest : rest.isEmpty
      · rw [if_pos hrest] at h
        injection h with h
        rw [List.isEmpty_iff.mp hrest, List.append_nil, ← h]
        exact hv
      · rw [if_neg hrest] at h
        cases h
  · intro hv
    have hread := (s.recognizes_read bytes .ended v ⟨[], .ended⟩).mpr
      ⟨bytes, [], (List.append_nil bytes).symm, hv, rfl⟩
    rw [hread]
    rfl

end FieldSeal
