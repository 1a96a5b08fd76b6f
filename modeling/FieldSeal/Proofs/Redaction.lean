import FieldSeal.Proofs.Value.Texts
import FieldSeal.Proofs.Wire.Emission
import FieldSeal.Rendering.Write

/-!
# What has not been encrypted does not get out

Two values that differ in unencrypted texts only cannot be told apart by what the writers make of
them: not by the bytes, not by the branch that is taken at a union, not by the failure, and not by
the part of a value that is on the sink when a writer fails. A writer that refused such a text
could still give it away in any of these, so the statement is about two runs and not about a search
for the text in the bytes of one.

`Value.redact` puts the empty text in the place of every unencrypted one; values that are equal but
for such texts are those that it makes equal. So it is enough to show that a writer does not see
the redaction, which is one run at a time.

Nothing is said here about texts under the inline tag. They have no mark, and whether a walk
reaches each of them before they are written is what `Walk/Coverage` is about.
-/

set_option autoImplicit false

namespace FieldSeal

open FieldSeal.Wire

namespace TaggedText

/-- The text without what has not been encrypted. -/
def redact : TaggedText → TaggedText
  | .plain _ => .plain ""
  | .encrypted text => .encrypted text

end TaggedText

/-- The value with the empty text for each text that is marked as plain. -/
abbrev Value.redact (v : Value) : Value := v.mapTexts id TaggedText.redact

/-- The one place where a writer meets an unencrypted text: what it says there does not depend on
it. -/
@[simp] theorem Tag.toWire_redact (tag : Tag) (v : Value) : tag.toWire v.redact = tag.toWire v := by
  cases v with
  | tagged t => cases tag <;> cases t <;> rfl
  | _ => cases tag <;> simp [toWire]

/-! ## The wire -/

mutual

theorem Schema.write_redact : ∀ (s : Schema) (v : Value), s.write v.redact = s.write v
  | .string (some tag), v => by
    rw [Schema.write, Schema.write, Tag.toWire_redact]
  | .record type, v => by
    cases v with
    | record r =>
      rw [Value.redact, Value.mapTexts, Schema.write, Schema.write, RecordType.write_redact type r]
    | _ => simp [Schema.write, Schema.mismatch]
  | .array items, v => by
    cases v with
    | array vs =>
      have h : items.write ∘ Value.redact = items.write := funext (Schema.write_redact items)
      rw [Value.redact, Value.mapTexts, Schema.write, Schema.write, mapTextsOfItems_eq_map,
        writeBlock_map, h]
    | _ => simp [Schema.write, Schema.mismatch]
  | .map values, v => by
    cases v with
    | map es =>
      have h : (writeEntry values.write ∘ fun e => (e.1, e.2.redact))
          = writeEntry values.write := by
        funext e
        rw [Function.comp_apply, writeEntry, writeEntry, Schema.write_redact values e.2]
      rw [Value.redact, Value.mapTexts, Schema.write, Schema.write, mapTextsOfEntries_eq_map,
        writeBlock_map, h]
    | _ => simp [Schema.write, Schema.mismatch]
  | .union members, v => by rw [Schema.write, Schema.write, writeMember_redact 0 members v]
  | .null, v | .boolean, v | .int, v | .long, v | .float, v | .double, v | .bytes, v
  | .string none, v | .enum _, v | .fixed _, v => by
    cases v <;> simp [Schema.write, Schema.mismatch]

theorem RecordType.write_redact : ∀ (type : RecordType) (r : Record),
    type.write (r.mapTexts id TaggedText.redact) = type.write r
  | ⟨name, fields⟩, r => by
    simp [RecordType.write, writeFields_redact fields r, Schema.mismatch]

theorem writeFields_redact : ∀ (fields : List Field) (r : Record),
    writeFields fields (r.mapTexts id TaggedText.redact) = writeFields fields r
  | [], r => by rw [writeFields, writeFields]
  | ⟨name, position, schema⟩ :: rest, r => by
    rw [writeFields, writeFields, Record.get?_mapTexts]
    cases r.get? position with
    | none => rfl
    | some v => simp only [Option.map_some, Schema.write_redact schema v, writeFields_redact rest r]

theorem writeMember_redact : ∀ (index : Nat) (members : List Schema) (v : Value),
    writeMember index members v.redact = writeMember index members v
  | index, [], v => by rw [writeMember, writeMember, Value.kind_mapTexts]
  | index, s :: rest, v => by
    rw [writeMember, writeMember, Schema.accepts_mapTexts, Schema.write_redact s v,
      writeMember_redact (index + 1) rest v]

end

/-! ## JSON -/

theorem renderItems_map (f : Value → Value) (item : Value → Except Failure Json) (vs : List Value) :
    renderItems item (vs.map f) = renderItems (item ∘ f) vs := by
  induction vs with
  | nil => rfl
  | cons v rest ih => rw [List.map_cons, renderItems, renderItems, ih, Function.comp_apply]

theorem renderEntries_map (f : Value → Value) (value : Value → Except Failure Json)
    (es : List (String × Value)) :
    renderEntries value (es.map fun e => (e.1, f e.2)) = renderEntries (value ∘ f) es := by
  induction es with
  | nil => rfl
  | cons e rest ih =>
    obtain ⟨key, v⟩ := e
    rw [List.map_cons, renderEntries, renderEntries, ih, Function.comp_apply]

mutual

theorem Schema.toJson_redact : ∀ (s : Schema) (v : Value),
    s.toJson .wire v.redact = s.toJson .wire v
  | .string (some tag), v => by
    rw [Schema.toJson, Schema.toJson, Rendering.toText, Rendering.toText, Tag.toWire_redact]
  | .record type, v => by
    cases v with
    | record r =>
      rw [Value.redact, Value.mapTexts, Schema.toJson, Schema.toJson,
        RecordType.toJson_redact type r]
    | _ => simp [Schema.toJson, Schema.mismatch]
  | .array items, v => by
    cases v with
    | array vs =>
      have h : items.toJson .wire ∘ Value.redact = items.toJson .wire :=
        funext (Schema.toJson_redact items)
      rw [Value.redact, Value.mapTexts, Schema.toJson, Schema.toJson, mapTextsOfItems_eq_map,
        renderItems_map, h]
    | _ => simp [Schema.toJson, Schema.mismatch]
  | .map values, v => by
    cases v with
    | map es =>
      have h : values.toJson .wire ∘ Value.redact = values.toJson .wire :=
        funext (Schema.toJson_redact values)
      rw [Value.redact, Value.mapTexts, Schema.toJson, Schema.toJson, mapTextsOfEntries_eq_map,
        renderEntries_map, h]
    | _ => simp [Schema.toJson, Schema.mismatch]
  | .union members, v => by rw [Schema.toJson, Schema.toJson, memberToJson_redact members v]
  | .null, v | .boolean, v | .int, v | .long, v | .float, v | .double, v | .bytes, v
  | .string none, v | .enum _, v | .fixed _, v => by
    cases v <;> simp [Schema.toJson, Schema.mismatch]

theorem RecordType.toJson_redact : ∀ (type : RecordType) (r : Record),
    type.toJson .wire (r.mapTexts id TaggedText.redact) = type.toJson .wire r
  | ⟨name, fields⟩, r => by
    simp [RecordType.toJson, fieldsToJson_redact fields r, Schema.mismatch]

theorem fieldsToJson_redact : ∀ (fields : List Field) (r : Record),
    fieldsToJson .wire fields (r.mapTexts id TaggedText.redact) = fieldsToJson .wire fields r
  | [], r => by rw [fieldsToJson, fieldsToJson]
  | ⟨name, position, schema⟩ :: rest, r => by
    rw [fieldsToJson, fieldsToJson, Record.get?_mapTexts]
    cases r.get? position with
    | none => rfl
    | some v =>
      simp only [Option.map_some, Schema.toJson_redact schema v, fieldsToJson_redact rest r]

theorem memberToJson_redact : ∀ (members : List Schema) (v : Value),
    memberToJson .wire members v.redact = memberToJson .wire members v
  | [], v => by rw [memberToJson, memberToJson, Value.kind_mapTexts]
  | s :: rest, v => by
    rw [memberToJson, memberToJson, Schema.accepts_mapTexts, Schema.toJson_redact s v,
      memberToJson_redact rest v]

end

/-! ## Two runs -/

/-- The values are equal except for the texts that are marked as plain. -/
def Value.EqualButPlain (v w : Value) : Prop := v.redact = w.redact

/-- **Unencrypted texts do not get out.** Values that are equal but for them put the same bytes on
every sink, also on one that is full half-way, and end in the same result or the same failure; and
they have the same wire JSON or the same failure in its place. -/
theorem Schema.write_noninterference (s : Schema) {v w : Value} (h : v.EqualButPlain w) :
    s.write v = s.write w ∧
      (∀ sink : Sink, sink.accept (s.write v) = sink.accept (s.write w)) ∧
      s.encode v = s.encode w ∧
      s.toJson .wire v = s.toJson .wire w := by
  have hw : s.write v = s.write w := by
    rw [← s.write_redact v, ← s.write_redact w, h]
  refine ⟨hw, fun sink => by rw [hw], by rw [encode, encode, hw], ?_⟩
  rw [← s.toJson_redact v, ← s.toJson_redact w, h]

/-- One byte is out, and then both are refused in the same words. -/
theorem Schema.write_noninterference_array :
    let s : Schema := .array (.string (some .typed))
    let v : Value := .array [.tagged (.plain "secret")]
    let w : Value := .array [.tagged (.plain "other")]
    s.write v = ⟨[2], some (.schema .plainOnWire)⟩ ∧ s.write v = s.write w ∧
      s.toJson .wire v = s.toJson .wire w := by
  intro s v w
  have h : v.EqualButPlain w := by
    simp [v, w, Value.EqualButPlain, mapTextsOfItems, TaggedText.redact]
  have hs := s.write_noninterference h
  exact ⟨by rfl, hs.1, hs.2.2.2⟩

end FieldSeal
