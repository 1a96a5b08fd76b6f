import FieldSeal.Error
import FieldSeal.Wire.Encode

/-!
# Values that differ in texts

`Value.mapTexts` puts other texts in the place of those in a value, by one function for bare
strings and one for marked ones, and leaves all else. What a value is like apart from its texts is
what such a map does not change: its kind, the schemas that accept it, the shape of its records.
These lemmas are stated once for any two functions; the maps that are of use are instances.
-/

set_option autoImplicit false

namespace FieldSeal

mutual

/-- The value with other texts: one function for bare strings, one for marked ones. -/
@[simp] def Value.mapTexts (f : String → String) (g : TaggedText → TaggedText) : Value → Value
  | .string text => .string (f text)
  | .tagged t => .tagged (g t)
  | .record r => .record (r.mapTexts f g)
  | .array items => .array (mapTextsOfItems f g items)
  | .map entries => .map (mapTextsOfEntries f g entries)
  | v => v

@[simp] def Record.mapTexts (f : String → String) (g : TaggedText → TaggedText) : Record → Record
  | ⟨type, fields⟩ => ⟨type, mapTextsOfItems f g fields⟩

def mapTextsOfItems (f : String → String) (g : TaggedText → TaggedText) : List Value → List Value
  | [] => []
  | v :: rest => v.mapTexts f g :: mapTextsOfItems f g rest

def mapTextsOfEntries (f : String → String) (g : TaggedText → TaggedText) :
    List (String × Value) → List (String × Value)
  | [] => []
  | (key, v) :: rest => (key, v.mapTexts f g) :: mapTextsOfEntries f g rest

end

@[simp] theorem membersAccept_eq_true {members : List Schema} {v : Value} :
    membersAccept members v = true ↔ ∃ m ∈ members, m.accepts v = true := by
  induction members with
  | nil => simp [membersAccept]
  | cons m rest ih => simp [membersAccept, ih]

/-- The value with every text empty and, where it is marked, encrypted. -/
abbrev Value.shape (v : Value) : Value := v.mapTexts (fun _ => "") fun _ => .encrypted ""

section

variable (f : String → String) (g : TaggedText → TaggedText)

@[simp] theorem mapTextsOfItems_eq_map (vs : List Value) :
    mapTextsOfItems f g vs = vs.map (Value.mapTexts f g) := by
  induction vs with
  | nil => rfl
  | cons v rest ih => rw [mapTextsOfItems, ih, List.map_cons]

@[simp] theorem mapTextsOfEntries_eq_map (es : List (String × Value)) :
    mapTextsOfEntries f g es = es.map fun e => (e.1, e.2.mapTexts f g) := by
  induction es with
  | nil => rfl
  | cons e rest ih =>
    obtain ⟨key, v⟩ := e
    rw [mapTextsOfEntries, ih, List.map_cons]

@[simp] theorem Record.type_mapTexts (r : Record) : (r.mapTexts f g).type = r.type := by
  cases r
  rw [mapTexts]

@[simp] theorem Record.fields_mapTexts (r : Record) :
    (r.mapTexts f g).fields = r.fields.map (Value.mapTexts f g) := by
  cases r
  rw [mapTexts, mapTextsOfItems_eq_map]

@[simp] theorem Record.get?_mapTexts (r : Record) (position : Nat) :
    (r.mapTexts f g).get? position = (r.get? position).map (Value.mapTexts f g) := by
  simp [get?]

@[simp] theorem Value.kind_mapTexts (v : Value) : (v.mapTexts f g).kind = v.kind := by
  cases v <;> simp

@[simp] theorem Tag.isInstance_mapTexts (tag : Tag) (v : Value) :
    tag.isInstance (v.mapTexts f g) = tag.isInstance v := by
  cases v <;> cases tag <;> simp [isInstance]

mutual

/-- The branch of a union is chosen without a look at a text. -/
@[simp] theorem Schema.accepts_mapTexts : ∀ (s : Schema) (v : Value),
    s.accepts (v.mapTexts f g) = s.accepts v
  | .union members, v => by rw [Schema.accepts, Schema.accepts, membersAccept_mapTexts members v]
  | .string (some tag), v => by rw [Schema.accepts, Schema.accepts, Tag.isInstance_mapTexts]
  | .null, v | .boolean, v | .int, v | .long, v | .float, v | .double, v | .bytes, v
  | .string none, v | .record _, v | .array _, v | .map _, v | .enum _, v | .fixed _, v => by
    cases v <;> simp [Schema.accepts]

theorem membersAccept_mapTexts : ∀ (members : List Schema) (v : Value),
    membersAccept members (v.mapTexts f g) = membersAccept members v
  | [], v => by rw [membersAccept, membersAccept]
  | s :: rest, v => by
    rw [membersAccept, membersAccept, Schema.accepts_mapTexts s v, membersAccept_mapTexts rest v]

end

end

/-! ## Maps one after the other -/

mutual

theorem Value.mapTexts_mapTexts (f f' : String → String) (g g' : TaggedText → TaggedText) :
    ∀ v : Value, (v.mapTexts f g).mapTexts f' g' = v.mapTexts (f' ∘ f) (g' ∘ g)
  | .record r => by
    simp only [Value.mapTexts, Record.mapTexts_mapTexts f f' g g' r]
  | .array items => by
    simp only [Value.mapTexts, mapTextsOfItems_mapTexts f f' g g' items]
  | .map entries => by
    simp only [Value.mapTexts, mapTextsOfEntries_mapTexts f f' g g' entries]
  | .null | .boolean _ | .int _ | .long _ | .float _ | .double _ | .bytes _ | .string _ | .tagged _
  | .enum _ | .fixed _ => by simp

theorem Record.mapTexts_mapTexts (f f' : String → String) (g g' : TaggedText → TaggedText) :
    ∀ r : Record, (r.mapTexts f g).mapTexts f' g' = r.mapTexts (f' ∘ f) (g' ∘ g)
  | ⟨_, fields⟩ => by
    simp only [Record.mapTexts, mapTextsOfItems_mapTexts f f' g g' fields]

theorem mapTextsOfItems_mapTexts (f f' : String → String) (g g' : TaggedText → TaggedText) :
    ∀ vs : List Value,
      mapTextsOfItems f' g' (mapTextsOfItems f g vs) = mapTextsOfItems (f' ∘ f) (g' ∘ g) vs
  | [] => by simp only [mapTextsOfItems]
  | v :: rest => by
    simp only [mapTextsOfItems, Value.mapTexts_mapTexts f f' g g' v,
      mapTextsOfItems_mapTexts f f' g g' rest]

theorem mapTextsOfEntries_mapTexts (f f' : String → String) (g g' : TaggedText → TaggedText) :
    ∀ es : List (String × Value),
      mapTextsOfEntries f' g' (mapTextsOfEntries f g es) = mapTextsOfEntries (f' ∘ f) (g' ∘ g) es
  | [] => by simp only [mapTextsOfEntries]
  | (key, v) :: rest => by
    simp only [mapTextsOfEntries, Value.mapTexts_mapTexts f f' g g' v,
      mapTextsOfEntries_mapTexts f f' g g' rest]

end

end FieldSeal
