import FieldSeal.Proofs.Value.Parts
import FieldSeal.Proofs.Value.Texts

/-!
# Values of one shape

Values that differ in texts only have one shape, and much of what is asked of a value is asked of
its shape: that it is regular, that its records carry the types of a schema, that its collections
are within a limit. A path leads to parts of one shape in both. So a value that a walk has been
through is as good as it was before, but for the lengths of its texts, which have to be looked at
by themselves (`Value.Addressable.congr`).
-/

set_option autoImplicit false

namespace FieldSeal

/- A power of natural numbers is that of core here, whatever else is in scope. -/
attribute [local instance (high)] instPowNat

section

variable (f : String → String) (g : TaggedText → TaggedText)

mutual

theorem Value.parts_mapTexts : ∀ v : Value,
    (v.mapTexts f g).parts = v.parts.map (Value.mapTexts f g)
  | .record r => by
    simp only [Value.mapTexts, Value.parts, List.map_cons, Record.parts_mapTexts r]
  | .array items => by
    simp only [Value.mapTexts, Value.parts, List.map_cons, partsOfItems_mapTexts items]
  | .map entries => by
    simp only [Value.mapTexts, Value.parts, List.map_cons, partsOfEntries_mapTexts entries]
  | .null | .boolean _ | .int _ | .long _ | .float _ | .double _ | .bytes _ | .string _ | .tagged _
  | .enum _ | .fixed _ => by simp

theorem Record.parts_mapTexts : ∀ r : Record,
    (r.mapTexts f g).parts = r.parts.map (Value.mapTexts f g)
  | ⟨_, fields⟩ => by simp only [Record.mapTexts, Record.parts, partsOfItems_mapTexts fields]

theorem partsOfItems_mapTexts : ∀ vs : List Value,
    partsOfItems (mapTextsOfItems f g vs) = (partsOfItems vs).map (Value.mapTexts f g)
  | [] => by simp only [mapTextsOfItems, partsOfItems, List.map_nil]
  | v :: rest => by
    simp only [mapTextsOfItems, partsOfItems, List.map_append, Value.parts_mapTexts v,
      partsOfItems_mapTexts rest]

theorem partsOfEntries_mapTexts : ∀ es : List (String × Value),
    partsOfEntries (mapTextsOfEntries f g es) = (partsOfEntries es).map (Value.mapTexts f g)
  | [] => by simp only [mapTextsOfEntries, partsOfEntries, List.map_nil]
  | (_, v) :: rest => by
    simp only [mapTextsOfEntries, partsOfEntries, List.map_append, Value.parts_mapTexts v,
      partsOfEntries_mapTexts rest]

end

theorem Value.at?_mapTexts (path : Path) (v : Value) :
    at? path (v.mapTexts f g) = (at? path v).map (Value.mapTexts f g) := by
  induction path generalizing v with
  | nil => rfl
  | cons i path ih =>
    cases v with
    | record r =>
      obtain ⟨type, fields⟩ := r
      simp only [mapTexts, Record.mapTexts, at?, mapTextsOfItems_eq_map, List.getElem?_map]
      cases fields[i]? with
      | none => rfl
      | some v => exact ih v
    | array items =>
      simp only [mapTexts, at?, mapTextsOfItems_eq_map, List.getElem?_map]
      cases items[i]? with
      | none => rfl
      | some v => exact ih v
    | map entries =>
      simp only [mapTexts, at?, mapTextsOfEntries_eq_map, List.getElem?_map]
      cases entries[i]? with
      | none => rfl
      | some e => exact ih e.2
    | _ => simp [at?]

mutual

theorem Value.regular_mapTexts : ∀ v : Value, (v.mapTexts f g).Regular ↔ v.Regular
  | .record ⟨type, fields⟩ => by
    simp only [Value.mapTexts, Record.mapTexts, Value.Regular, regularItems_mapTexts fields]
    rw [mapTextsOfItems_eq_map, List.length_map]
  | .array items => by
    simp only [Value.mapTexts, Value.Regular, regularItems_mapTexts items]
  | .map entries => by
    simp only [Value.mapTexts, Value.Regular, regularEntries_mapTexts entries]
    rw [mapTextsOfEntries_eq_map, Table.Ascending, List.pairwise_map, Table.Ascending]
  | .null | .boolean _ | .int _ | .long _ | .float _ | .double _ | .bytes _ | .string _ | .tagged _
  | .enum _ | .fixed _ => by simp [Value.Regular]

theorem regularItems_mapTexts : ∀ vs : List Value,
    Value.RegularItems (mapTextsOfItems f g vs) ↔ Value.RegularItems vs
  | [] => by simp only [mapTextsOfItems]
  | v :: rest => by
    simp only [mapTextsOfItems, Value.RegularItems, Value.regular_mapTexts v,
      regularItems_mapTexts rest]

theorem regularEntries_mapTexts : ∀ es : List (String × Value),
    Value.RegularEntries (mapTextsOfEntries f g es) ↔ Value.RegularEntries es
  | [] => by simp only [mapTextsOfEntries]
  | (_, v) :: rest => by
    simp only [mapTextsOfEntries, Value.RegularEntries, Value.regular_mapTexts v,
      regularEntries_mapTexts rest]

end

end

/-! ## Maps that leave the texts as they are -/

section

variable {g : TaggedText → TaggedText}

mutual

theorem Value.mapTexts_eq_self : ∀ v : Value, (∀ t, Value.tagged t ∈ v.parts → g t = t) →
    v.mapTexts id g = v
  | .record r, h => by
    rw [Value.mapTexts, Record.mapTexts_eq_self r fun t ht => h t (List.mem_cons_of_mem _ ht)]
  | .array items, h => by
    rw [Value.mapTexts, mapTextsOfItems_eq_self items fun t ht => h t (List.mem_cons_of_mem _ ht)]
  | .map entries, h => by
    rw [Value.mapTexts,
      mapTextsOfEntries_eq_self entries fun t ht => h t (List.mem_cons_of_mem _ ht)]
  | .tagged t, h => by rw [Value.mapTexts, h t (Value.mem_parts_self _)]
  | .null, _ | .boolean _, _ | .int _, _ | .long _, _ | .float _, _ | .double _, _ | .bytes _, _
  | .string _, _ | .enum _, _ | .fixed _, _ => by simp

theorem Record.mapTexts_eq_self : ∀ r : Record, (∀ t, Value.tagged t ∈ r.parts → g t = t) →
    r.mapTexts id g = r
  | ⟨_, fields⟩, h => by rw [Record.mapTexts, mapTextsOfItems_eq_self fields h]

theorem mapTextsOfItems_eq_self : ∀ vs : List Value,
    (∀ t, Value.tagged t ∈ partsOfItems vs → g t = t) → mapTextsOfItems id g vs = vs
  | [], _ => by rw [mapTextsOfItems]
  | v :: rest, h => by
    rw [mapTextsOfItems, Value.mapTexts_eq_self v fun t ht => h t (List.mem_append_left _ ht),
      mapTextsOfItems_eq_self rest fun t ht => h t (List.mem_append_right _ ht)]

theorem mapTextsOfEntries_eq_self : ∀ es : List (String × Value),
    (∀ t, Value.tagged t ∈ partsOfEntries es → g t = t) → mapTextsOfEntries id g es = es
  | [], _ => by rw [mapTextsOfEntries]
  | (key, v) :: rest, h => by
    rw [mapTextsOfEntries, Value.mapTexts_eq_self v fun t ht => h t (List.mem_append_left _ ht),
      mapTextsOfEntries_eq_self rest fun t ht => h t (List.mem_append_right _ ht)]

end

end

@[simp] theorem Value.mapTexts_id (v : Value) : v.mapTexts id (fun t => t) = v :=
  v.mapTexts_eq_self fun _ _ => rfl

/-! ## Values of one shape -/

namespace Value

variable {v w : Value}

/-- Every part of a value has a part of its shape in a value of one shape. -/
theorem exists_part_of_shape_eq (h : w.shape = v.shape) {x : Value} (hx : x ∈ w.parts) :
    ∃ y ∈ v.parts, x.shape = y.shape := by
  have hparts : ∀ u : Value, u.shape.parts = u.parts.map Value.shape := parts_mapTexts _ _
  have hm : x.shape ∈ v.parts.map Value.shape := by
    rw [← hparts, ← h, hparts]
    exact List.mem_map_of_mem hx
  obtain ⟨y, hy, he⟩ := List.mem_map.mp hm
  exact ⟨y, hy, he.symm⟩

theorem Regular.congr (hv : v.Regular) (h : w.shape = v.shape) : w.Regular := by
  have hshape : ∀ u : Value, u.shape.Regular ↔ u.Regular := regular_mapTexts _ _
  rw [← hshape, h, hshape]
  exact hv

theorem Within.congr {limit : Nat} (hv : v.Within limit) (h : w.shape = v.shape) :
    w.Within limit := by
  have hcount : ∀ x : Value, x.shape.count = x.count := by
    intro x
    cases x <;> simp
  intro x hx
  obtain ⟨y, hy, he⟩ := exists_part_of_shape_eq h hx
  rw [← hcount x, he, hcount y]
  exact hv y hy

theorem TypesIn.congr {s : Schema} (hv : v.TypesIn s) (h : w.shape = v.shape) : w.TypesIn s := by
  intro r hr
  obtain ⟨y, hy, he⟩ := exists_part_of_shape_eq h hr
  cases y with
  | record r' =>
    have ht : r.type = r'.type := by
      simpa using congrArg Record.type (Value.record.inj he)
    rw [ht]
    exact hv r' hy
  | _ => simp at he

/-- Whether the value is a text, bare or marked. -/
@[simp] def isText : Value → Bool
  | .string _ => true
  | .tagged _ => true
  | _ => false

@[simp] theorem isText_shape (v : Value) : v.shape.isText = v.isText := by
  cases v <;> simp

theorem lengths_eq_of_shape_eq (h : w.shape = v.shape) (hw : w.isText = false) :
    w.lengths = v.lengths := by
  have hshape : ∀ u : Value, u.isText = false → u.shape.lengths = u.lengths := by
    intro u hu
    cases u <;> simp_all [isText, mapTexts, lengths, mapTextsOfItems_eq_map,
      mapTextsOfEntries_eq_map, Function.comp_def]
  rw [← hshape w hw, h, hshape v]
  rw [← isText_shape, ← h, isText_shape, hw]

/-- What is not a text has the lengths of its shape, so only texts are in question. -/
theorem Addressable.congr (hv : v.Addressable) (h : w.shape = v.shape)
    (ht : ∀ x ∈ w.parts, x.isText = true → ∀ n ∈ x.lengths, n < 2 ^ (63 : Nat)) :
    w.Addressable := by
  intro x hx n hn
  cases hi : x.isText with
  | true => exact ht x hx hi n hn
  | false =>
    obtain ⟨y, hy, he⟩ := exists_part_of_shape_eq h hx
    rw [lengths_eq_of_shape_eq he hi] at hn
    exact hv y hy n hn

end Value

end FieldSeal
