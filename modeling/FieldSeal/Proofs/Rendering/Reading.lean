import FieldSeal.Proofs.Json.Ordered
import FieldSeal.Proofs.Schema.Resolution
import FieldSeal.Proofs.Value.Fitting
import FieldSeal.Rendering.Read

/-!
# What is read from JSON fits the schema

Each loop of the reader gives one value for each thing that it goes over, and each of them is what
the schema of its place reads. That is all a record, an array, a map or a union needs to know of the
schemas inside it, so there is one lemma for each kind of schema (`Schema.ReadsFit`), and what has
been read fits by induction (`Schema.fits_of_fromJson`). The document has to be in order, since a
map takes over the order of its object.
-/

set_option autoImplicit false

namespace FieldSeal

/-! ## The loops of the reader -/

/-- Each item of what has been read was read from an item of the document. -/
theorem mem_of_readItems {item : Json → Except CodecError Value} : ∀ {js : List Json}
    {vs : List Value}, readItems item js = .ok vs → ∀ v ∈ vs, ∃ j ∈ js, item j = .ok v
  | [], _, h => by
    cases h
    exact fun _ hv => absurd hv List.not_mem_nil
  | j :: rest, _, h => by
    obtain ⟨v, hv, h⟩ := bind_eq_ok.mp h
    obtain ⟨vs, hvs, h⟩ := bind_eq_ok.mp h
    cases h
    refine List.forall_mem_cons.mpr ⟨⟨j, List.mem_cons_self, hv⟩, fun v hmem => ?_⟩
    obtain ⟨j', hj', hread⟩ := mem_of_readItems hvs v hmem
    exact ⟨j', List.mem_cons_of_mem _ hj', hread⟩

/-- The entries that have been read have the keys of the object, in its order, and each value was
read from a member. -/
theorem mem_of_readEntries {value : Json → Except CodecError Value} :
    ∀ {js : List (String × Json)} {es : List (String × Value)}, readEntries value js = .ok es →
      es.map (·.1) = js.map (·.1) ∧ ∀ e ∈ es, ∃ e' ∈ js, value e'.2 = .ok e.2
  | [], _, h => by
    cases h
    exact ⟨rfl, fun _ he => absurd he List.not_mem_nil⟩
  | (key, j) :: rest, _, h => by
    obtain ⟨v, hv, h⟩ := bind_eq_ok.mp h
    obtain ⟨es, hes, h⟩ := bind_eq_ok.mp h
    cases h
    obtain ⟨hkeys, hmem⟩ := mem_of_readEntries hes
    refine ⟨by rw [List.map_cons, List.map_cons, hkeys], List.forall_mem_cons.mpr ⟨?_, ?_⟩⟩
    · exact ⟨(key, j), List.mem_cons_self, hv⟩
    · intro e he
      obtain ⟨e', he', hread⟩ := hmem e he
      exact ⟨e', List.mem_cons_of_mem _ he', hread⟩

variable {rendering : Rendering}

/-- There is one value for each field, and it was read from the member with the name of the field,
wherever in the object that is. -/
theorem getElem?_of_fieldsFromJson {members : Table Json} : ∀ {fields : List Field}
    {vs : List Value}, fieldsFromJson rendering fields members = .ok vs →
      vs.length = fields.length ∧ ∀ (i : Nat) (f : Field) (v : Value), fields[i]? = some f →
        vs[i]? = some v →
          ∃ j, Table.get? f.name members = some j ∧ f.schema.fromJson rendering j = .ok v
  | [], _, h => by
    cases h
    exact ⟨rfl, fun i f v hf => by cases hf⟩
  | ⟨name, position, schema⟩ :: rest, _, h => by
    rw [fieldsFromJson] at h
    cases hget : Table.get? name members with
    | none =>
      rw [hget] at h
      cases h
    | some j =>
      rw [hget] at h
      obtain ⟨v, hv, h⟩ := bind_eq_ok.mp h
      obtain ⟨vs, hvs, h⟩ := bind_eq_ok.mp h
      cases h
      obtain ⟨hlength, hrest⟩ := getElem?_of_fieldsFromJson hvs
      refine ⟨by rw [List.length_cons, List.length_cons, hlength], fun i f v' hf hv' => ?_⟩
      cases i with
      | zero =>
        cases hf
        cases hv'
        exact ⟨j, hget, hv⟩
      | succ i => exact hrest i f v' hf hv'

/-- What has been read at a union was read by a member. Nothing here says which: the first of the
name, but any other of that name would do as well. -/
theorem mem_of_memberFromJson {branch : String} {j : Json} {v : Value} :
    ∀ {members : List Schema}, memberFromJson rendering members branch j = .ok v →
      ∃ s ∈ members, s.fromJson rendering j = .ok v
  | [], h => by cases h
  | s :: rest, h => by
    rw [memberFromJson] at h
    split at h
    · exact ⟨s, List.mem_cons_self, h⟩
    · obtain ⟨t, ht, hread⟩ := mem_of_memberFromJson h
      exact ⟨t, List.mem_cons_of_mem _ ht, hread⟩

/-! ## One kind of schema after another -/

/-- Whatever the schema reads from a document in order, fits the schema. -/
def Schema.ReadsFit (rendering : Rendering) (s : Schema) : Prop :=
  ∀ (j : Json) (v : Value), j.Ordered → s.fromJson rendering j = .ok v → s.Fits rendering v

namespace Schema.ReadsFit

theorem null : ReadsFit rendering .null := by
  intro j v _ h
  cases j <;> cases h
  exact .null

theorem boolean : ReadsFit rendering .boolean := by
  intro j v _ h
  cases j <;> cases h
  exact .boolean _

theorem int : ReadsFit rendering .int := by
  intro j v _ h
  cases j with
  | number n =>
    rw [fromJson] at h
    split at h <;> cases h
    exact .int _
  | _ => cases h

theorem long : ReadsFit rendering .long := by
  intro j v _ h
  cases j with
  | number n =>
    rw [fromJson] at h
    split at h <;> cases h
    exact .long _
  | _ => cases h

theorem float : ReadsFit rendering .float := by
  intro j v _ h
  cases j <;> cases h
  exact .float _

theorem double : ReadsFit rendering .double := by
  intro j v _ h
  cases j <;> cases h
  exact .double _

theorem bytes : ReadsFit rendering .bytes := by
  intro j v _ h
  cases j with
  | string text =>
    obtain ⟨data, -, rfl⟩ := map_eq_ok.mp h
    exact .bytes data
  | _ => cases h

/-- A tagged string is what the rendering makes of a text under the tag, so it cannot carry a mark
that is not for that tag. -/
theorem string (tag : Option Tag) : ReadsFit rendering (.string tag) := by
  intro j v _ h
  cases j with
  | string text =>
    cases tag with
    | none =>
      cases h
      exact .string text
    | some tag =>
      cases h
      exact .ofText tag text
  | _ => cases h

/-- The record that is read has the type of the place, so the only question is its fields. -/
theorem record {type : RecordType} (hfields : ∀ f ∈ type.fields, f.schema.ReadsFit rendering) :
    ReadsFit rendering (.record type) := by
  intro j v hj h
  cases j with
  | object members =>
    obtain ⟨r, hr, rfl⟩ := map_eq_ok.mp h
    obtain ⟨name, fields⟩ := type
    obtain ⟨vs, hvs, hr⟩ := bind_eq_ok.mp hr
    cases hr
    obtain ⟨hlength, hread⟩ := getElem?_of_fieldsFromJson hvs
    refine .record hlength fun i f v hf hv => ?_
    obtain ⟨j, hget, hread⟩ := hread i f v hf hv
    exact hfields f (List.mem_of_getElem? hf) j v (hj.member hget) hread
  | _ => cases h

theorem array {items : Schema} (hitems : items.ReadsFit rendering) :
    ReadsFit rendering (.array items) := by
  intro j v hj h
  cases j with
  | array js =>
    obtain ⟨vs, hvs, rfl⟩ := map_eq_ok.mp h
    rw [Json.Ordered, Json.orderedItems_iff] at hj
    refine .array fun v hv => ?_
    obtain ⟨j, hmem, hread⟩ := mem_of_readItems hvs v hv
    exact hitems j v (hj j hmem) hread
  | _ => cases h

/-- The keys are those of the object, and that is the order they have to be in. -/
theorem map {values : Schema} (hvalues : values.ReadsFit rendering) :
    ReadsFit rendering (.map values) := by
  intro j v hj h
  cases j with
  | object members =>
    obtain ⟨es, hes, rfl⟩ := map_eq_ok.mp h
    obtain ⟨hkeys, hmem⟩ := mem_of_readEntries hes
    rw [Json.Ordered, Json.orderedMembers_iff] at hj
    refine .map ?_ fun e he => ?_
    · have hascending := List.pairwise_map.mpr hj.1
      rw [← hkeys] at hascending
      exact List.pairwise_map.mp hascending
    · obtain ⟨e', he', hread⟩ := hmem e he
      exact hvalues _ _ (hj.2 e' he') hread
  | _ => cases h

/-- A document at a union is `null`, which a null member has to be there for, or an object with one
member, whose name is that of a branch. -/
theorem union {members : List Schema} (hmembers : ∀ m ∈ members, m.ReadsFit rendering) :
    ReadsFit rendering (.union members) := by
  intro j v hj h
  unfold Schema.fromJson at h
  split at h
  · split at h
    next hnull =>
      cases h
      obtain ⟨m, hm, hnull⟩ := List.any_eq_true.mp hnull
      cases m <;> cases hnull
      exact .member hm .null
    next => cases h
  next branch inner =>
    rw [Json.Ordered, Json.orderedMembers_iff] at hj
    obtain ⟨m, hm, hread⟩ := mem_of_memberFromJson h
    exact .member hm (hmembers m hm inner v (hj.2 _ List.mem_cons_self) hread)
  next => cases h

theorem enum (type : EnumType) : ReadsFit rendering (.enum type) := by
  intro j v _ h
  cases j with
  | string symbol =>
    rw [fromJson] at h
    split at h <;> cases h
    next hsymbol => exact .enum (by simpa using hsymbol)
  | _ => cases h

theorem fixed (type : FixedType) : ReadsFit rendering (.fixed type) := by
  intro j v _ h
  cases j with
  | string text =>
    obtain ⟨data, -, h⟩ := bind_eq_ok.mp h
    split at h <;> cases h
    next hlength => exact .fixed hlength
  | _ => cases h

end Schema.ReadsFit

theorem Schema.readsFit (s : Schema) : s.ReadsFit rendering := by
  induction s using Schema.induction with
  | null => exact .null
  | boolean => exact .boolean
  | int => exact .int
  | long => exact .long
  | float => exact .float
  | double => exact .double
  | bytes => exact .bytes
  | string tag => exact .string tag
  | record type ih => exact .record ih
  | array items ih => exact .array ih
  | map values ih => exact .map ih
  | union members ih => exact .union ih
  | enum type => exact .enum type
  | fixed type => exact .fixed type

/-- **What is read from JSON fits the schema.** -/
theorem Schema.fits_of_fromJson {s : Schema} {j : Json} {v : Value} (hj : j.Ordered)
    (h : s.fromJson rendering j = .ok v) : s.Fits rendering v :=
  s.readsFit j v hj h

end FieldSeal
