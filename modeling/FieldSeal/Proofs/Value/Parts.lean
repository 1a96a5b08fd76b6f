import FieldSeal.Proofs.Schema.Nodes
import FieldSeal.Utf8
import FieldSeal.Value.Basic

/-!
# The parts of a value

`Value.parts` lists a value and then every value inside it, depth first. It is to values what
`Schema.nodes` is to schemas, and "anywhere in the value" is said of this list: no text in it that
is marked as encrypted, no collection in it above a size. A path names one part by where it is.
Walks and writers go along different schemas, and the one thing that they have in common is the
value, so whether they come to the same places is a question about paths.

`Value.Belongs` collects what can be taken for granted of a value that is used with a schema. Two
of its fields hold of every value there is: the constructors keep one regular, and nothing in
memory has a length of `2^63`. The third is the user's part: the types of the records in the value
are those that the schema has, which is so when each record carries the type of the place where it
sits.
-/

set_option autoImplicit false

namespace FieldSeal

/- A power of natural numbers is that of core here, whatever else is in scope. -/
attribute [local instance (high)] instPowNat

mutual

/-- The value and all values inside it. -/
@[simp] def Value.parts : Value → List Value
  | .record r => .record r :: r.parts
  | .array items => .array items :: partsOfItems items
  | .map entries => .map entries :: partsOfEntries entries
  | v => [v]

@[simp] def Record.parts : Record → List Value
  | ⟨_, fields⟩ => partsOfItems fields

@[simp] def partsOfItems : List Value → List Value
  | [] => []
  | v :: rest => v.parts ++ partsOfItems rest

@[simp] def partsOfEntries : List (String × Value) → List Value
  | [] => []
  | (_, v) :: rest => v.parts ++ partsOfEntries rest

end

@[simp] theorem Value.mem_parts_self (v : Value) : v ∈ v.parts := by
  cases v <;> simp

@[simp] theorem mem_partsOfItems {x : Value} {vs : List Value} :
    x ∈ partsOfItems vs ↔ ∃ v ∈ vs, x ∈ v.parts := by
  induction vs with
  | nil => simp
  | cons v rest ih => simp [ih]

@[simp] theorem mem_partsOfEntries {x : Value} {es : List (String × Value)} :
    x ∈ partsOfEntries es ↔ ∃ e ∈ es, x ∈ e.2.parts := by
  induction es with
  | nil => simp
  | cons e rest ih =>
    obtain ⟨key, v⟩ := e
    simp [ih]

namespace Value

theorem parts_field {r : Record} {v : Value} (h : v ∈ r.fields) :
    v.parts ⊆ (Value.record r).parts := by
  obtain ⟨type, fields⟩ := r
  intro x hx
  rw [parts, Record.parts]
  exact List.mem_cons_of_mem _ (mem_partsOfItems.mpr ⟨v, h, hx⟩)

theorem parts_item {items : List Value} {v : Value} (h : v ∈ items) :
    v.parts ⊆ (Value.array items).parts := by
  intro x hx
  rw [parts]
  exact List.mem_cons_of_mem _ (mem_partsOfItems.mpr ⟨v, h, hx⟩)

theorem parts_entry {entries : List (String × Value)} {e : String × Value} (h : e ∈ entries) :
    e.2.parts ⊆ (Value.map entries).parts := by
  intro x hx
  rw [parts]
  exact List.mem_cons_of_mem _ (mem_partsOfEntries.mpr ⟨e, h, hx⟩)

end Value

/-- The values of the fields from a position on, one by one. -/
theorem Record.get?_of_drop {r : Record} {position : Nat} {v : Value} {rest : List Value}
    (h : r.fields.drop position = v :: rest) :
    r.get? position = some v ∧ r.fields.drop (position + 1) = rest := by
  constructor
  · have hhead := congrArg List.head? h
    rwa [List.head?_drop, List.head?_cons] at hhead
  · rw [← List.drop_drop, h, List.drop_one, List.tail_cons]

/-! ## Paths -/

/-- The way to a part of a value: at each level the index of the field, item or entry. -/
abbrev Path := List Nat

/-- The path of the same part when something is put in front of the list that it leads into. -/
def Path.next : Path → Path
  | [] => []
  | i :: path => (i + 1) :: path

namespace Value

def at? : Path → Value → Option Value
  | [], v => some v
  | i :: path, .record ⟨_, fields⟩ => fields[i]?.bind (at? path)
  | i :: path, .array items => items[i]?.bind (at? path)
  | i :: path, .map entries => entries[i]?.bind fun e => at? path e.2
  | _ :: _, _ => none

theorem mem_parts_of_at? {path : Path} {v x : Value} (h : at? path v = some x) : x ∈ v.parts := by
  induction path generalizing v with
  | nil =>
    rw [at?, Option.some.injEq] at h
    exact h ▸ v.mem_parts_self
  | cons i path ih =>
    cases v with
    | record r =>
      obtain ⟨type, fields⟩ := r
      obtain ⟨v, hv, hx⟩ := Option.bind_eq_some_iff.mp h
      exact parts_field (r := ⟨type, fields⟩) (List.mem_of_getElem? hv) (ih hx)
    | array items =>
      obtain ⟨v, hv, hx⟩ := Option.bind_eq_some_iff.mp h
      exact parts_item (List.mem_of_getElem? hv) (ih hx)
    | map entries =>
      obtain ⟨e, he, hx⟩ := Option.bind_eq_some_iff.mp h
      exact parts_entry (List.mem_of_getElem? he) (ih hx)
    | _ => simp [at?] at h

/-! Every part has a path, though not one of its own: a value may be in another twice. -/

mutual

theorem exists_at? : ∀ (v : Value) {x : Value}, x ∈ v.parts → ∃ path, at? path v = some x
  | .record ⟨type, fields⟩, x, h => by
    rw [parts, Record.parts, List.mem_cons] at h
    obtain rfl | h := h
    · exact ⟨[], rfl⟩
    · obtain ⟨i, path, hx⟩ := exists_at?_items fields h
      exact ⟨i :: path, hx⟩
  | .array items, x, h => by
    rw [parts, List.mem_cons] at h
    obtain rfl | h := h
    · exact ⟨[], rfl⟩
    · obtain ⟨i, path, hx⟩ := exists_at?_items items h
      exact ⟨i :: path, hx⟩
  | .map entries, x, h => by
    rw [parts, List.mem_cons] at h
    obtain rfl | h := h
    · exact ⟨[], rfl⟩
    · obtain ⟨i, path, hx⟩ := exists_at?_entries entries h
      exact ⟨i :: path, hx⟩
  | .null, x, h | .boolean _, x, h | .int _, x, h | .long _, x, h | .float _, x, h
  | .double _, x, h | .bytes _, x, h | .string _, x, h | .tagged _, x, h | .enum _, x, h
  | .fixed _, x, h => by
    simp only [parts, List.mem_singleton] at h
    exact ⟨[], by rw [h, at?]⟩

theorem exists_at?_items : ∀ (vs : List Value) {x : Value}, x ∈ partsOfItems vs →
    ∃ (i : Nat) (path : Path), vs[i]?.bind (at? path) = some x
  | [], x, h => by simp at h
  | v :: rest, x, h => by
    rw [partsOfItems, List.mem_append] at h
    obtain h | h := h
    · obtain ⟨path, hx⟩ := exists_at? v h
      exact ⟨0, path, hx⟩
    · obtain ⟨i, path, hx⟩ := exists_at?_items rest h
      exact ⟨i + 1, path, hx⟩

theorem exists_at?_entries : ∀ (es : List (String × Value)) {x : Value}, x ∈ partsOfEntries es →
    ∃ (i : Nat) (path : Path), es[i]?.bind (fun e => at? path e.2) = some x
  | [], x, h => by simp at h
  | (key, v) :: rest, x, h => by
    rw [partsOfEntries, List.mem_append] at h
    obtain h | h := h
    · obtain ⟨path, hx⟩ := exists_at? v h
      exact ⟨0, path, hx⟩
    · obtain ⟨i, path, hx⟩ := exists_at?_entries rest h
      exact ⟨i + 1, path, hx⟩

end

/-! ## Regular values -/

@[simp] theorem regularItems_iff {vs : List Value} : RegularItems vs ↔ ∀ v ∈ vs, v.Regular := by
  induction vs with
  | nil => simp [RegularItems]
  | cons v rest ih => simp [RegularItems, ih]

@[simp] theorem regularEntries_iff {es : List (String × Value)} :
    RegularEntries es ↔ ∀ e ∈ es, e.2.Regular := by
  induction es with
  | nil => simp [RegularEntries]
  | cons e rest ih =>
    obtain ⟨key, v⟩ := e
    simp [RegularEntries, ih]

/-! ## Lengths -/

/-- The lengths that a part of a value has by itself, those of texts in bytes. -/
def lengths : Value → List Nat
  | .bytes data => [data.length]
  | .string text => [(Utf8.encode text).length]
  | .tagged t => [(Utf8.encode t.text).length]
  | .array items => [items.length]
  | .map entries => entries.length :: entries.map fun e => (Utf8.encode e.1).length
  | .fixed data => [data.length]
  | _ => []

/-- The lengths that a value announces on the wire. That of a fixed value is in the schema. -/
def announced : Value → List Nat
  | .fixed _ => []
  | v => v.lengths

theorem announced_subset (v : Value) : v.announced ⊆ v.lengths := by
  cases v <;> simp [announced]

/-- All lengths in the value are lengths of things that can be in memory. -/
def Addressable (v : Value) : Prop := ∀ x ∈ v.parts, ∀ n ∈ x.lengths, n < 2 ^ (63 : Nat)

/-- The number of items of an array or entries of a map. -/
@[simp] def count : Value → Nat
  | .array items => items.length
  | .map entries => entries.length
  | _ => 0

/-- No array and no map in the value has more items than the given number. -/
def Within (limit : Nat) (v : Value) : Prop := ∀ x ∈ v.parts, x.count ≤ limit

end Value

/-- The lengths of the lists of a schema by itself. -/
def Schema.lengths : Schema → List Nat
  | .union members => [members.length]
  | .enum type => [type.symbols.length]
  | _ => []

/-- All lists in the schema have lengths of things that can be in memory. -/
def Schema.Addressable (s : Schema) : Prop := ∀ x ∈ s.nodes, ∀ n ∈ x.lengths, n < 2 ^ (63 : Nat)

/-! ## Values for a schema -/

/-- The records in the value carry types that the schema has. -/
def Value.TypesIn (s : Schema) (v : Value) : Prop :=
  ∀ r, Value.record r ∈ v.parts → Schema.record r.type ∈ s.nodes

namespace Value.TypesIn

variable {s : Schema}

theorem field {r : Record} {v : Value} (h : (Value.record r).TypesIn s) (hv : v ∈ r.fields) :
    v.TypesIn s :=
  fun r' hr' => h r' (parts_field hv hr')

theorem item {items : List Value} {v : Value} (h : (Value.array items).TypesIn s) (hv : v ∈ items) :
    v.TypesIn s :=
  fun r' hr' => h r' (parts_item hv hr')

theorem entry {entries : List (String × Value)} {e : String × Value}
    (h : (Value.map entries).TypesIn s) (he : e ∈ entries) : e.2.TypesIn s :=
  fun r' hr' => h r' (parts_entry he hr')

end Value.TypesIn

/-- What is asked of a value that is to be used with a schema. It is not that the value conforms. -/
structure Value.Belongs (s : Schema) (v : Value) : Prop where
  regular : v.Regular
  types : v.TypesIn s
  addressable : v.Addressable

/-- What a reader needs of a value to give it back: of the lengths, only those that are announced. -/
structure Value.Legible (s : Schema) (v : Value) : Prop where
  regular : v.Regular
  types : v.TypesIn s
  announced : ∀ x ∈ v.parts, ∀ n ∈ x.announced, n < 2 ^ (63 : Nat)

theorem Value.Belongs.legible {s : Schema} {v : Value} (h : v.Belongs s) : v.Legible s :=
  ⟨h.regular, h.types, fun x hx n hn => h.addressable x hx n (x.announced_subset hn)⟩

namespace Value.Legible

variable {s : Schema}

theorem length_fields {r : Record} (h : (Value.record r).Legible s) :
    r.fields.length = r.type.fields.length := by
  obtain ⟨type, fields⟩ := r
  have hr := h.regular
  rw [Regular] at hr
  exact hr.1

theorem field {r : Record} {v : Value} (h : (Value.record r).Legible s) (hv : v ∈ r.fields) :
    v.Legible s where
  regular := by
    obtain ⟨type, fields⟩ := r
    have hr := h.regular
    rw [Regular] at hr
    exact regularItems_iff.mp hr.2 v hv
  types := h.types.field hv
  announced x hx := h.announced x (parts_field hv hx)

theorem item {items : List Value} {v : Value} (h : (Value.array items).Legible s) (hv : v ∈ items) :
    v.Legible s where
  regular := by
    have hr := h.regular
    rw [Regular] at hr
    exact regularItems_iff.mp hr v hv
  types := h.types.item hv
  announced x hx := h.announced x (parts_item hv hx)

theorem entry {entries : List (String × Value)} {e : String × Value}
    (h : (Value.map entries).Legible s) (he : e ∈ entries) : e.2.Legible s where
  regular := by
    have hr := h.regular
    rw [Regular] at hr
    exact regularEntries_iff.mp hr.2 e he
  types := h.types.entry he
  announced x hx := h.announced x (parts_entry he hx)

end Value.Legible

end FieldSeal
