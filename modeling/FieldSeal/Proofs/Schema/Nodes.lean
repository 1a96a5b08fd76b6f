import FieldSeal.Schema.Basic

/-!
# The nodes of a schema

A schema is a tree without references, so "somewhere in it" has one plain reading: `Schema.nodes`
lists the schema itself and then every schema below it, depth first, the fields of a record and the
members of a union in their order. Whatever is said of "every record in `s`" or "every named type in
`s`" is said of this list.

`WellFormed` is what the parser owes the rest of the library (`Schema.wellFormed_of_ofJson` pays
it): a field stands at its own position under a name that no other field of the record has, and a
type name has one definition. Both are facts about *all* nodes, so an induction over a value can
stay at one root schema and go down to subtrees that have all their nodes in it.
-/

set_option autoImplicit false

namespace FieldSeal

/-- Induction on schemas, with a hypothesis for each field of a record and each member of a union.
-/
theorem Schema.induction {motive : Schema → Prop} (null : motive .null) (boolean : motive .boolean)
    (int : motive .int) (long : motive .long) (float : motive .float) (double : motive .double)
    (bytes : motive .bytes) (string : ∀ tag, motive (.string tag))
    (record : ∀ type : RecordType, (∀ f ∈ type.fields, motive f.schema) → motive (.record type))
    (array : ∀ items, motive items → motive (.array items))
    (map : ∀ values, motive values → motive (.map values))
    (union : ∀ members, (∀ m ∈ members, motive m) → motive (.union members))
    (enum : ∀ type, motive (.enum type)) (fixed : ∀ type, motive (.fixed type)) (s : Schema) :
    motive s := by
  match s with
  | .null => exact null
  | .boolean => exact boolean
  | .int => exact int
  | .long => exact long
  | .float => exact float
  | .double => exact double
  | .bytes => exact bytes
  | .string tag => exact string tag
  | .record ⟨name, fields⟩ =>
    refine record _ fun ⟨field, position, schema⟩ hf => ?_
    have hsize : sizeOf schema < sizeOf fields := by
      refine Nat.lt_trans ?_ (List.sizeOf_lt_of_mem hf)
      rw [Field.mk.sizeOf_spec]
      omega
    exact Schema.induction null boolean int long float double bytes string record array map union
      enum fixed schema
  | .array items =>
    exact array _ (Schema.induction null boolean int long float double bytes string record array map
      union enum fixed items)
  | .map values =>
    exact map _ (Schema.induction null boolean int long float double bytes string record array map
      union enum fixed values)
  | .union members =>
    refine union _ fun m hm => ?_
    have hsize := List.sizeOf_lt_of_mem hm
    exact Schema.induction null boolean int long float double bytes string record array map union
      enum fixed m
  | .enum type => exact enum type
  | .fixed type => exact fixed type
termination_by sizeOf s

mutual

/-- The schema and all schemas below it. -/
@[simp] def Schema.nodes : Schema → List Schema
  | .record type => .record type :: type.nodes
  | .array items => .array items :: items.nodes
  | .map values => .map values :: values.nodes
  | .union members => .union members :: memberNodes members
  | s => [s]

@[simp] def RecordType.nodes : RecordType → List Schema
  | ⟨_, fields⟩ => fieldNodes fields

@[simp] def fieldNodes : List Field → List Schema
  | [] => []
  | ⟨_, _, schema⟩ :: rest => schema.nodes ++ fieldNodes rest

@[simp] def memberNodes : List Schema → List Schema
  | [] => []
  | s :: rest => s.nodes ++ memberNodes rest

end

@[simp] theorem Schema.mem_nodes_self (s : Schema) : s ∈ s.nodes := by
  cases s <;> simp

@[simp] theorem mem_fieldNodes {s : Schema} {fields : List Field} :
    s ∈ fieldNodes fields ↔ ∃ f ∈ fields, s ∈ f.schema.nodes := by
  induction fields with
  | nil => simp
  | cons f rest ih =>
    obtain ⟨_, _, schema⟩ := f
    simp [ih]

@[simp] theorem mem_memberNodes {s : Schema} {members : List Schema} :
    s ∈ memberNodes members ↔ ∃ m ∈ members, s ∈ m.nodes := by
  induction members with
  | nil => simp
  | cons m rest ih => simp [ih]

@[simp] theorem RecordType.mem_nodes {s : Schema} {type : RecordType} :
    s ∈ type.nodes ↔ ∃ f ∈ type.fields, s ∈ f.schema.nodes := by
  cases type
  exact mem_fieldNodes

theorem Schema.nodes_trans {x y s : Schema} (hy : y ∈ x.nodes) (hx : x ∈ s.nodes) :
    y ∈ s.nodes := by
  induction s using Schema.induction with
  | record type ih =>
    rw [nodes, List.mem_cons, RecordType.mem_nodes] at hx
    rcases hx with rfl | ⟨f, hf, hx⟩
    · exact hy
    · rw [nodes, List.mem_cons, RecordType.mem_nodes]
      exact .inr ⟨f, hf, ih f hf hx⟩
  | array items ih =>
    rw [nodes, List.mem_cons] at hx
    rcases hx with rfl | hx
    · exact hy
    · rw [nodes, List.mem_cons]
      exact .inr (ih hx)
  | map values ih =>
    rw [nodes, List.mem_cons] at hx
    rcases hx with rfl | hx
    · exact hy
    · rw [nodes, List.mem_cons]
      exact .inr (ih hx)
  | union members ih =>
    rw [nodes, List.mem_cons, mem_memberNodes] at hx
    rcases hx with rfl | ⟨m, hm, hx⟩
    · exact hy
    · rw [nodes, List.mem_cons, mem_memberNodes]
      exact .inr ⟨m, hm, ih m hm hx⟩
  | null | boolean | int | long | float | double | bytes | string _ | enum _ | fixed _ =>
    rw [List.mem_singleton.mp hx] at hy
    exact hy

theorem Schema.nodes_subset {x s : Schema} (hx : x ∈ s.nodes) : x.nodes ⊆ s.nodes := by
  intro y hy
  exact nodes_trans hy hx

/-! ## One step down -/

@[simp] theorem Schema.mem_nodes_items (items : Schema) : items ∈ (Schema.array items).nodes := by
  rw [Schema.nodes]
  exact List.mem_cons_of_mem _ items.mem_nodes_self

@[simp] theorem Schema.mem_nodes_values (values : Schema) : values ∈ (Schema.map values).nodes := by
  rw [Schema.nodes]
  exact List.mem_cons_of_mem _ values.mem_nodes_self

theorem Schema.memberNodes_subset (members : List Schema) :
    memberNodes members ⊆ (Schema.union members).nodes := by
  rw [Schema.nodes]
  exact List.subset_cons_self _ _

theorem Schema.mem_nodes_member {s : Schema} {members : List Schema} (h : s ∈ members) :
    s ∈ (Schema.union members).nodes := by
  apply memberNodes_subset members
  exact mem_memberNodes.mpr ⟨s, h, s.mem_nodes_self⟩

theorem RecordType.nodes_subset (type : RecordType) : type.nodes ⊆ (Schema.record type).nodes := by
  rw [Schema.nodes]
  exact List.subset_cons_self _ _

theorem Schema.mem_nodes_field {f : Field} {type : RecordType} (h : f ∈ type.fields) :
    f.schema ∈ (Schema.record type).nodes := by
  apply type.nodes_subset
  exact RecordType.mem_nodes.mpr ⟨f, h, f.schema.mem_nodes_self⟩

/-! ## Well-formed schemas -/

/-- The whole name of a named type. -/
def Schema.fullName? : Schema → Option String
  | .record type => some type.name.full
  | .enum type => some type.name.full
  | .fixed type => some type.name.full
  | _ => none

/-- Each field stands at the index that it has among the fields. -/
def RecordType.Positioned (type : RecordType) : Prop :=
  ∀ (i : Nat) (f : Field), type.fields[i]? = some f → f.position = i

/-- No two fields share a position, and none a name. -/
structure RecordType.WellFormed (type : RecordType) : Prop where
  positioned : type.Positioned
  distinct : (type.fields.map (·.name)).Nodup

/-- What every schema that has been read from a document satisfies. -/
structure Schema.WellFormed (s : Schema) : Prop where
  records : ∀ type, Schema.record type ∈ s.nodes → type.WellFormed
  /-- Two nodes of one name are the same definition. -/
  oneDefinition : ∀ x ∈ s.nodes, ∀ y ∈ s.nodes, ∀ name,
    x.fullName? = some name → y.fullName? = some name → x = y

namespace Schema.WellFormed

theorem positioned {s : Schema} (h : s.WellFormed) (type : RecordType)
    (ht : Schema.record type ∈ s.nodes) : type.Positioned := (h.records type ht).positioned

theorem record_eq {s : Schema} (h : s.WellFormed) {t u : RecordType} (ht : .record t ∈ s.nodes)
    (hu : .record u ∈ s.nodes) (hn : t.name.full = u.name.full) : t = u := by
  have hname : (Schema.record t).fullName? = some u.name.full := by rw [fullName?, hn]
  exact Schema.record.inj (h.oneDefinition _ ht _ hu u.name.full hname rfl)

end Schema.WellFormed

end FieldSeal
