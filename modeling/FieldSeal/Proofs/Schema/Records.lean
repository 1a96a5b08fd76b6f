import FieldSeal.Proofs.Schema.References
import FieldSeal.Schema.Equality
import Mathlib.Data.List.Nodup

/-!
# The records of a schema

`Schema.records` turns back at every name that it has met, and it has to: a definition stands in the
tree at each place that refers to it. What it turns back from is not in question as long as a name has
one definition. But it may have met a record without having been through it, when it is still inside,
and then it would lose what is yet to come. That does not happen where no record is inside itself.

So the walk is compared with one that turns back nowhere, `Schema.recordTypes`, and of which later
occurrences are dropped. `Met` is what holds on the way: a record that has been met is either larger
than what is being walked, as all those around it are, or has been walked to its end. The record that
is met again is not larger than itself.
-/

set_option autoImplicit false

namespace FieldSeal

/-! ## The walk of the whole tree -/

def Schema.record? : Schema → Option RecordType
  | .record type => some type
  | _ => none

@[simp] theorem Schema.record?_eq_some {s : Schema} {type : RecordType} :
    s.record? = some type ↔ s = .record type := by
  cases s <;> simp [record?]

/-- The record types that stand in a schema, as often as they stand there: depth first, outer ones
first, fields in order. -/
def Schema.recordTypes (s : Schema) : List RecordType := s.nodes.filterMap Schema.record?

@[simp] theorem Schema.mem_recordTypes {s : Schema} {type : RecordType} :
    type ∈ s.recordTypes ↔ .record type ∈ s.nodes := by
  simp [recordTypes]

/-- Types that come one after the other, each one taken in when it is new. -/
def addNew (found types : List RecordType) : List RecordType :=
  types.foldl (fun found type => if type ∈ found then found else found ++ [type]) found

theorem addNew_append (found types others : List RecordType) :
    addNew found (types ++ others) = addNew (addNew found types) others := List.foldl_append

theorem addNew_cons (found : List RecordType) (type : RecordType) (rest : List RecordType) :
    addNew found (type :: rest) = addNew (if type ∈ found then found else found ++ [type]) rest := rfl

@[simp] theorem mem_addNew {type : RecordType} {found types : List RecordType} :
    type ∈ addNew found types ↔ type ∈ found ∨ type ∈ types := by
  induction types generalizing found with
  | nil => simp [addNew]
  | cons first rest ih =>
    rw [addNew_cons, ih]
    split
    next h =>
      rw [List.mem_cons]
      constructor
      · exact Or.imp_right .inr
      · rintro (hfound | rfl | hrest)
        · exact .inl hfound
        · exact .inl h
        · exact .inr hrest
    next => rw [List.mem_append, List.mem_singleton, List.mem_cons, or_assoc]

theorem nodup_addNew {found : List RecordType} (types : List RecordType) (h : found.Nodup) :
    (addNew found types).Nodup := by
  induction types generalizing found with
  | nil => exact h
  | cons first rest ih =>
    rw [addNew_cons]
    split
    next => exact ih h
    next hnew => exact ih (List.nodup_append.mpr ⟨h, by simp, fun a ha b hb hab =>
      hnew (List.mem_singleton.mp hb ▸ hab ▸ ha)⟩)

theorem addNew_of_subset {found types : List RecordType} (h : types ⊆ found) :
    addNew found types = found := by
  induction types with
  | nil => rfl
  | cons first rest ih =>
    obtain ⟨hfirst, hrest⟩ := List.cons_subset.mp h
    rw [addNew_cons, if_pos hfirst, ih hrest]

/-- Types that are taken in when they are new are those of the row without its repetitions. -/
theorem addNew_eq (found types : List RecordType) :
    addNew found types = found ++ (types.filter (· ∉ found)).eraseDups := by
  induction types generalizing found with
  | nil => simp [addNew]
  | cons first rest ih =>
    rw [addNew_cons, ih]
    by_cases h : first ∈ found
    · rw [if_pos h, List.filter_cons_of_neg (by simpa using h)]
    · have hnew : (rest.filter (· ∉ found)).filter (fun type => !type == first)
          = rest.filter (· ∉ found ++ [first]) := by
        rw [List.filter_filter]
        refine List.filter_congr fun type _ => ?_
        by_cases heq : type = first <;> simp [heq]
      rw [if_neg h, List.filter_cons_of_pos (by simpa using h), List.eraseDups_cons, hnew,
        List.append_assoc, List.singleton_append]

@[simp] theorem addNew_nil (types : List RecordType) : addNew [] types = types.eraseDups := by
  rw [addNew_eq, List.nil_append, List.filter_eq_self.mpr (by simp)]

/-! ## The walk that turns back -/

/-- What has been met on the way to a schema of this size: records of the root, each of them larger
or with all records in it met as well. -/
structure Met (root : Schema) (size : Nat) (found : List RecordType) : Prop where
  stands : ∀ t ∈ found, Schema.record t ∈ root.nodes
  entered : ∀ t ∈ found, size < sizeOf (Schema.record t) ∨ (Schema.record t).recordTypes ⊆ found

namespace Met

variable {root : Schema} {size : Nat} {found : List RecordType}

theorem empty (root : Schema) (size : Nat) : Met root size [] :=
  ⟨fun _ h => absurd h List.not_mem_nil, fun _ h => absurd h List.not_mem_nil⟩

theorem smaller {size' : Nat} (h : Met root size found) (hle : size' ≤ size) :
    Met root size' found :=
  ⟨h.stands, fun t ht => (h.entered t ht).imp_left (Nat.lt_of_le_of_lt hle)⟩

/-- A schema that has been walked leaves nothing half done. -/
theorem walked (h : Met root size found) {s : Schema} (hs : s ∈ root.nodes) :
    Met root size (addNew found s.recordTypes) where
  stands t ht := by
    rcases mem_addNew.mp ht with ht | ht
    · exact h.stands t ht
    · exact Schema.nodes_trans (Schema.mem_recordTypes.mp ht) hs
  entered t ht := by
    rcases mem_addNew.mp ht with ht | ht
    · refine (h.entered t ht).imp_right fun hall u hu => mem_addNew.mpr (.inl (hall hu))
    · refine .inr fun u hu => mem_addNew.mpr (.inr ?_)
      rw [Schema.mem_recordTypes] at hu ht ⊢
      exact Schema.nodes_trans hu ht

/-- A record that is entered is larger than what is in it. -/
theorem enter (h : Met root size found) {t : RecordType} (ht : .record t ∈ root.nodes)
    (hsize : size < sizeOf (Schema.record t)) : Met root size (found ++ [t]) where
  stands u hu := by
    rcases List.mem_append.mp hu with hu | hu
    · exact h.stands u hu
    · rwa [List.mem_singleton.mp hu]
  entered u hu := by
    rcases List.mem_append.mp hu with hu | hu
    · exact (h.entered u hu).imp_right fun hall v hv => List.mem_append_left _ (hall hv)
    · rw [List.mem_singleton.mp hu]
      exact .inl hsize

end Met

theorem collectFields_eq (fields : List Field) (found : List RecordType) :
    collectFields fields found = collectMembers (fields.map (·.schema)) found := by
  induction fields generalizing found with
  | nil => rfl
  | cons f rest ih =>
    obtain ⟨_, _, schema⟩ := f
    exact ih _

theorem fieldNodes_eq (fields : List Field) :
    fieldNodes fields = memberNodes (fields.map (·.schema)) := by
  induction fields with
  | nil => rfl
  | cons f rest ih =>
    obtain ⟨_, _, schema⟩ := f
    exact congrArg (schema.nodes ++ ·) ih

theorem collectMembers_eq {root : Schema} {size : Nat} {members : List Schema}
    (h : ∀ m ∈ members, m ∈ root.nodes ∧ sizeOf m ≤ size ∧ ∀ found, Met root (sizeOf m) found →
      m.collectRecords found = addNew found m.recordTypes) {found : List RecordType}
    (hm : Met root size found) :
    collectMembers members found = addNew found ((memberNodes members).filterMap Schema.record?) := by
  induction members generalizing found with
  | nil => rfl
  | cons first rest ih =>
    obtain ⟨⟨hroot, hsize, hfirst⟩, hrest⟩ := List.forall_mem_cons.mp h
    rw [collectMembers, hfirst found (hm.smaller hsize), memberNodes, List.filterMap_append,
      addNew_append, ih hrest (hm.walked hroot)]
    rfl

theorem Schema.recordTypes_record (t : RecordType) : (Schema.record t).recordTypes
    = t :: (memberNodes (t.fields.map (·.schema))).filterMap Schema.record? := by
  obtain ⟨name, fields⟩ := t
  rw [recordTypes, nodes, RecordType.nodes, fieldNodes_eq]
  rfl

theorem Schema.collectRecords_record (t : RecordType) (found : List RecordType) :
    (Schema.record t).collectRecords found
      = if found.any (·.name.full == t.name.full) then found
        else collectMembers (t.fields.map (·.schema)) (found ++ [t]) := by
  obtain ⟨name, fields⟩ := t
  rw [collectRecords, RecordType.collectRecords, collectFields_eq]

/-- **Turning back at a name loses nothing.** -/
theorem Schema.WellFormed.collectRecords_eq {root : Schema} (hroot : root.WellFormed) {s : Schema}
    (hs : s ∈ root.nodes) {found : List RecordType} (hm : Met root (sizeOf s) found) :
    s.collectRecords found = addNew found s.recordTypes := by
  induction s using Schema.induction generalizing found with
  | record t ih =>
    have hbelow : ∀ m ∈ t.fields.map (·.schema), m ∈ root.nodes ∧
        sizeOf m < sizeOf (Schema.record t) ∧ ∀ found, Met root (sizeOf m) found →
          m.collectRecords found = addNew found m.recordTypes := by
      intro m hmem
      obtain ⟨f, hf, rfl⟩ := List.mem_map.mp hmem
      have hfield := Schema.nodes_trans (Schema.mem_nodes_field hf) hs
      refine ⟨hfield, sizeOf_lt_of_below ?_, fun found => ih f hf hfield⟩
      exact RecordType.mem_nodes.mpr ⟨f, hf, f.schema.mem_nodes_self⟩
    rw [collectRecords_record]
    by_cases hmet : t ∈ found
    · -- It is not inside itself, so everything in it has been met as well.
      have hname : found.any (·.name.full == t.name.full) = true :=
        List.any_eq_true.mpr ⟨t, hmet, beq_self_eq_true _⟩
      rw [if_pos hname]
      rcases hm.entered t hmet with hlarger | hall
      · exact absurd hlarger (Nat.lt_irrefl _)
      · exact (addNew_of_subset hall).symm
    · -- No other record has its name, so the name is new as well.
      have hname : ¬ found.any (·.name.full == t.name.full) = true := by
        intro hany
        obtain ⟨u, hu, heq⟩ := List.any_eq_true.mp hany
        have hsame := hroot.record_eq (hm.stands u hu) hs (beq_iff_eq.mp heq)
        exact hmet (hsame ▸ hu)
      have hpos : 0 < sizeOf (Schema.record t) := by
        rw [record.sizeOf_spec]
        omega
      have hentered : Met root (sizeOf (Schema.record t) - 1) (found ++ [t]) :=
        (hm.smaller (Nat.sub_le _ _)).enter hs (by omega)
      rw [if_neg hname, recordTypes_record, addNew_cons, if_neg hmet]
      refine collectMembers_eq (fun m hmem => ?_) hentered
      obtain ⟨hmroot, hsize, hwalked⟩ := hbelow m hmem
      exact ⟨hmroot, Nat.le_sub_one_of_lt hsize, hwalked⟩
  | array items ih =>
    have hitems := Schema.nodes_trans (mem_nodes_items items) hs
    have hle : sizeOf items ≤ sizeOf (Schema.array items) := by
      rw [array.sizeOf_spec]
      omega
    rw [collectRecords, ih hitems (hm.smaller hle)]
    rfl
  | map values ih =>
    have hvalues := Schema.nodes_trans (mem_nodes_values values) hs
    have hle : sizeOf values ≤ sizeOf (Schema.map values) := by
      rw [map.sizeOf_spec]
      omega
    rw [collectRecords, ih hvalues (hm.smaller hle)]
    rfl
  | union members ih =>
    rw [collectRecords, collectMembers_eq (fun m hmem => ?_) hm]
    · rfl
    · have hmember := Schema.nodes_trans (mem_nodes_member hmem) hs
      have hsize := List.sizeOf_lt_of_mem hmem
      refine ⟨hmember, ?_, fun found => ih m hmem hmember⟩
      rw [union.sizeOf_spec]
      omega
  | null | boolean | int | long | float | double | bytes | string _ | enum _ | fixed _ => rfl

/-- **Every record is listed, at its first occurrence.** -/
theorem Schema.WellFormed.records_eq {s : Schema} (h : s.WellFormed) :
    s.records = s.recordTypes.eraseDups := by
  rw [Schema.records, h.collectRecords_eq s.mem_nodes_self (Met.empty s _), addNew_nil]

theorem Schema.WellFormed.mem_records {s : Schema} (h : s.WellFormed) {type : RecordType} :
    type ∈ s.records ↔ .record type ∈ s.nodes := by
  rw [h.records_eq, List.mem_eraseDups, mem_recordTypes]

/-- No name is listed twice. -/
theorem Schema.WellFormed.nodup_records {s : Schema} (h : s.WellFormed) :
    (s.records.map (·.name.full)).Nodup := by
  have hdistinct : s.records.Nodup := by
    rw [h.records_eq, ← addNew_nil]
    exact nodup_addNew _ List.nodup_nil
  refine List.Nodup.map_on ?_ hdistinct
  intro t ht u hu
  exact h.record_eq (h.mem_records.mp ht) (h.mem_records.mp hu)

end FieldSeal
