import FieldSeal.Proofs.Cli.Sealing
import FieldSeal.Proofs.Schema.Records
import FieldSeal.Proofs.Walk.History

/-!
# What is reported of a schema

`inspect` goes through the records of a schema with one index for all of them. `RecordType.report` is
the line of a record read off its fields alone, with no positions and no index: the lines are these,
whatever an index has been through before (`inspectLines_eq`), so that no position is left out or
leads outside of the fields.

The index that `inspect` leaves (`Cli.inspected`) is the one that asking for the records in their order
leaves. It has an entry for each record that is listed, and for no other: a lookup makes entries for
records inside the one that it is about, and those are listed as well
(`Schema.WellFormed.mem_records`).
-/

set_option autoImplicit false

namespace FieldSeal

/-! ## The line of a record -/

/-- The record's name and those of its fields that have a tagged string in them. -/
def RecordType.report (t : RecordType) : String :=
  let fields := t.fields.filter (·.schema.nodes.any (·.isTagged))
  t.name.full ++ ": " ++
    (if fields.isEmpty then "no sensitive fields"
      else ", ".intercalate (fields.map fun f => f.name ++ "@" ++ toString f.position))

theorem Schema.any_isTagged (s : Schema) : s.nodes.any (·.isTagged) = s.holdsTag := by
  rw [Bool.eq_iff_iff, List.any_eq_true, holdsTag_iff]
  constructor
  · rintro ⟨x, hx, htag⟩
    cases x with
    | string tag =>
      cases tag with
      | none => cases htag
      | some tag => exact ⟨tag, hx⟩
    | _ => cases htag
  · rintro ⟨tag, h⟩
    exact ⟨_, h, rfl⟩

theorem tagPositionsAmong_eq (fields : List Field) :
    tagPositionsAmong fields = (fields.filter (·.schema.holdsTag)).map (·.position) := by
  induction fields with
  | nil => rfl
  | cons f rest ih =>
    obtain ⟨_, position, schema⟩ := f
    rw [tagPositionsAmong, ih]
    by_cases h : schema.holdsTag = true <;> simp [h]

/-- The positions are all in range, so each of them leads back to its field. -/
theorem RecordType.Positioned.fields_at {α : Type} {t : RecordType} (h : t.Positioned)
    (g : Field → Nat → α) :
    (t.tagPositions.filterMap fun p => t.fields[p]?.map fun f => g f p)
      = (t.fields.filter (·.schema.holdsTag)).map fun f => g f f.position := by
  have hback : ∀ f ∈ t.fields.filter (·.schema.holdsTag),
      (t.fields[f.position]?.map fun f' => g f' f.position) = some (g f f.position) := by
    intro f hf
    obtain ⟨i, hi⟩ := List.mem_iff_getElem?.mp (List.mem_of_mem_filter hf)
    rw [h i f hi, hi]
    rfl
  obtain ⟨name, fields⟩ := t
  rw [tagPositions, tagPositionsAmong_eq, List.filterMap_map]
  exact (List.filterMap_congr hback).trans (congrFun List.filterMap_eq_map _)

namespace Cli

theorem inspectLine_eq {t : RecordType} (h : t.Positioned) :
    inspectLine t t.tagPositions = t.report := by
  simp only [inspectLine, RecordType.report, h.fields_at fun f p => f.name ++ "@" ++ toString p,
    Schema.any_isTagged, List.isEmpty_map]

/-- A sound index gives each record its own line. -/
theorem inspectLines_eq {types : List RecordType} (h : ∀ t ∈ types, t.Positioned)
    {index : FieldIndex} (hi : index.Sound) :
    (inspectLines types index).1 = types.map (·.report) := by
  induction types generalizing index with
  | nil => rfl
  | cons t rest ih =>
    obtain ⟨ht, hrest⟩ := List.forall_mem_cons.mp h
    obtain ⟨hpositions, hsound⟩ := t.sensitivePositions_spec hi
    simp only [inspectLines, List.map_cons, hpositions, inspectLine_eq ht, ih hrest hsound]

/-- The index has been asked for each of the records, and for nothing else. -/
theorem inspectLines_index (types : List RecordType) (index : FieldIndex) :
    (inspectLines types index).2 = .learnAll (types.map .positions) index := by
  induction types generalizing index with
  | nil => rfl
  | cons t rest ih => exact ih (t.sensitivePositions index).2

/-- The index that `inspect` leaves of a schema. -/
def inspected (s : Schema) : FieldIndex := (inspectLines s.records .empty).2

theorem inspected_eq (s : Schema) : inspected s = .after (s.records.map .positions) :=
  inspectLines_index s.records .empty

/-! ## The report -/

/-- The terminal after so many more lines. -/
def Terminal.withLines (t : Terminal) (lines : List String) : Terminal :=
  { t with printed := t.printed ++ String.join (lines.map (· ++ "\n")) }

@[simp] theorem Terminal.withLines_nil (t : Terminal) : t.withLines [] = t := by
  rw [withLines, List.map_nil, String.join_nil, String.append_empty]

@[simp] theorem Terminal.withLines_cons (t : Terminal) (line : String) (rest : List String) :
    t.withLines (line :: rest)
      = { t with printed := t.printed ++ (line ++ "\n") }.withLines rest := by
  simp only [withLines, List.map_cons, String.join_cons, String.append_assoc]

theorem goes_printLines {nonces : Nat → Nonce} (lines : List String) {t t' : Terminal} :
    Goes (forIn lines PUnit.unit fun line _ => do
        perform ((Terminal.host nonces).print (line ++ "\n"))
        pure (ForInStep.yield PUnit.unit)) t () t' ↔ t' = t.withLines lines := by
  induction lines generalizing t with
  | nil =>
    rw [List.forIn_nil, goes_pure, Terminal.withLines_nil]
    exact and_iff_right rfl
  | cons line rest ih =>
    have hprint : ((Terminal.host nonces).print (line ++ "\n")).run t
        = ((), { t with printed := t.printed ++ (line ++ "\n") }) := rfl
    rw [List.forIn_cons, bind_assoc, goes_bind, Terminal.withLines_cons]
    simp only [goes_perform, hprint, pure_bind]
    constructor
    · rintro ⟨_, u, ⟨⟩, h⟩
      exact ih.mp h
    · exact fun h => ⟨(), _, rfl, ih.mpr h⟩

theorem goes_reportFields {nonces : Nat → Nonce} {path : String} {t t' : Terminal}
    {index : FieldIndex} :
    Goes (reportFields (Terminal.host nonces) path) t index t' ↔
      ∃ text s, t.directory.read path = .ok text ∧ Schema.ofText text = .ok s ∧
        index = inspected s ∧
        t' = t.withLines (("Schema: " ++ path) :: (inspectLines s.records .empty).1) := by
  rw [reportFields, goes_bind]
  constructor
  · rintro ⟨s, u, hs, h⟩
    obtain ⟨text, hread, htext, rfl⟩ := goes_loadSchema.mp hs
    obtain ⟨_, v, h, hend⟩ := goes_bind.mp h
    obtain ⟨hindex, rfl⟩ := goes_pure.mp hend
    exact ⟨text, s, hread, htext, hindex, (goes_printLines _).mp h⟩
  · rintro ⟨text, s, hread, htext, hindex, h⟩
    refine ⟨s, t, goes_loadSchema.mpr ⟨text, hread, htext, rfl⟩, goes_bind.mpr ?_⟩
    exact ⟨(), t', (goes_printLines _).mpr h, goes_pure.mpr ⟨hindex, rfl⟩⟩

theorem goes_inspect {nonces : Nat → Nonce} {path : String} {t t' : Terminal} :
    Goes ((Command.inspect path).run (Terminal.host nonces)) t () t' ↔
      ∃ index, Goes (reportFields (Terminal.host nonces) path) t index t' := by
  rw [Command.run, goes_bind]
  constructor
  · rintro ⟨index, u, h, hend⟩
    obtain ⟨-, rfl⟩ := goes_pure.mp hend
    exact ⟨index, h⟩
  · rintro ⟨index, h⟩
    exact ⟨index, t', h, goes_pure.mpr ⟨rfl, rfl⟩⟩

end Cli

/-! ## The index in the end -/

/-- The entries that asking for all records leaves are one for each of them. -/
theorem Schema.WellFormed.entries_perm {s : Schema} (h : s.WellFormed) :
    ((FieldIndex.after (s.records.map .positions)).entries.map (·.1)).Perm s.records := by
  refine (List.perm_ext_iff_of_nodup (FieldIndex.after_distinct _) ?_).mpr fun t => ⟨?_, ?_⟩
  · exact List.Nodup.of_map _ h.nodup_records
  · intro ht
    obtain ⟨e, he, rfl⟩ := List.mem_map.mp ht
    -- An entry is of a record in one that was asked for.
    rcases (FieldIndex.learnAll_grows (s.records.map .positions) .empty).origin e he with hempty | ho
    · exact absurd hempty List.not_mem_nil
    · obtain ⟨c, hc, x, hx, hnode⟩ := ho
      obtain ⟨u, hu, rfl⟩ := List.mem_map.mp hc
      obtain rfl : x = .record u := hx
      exact h.mem_records.mpr (nodes_trans hnode (h.mem_records.mp hu))
  · intro ht
    obtain ⟨positions, hget⟩ :=
      FieldIndex.get?_after_of_mem (List.mem_map_of_mem (f := FieldIndex.Call.positions) ht)
    by_contra hnone
    rw [FieldIndex.get?, List.lookup_eq_some_iff] at hget
    obtain ⟨before, later, hentries, -⟩ := hget
    exact hnone (List.mem_map.mpr ⟨(t, positions), hentries ▸ by simp, rfl⟩)

/-- **Nothing is missed.** Of a schema that has been read, the records that are listed are those of
the whole tree, each once and where it occurs first. Whatever an index has been through, the positions
that it gives for a record are those of the fields with a tagged string in them, so none is out of
range, and the lines are those of the records. `inspect` goes through wherever it finds the schema:
it prints the line of each record, and the index that it leaves has exactly one entry for each of them,
with the record's positions. -/
theorem Schema.records_complete {s : Schema} (hs : s.Parsed) :
    s.records = s.recordTypes.eraseDups ∧
    (s.records.map (·.name.full)).Nodup ∧
    (∀ t, t ∈ s.records ↔ Schema.record t ∈ s.nodes) ∧
    (∀ index : FieldIndex, index.Reachable → ∀ t ∈ s.records,
      (∀ i ∈ (t.sensitivePositions index).1, i < t.fields.length) ∧
      ∀ i, i ∈ (t.sensitivePositions index).1 ↔
        ∃ f, t.fields[i]? = some f ∧ ∃ tag, Schema.string (some tag) ∈ f.schema.nodes) ∧
    (∀ index : FieldIndex, index.Reachable →
      (Cli.inspectLines s.records index).1 = s.records.map (·.report)) ∧
    (∀ (nonces : Nat → Nonce) (path text : String) (t : Cli.Terminal),
      t.directory.read path = .ok text → Schema.ofText text = .ok s →
        Cli.Goes (Cli.reportFields (Cli.Terminal.host nonces) path) t (Cli.inspected s)
          (t.withLines (("Schema: " ++ path) :: s.records.map (·.report))) ∧
        Cli.Goes ((Cli.Command.inspect path).run (Cli.Terminal.host nonces)) t ()
          (t.withLines (("Schema: " ++ path) :: s.records.map (·.report)))) ∧
    Cli.inspected s = .after (s.records.map .positions) ∧
    ((Cli.inspected s).entries.map (·.1)).Perm s.records ∧
    (Cli.inspected s).size = s.records.length ∧
    ∀ t ∈ s.records, (Cli.inspected s).get? t = some (t.sensitivePositions .empty).1 := by
  have hwf := hs.wellFormed
  have hpositioned : ∀ t ∈ s.records, t.Positioned := fun t ht =>
    hwf.positioned t (hwf.mem_records.mp ht)
  have hperm := hwf.entries_perm
  rw [← Cli.inspected_eq] at hperm
  refine ⟨hwf.records_eq, hwf.nodup_records, fun t => hwf.mem_records, ?_, ?_, ?_,
    Cli.inspected_eq s, hperm, ?_, ?_⟩
  · intro index hi t ht
    rw [(t.sensitivePositions_spec hi.sound).1]
    refine ⟨fun i hmem => ?_, fun i => (hpositioned t ht).mem_tagPositions⟩
    obtain ⟨f, hf, -⟩ := (hpositioned t ht).mem_tagPositions.mp hmem
    exact (List.getElem?_eq_some_iff.mp hf).1
  · exact fun index hi => Cli.inspectLines_eq hpositioned hi.sound
  · intro nonces path text t hread htext
    have hreport : Cli.Goes (Cli.reportFields (Cli.Terminal.host nonces) path) t (Cli.inspected s)
        (t.withLines (("Schema: " ++ path) :: s.records.map (·.report))) := by
      rw [← Cli.inspectLines_eq hpositioned FieldIndex.sound_empty]
      exact Cli.goes_reportFields.mpr ⟨text, s, hread, htext, rfl, rfl⟩
    exact ⟨hreport, Cli.goes_inspect.mpr ⟨_, hreport⟩⟩
  · rw [FieldIndex.size, ← List.length_map (f := (·.1))]
    exact hperm.length_eq
  · intro t ht
    obtain ⟨positions, hget⟩ :=
      FieldIndex.get?_after_of_mem (List.mem_map_of_mem (f := FieldIndex.Call.positions) ht)
    have hsound := FieldIndex.after_sound (s.records.map .positions)
    rw [Cli.inspected_eq, hget, hsound t positions hget,
      (t.sensitivePositions_spec FieldIndex.sound_empty).1]

/-- A record that is referred to twice more after its definition, with a tagged string in it: each of
the two has its line and its entry. -/
theorem Schema.records_complete_outer :
    let inner : RecordType := ⟨⟨"Inner", none⟩, [⟨"x", 0, .string (some .typed)⟩]⟩
    let outer : RecordType := ⟨⟨"Outer", none⟩, [⟨"a", 0, .record inner⟩, ⟨"n", 1, .int⟩,
      ⟨"b", 2, .array (.record inner)⟩, ⟨"c", 3, .union [.null, .record inner]⟩]⟩
    (Schema.record outer).records = [outer, inner] ∧
      (Cli.inspectLines (Schema.record outer).records .empty).1
        = ["Outer: a@0, b@2, c@3", "Inner: x@0"] ∧
      (Schema.record inner ∈ (Schema.record outer).nodes) ∧
      (Cli.inspected (.record outer)).size = 2 ∧
      (Cli.inspected (.record outer)).get? outer = some [0, 2, 3] ∧
      (Cli.inspected (.record outer)).get? inner = some [0] := by
  intro inner outer
  have hparsed : (Schema.record outer).Parsed :=
    ⟨.object [("fields", .array [
        .object [("name", .string "a"), ("type", .object [
          ("fields", .array [.object [("name", .string "x"), ("type", .object [
            ("logicalType", .string "encrypted-string"), ("type", .string "string")])]]),
          ("name", .string "Inner"), ("type", .string "record")])],
        .object [("name", .string "n"), ("type", .string "int")],
        .object [("name", .string "b"), ("type", .object [
          ("items", .string "Inner"), ("type", .string "array")])],
        .object [("name", .string "c"), ("type", .array [.string "null", .string "Inner"])]]),
      ("name", .string "Outer"), ("type", .string "record")], by rfl⟩
  obtain ⟨-, -, hmem, -, hlines, -, -, -, hsize, hget⟩ := Schema.records_complete hparsed
  have hrecords : (Schema.record outer).records = [outer, inner] := by rfl
  have houter : outer ∈ (Schema.record outer).records := hrecords ▸ List.mem_cons_self
  have hinner : inner ∈ (Schema.record outer).records :=
    hrecords ▸ List.mem_cons_of_mem _ List.mem_cons_self
  refine ⟨hrecords, ?_, (hmem inner).mp hinner, ?_, ?_, ?_⟩
  · rw [hlines _ .empty, hrecords]
    cbv
  · rw [hsize, hrecords]
    rfl
  · rw [hget outer houter]
    rfl
  · rw [hget inner hinner]
    rfl

end FieldSeal
