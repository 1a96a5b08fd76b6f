import FieldSeal.Proofs.Schema.Resolution
import FieldSeal.Proofs.Walk.Turns

/-!
# What an index has been through

An index is shared by all lookups and walks of a program, and what is in it depends on which of them
came before and in what order. `FieldIndex.after` is the index after a row of calls. What the calls
answer does not depend on it (`Call.answer_congr`): each answer is the one that an empty index gives.

What does depend on the history is which entries there are. `FieldIndex.Grows` says how a call
changes them: those that are there stay in place, each new one is of a record type that the call was
given (`Call.Offers`) and that had no entry. A lookup inside a lookup, a union that is searched only
up to its first tag and a walk that fails half-way all do no more than that, so the relation is
proved by one induction over schemas and one over values, and a row of calls is its transitive
closure.
-/

set_option autoImplicit false

namespace FieldSeal

/-! ## Record types in schemas and values -/

/-- Every record type in the schema is in the class. -/
def Schema.AllRecords (origin : RecordType → Prop) (s : Schema) : Prop :=
  ∀ type, Schema.record type ∈ s.nodes → origin type

/-- Every record type that the records in the value carry, or that stands in one of those, is in the
class. -/
def Value.AllRecords (origin : RecordType → Prop) (v : Value) : Prop :=
  ∀ r, Value.record r ∈ v.parts → (Schema.record r.type).AllRecords origin

theorem Schema.AllRecords.of_mem {origin : RecordType → Prop} {x s : Schema}
    (h : s.AllRecords origin) (hx : x ∈ s.nodes) : x.AllRecords origin :=
  fun type ht => h type (nodes_trans ht hx)

theorem Value.AllRecords.of_subset {origin : RecordType → Prop} {u v : Value}
    (h : v.AllRecords origin) (hu : u.parts ⊆ v.parts) : u.AllRecords origin :=
  fun r hr => h r (hu hr)

namespace FieldIndex

/-! ## How an index grows -/

/-- No record type has two entries. -/
def Distinct (index : FieldIndex) : Prop := (index.entries.map (·.1)).Nodup

/-- A later index: the entries are still there, in their places, and the new ones are of record types
of the class. -/
structure Grows (origin : RecordType → Prop) (index later : FieldIndex) : Prop where
  kept : index.entries <+: later.entries
  origin : ∀ e ∈ later.entries, e ∈ index.entries ∨ origin e.1
  distinct : index.Distinct → later.Distinct

namespace Grows

variable {origin : RecordType → Prop} {index later : FieldIndex}

theorem refl (origin : RecordType → Prop) (index : FieldIndex) : Grows origin index index :=
  ⟨List.prefix_rfl, fun _ he => .inl he, id⟩

theorem trans {last : FieldIndex} (h : Grows origin index later) (h' : Grows origin later last) :
    Grows origin index last where
  kept := h.kept.trans h'.kept
  origin e he := by
    rcases h'.origin e he with he | he
    · exact h.origin e he
    · exact .inr he
  distinct hd := h'.distinct (h.distinct hd)

theorem mono {wider : RecordType → Prop} (h : Grows origin index later)
    (hw : ∀ type, origin type → wider type) : Grows wider index later :=
  { h with origin := fun e he => (h.origin e he).imp_right (hw e.1) }

/-- What is found in an index is found in every later one. -/
theorem get?_eq (h : Grows origin index later) {type : RecordType} {positions : List Nat}
    (hg : index.get? type = some positions) : later.get? type = some positions := by
  obtain ⟨new, hnew⟩ := h.kept
  rw [get?] at hg ⊢
  rw [← hnew, List.lookup_append, hg, Option.some_or]

end Grows

theorem not_mem_of_get?_eq_none {index : FieldIndex} {type : RecordType}
    (h : index.get? type = none) : type ∉ index.entries.map (·.1) := by
  intro hmem
  obtain ⟨e, he, rfl⟩ := List.mem_map.mp hmem
  rw [get?, List.lookup_eq_none_iff] at h
  exact absurd (h e he) (by simp)

theorem grows_record {origin : RecordType → Prop} {type : RecordType} (h : origin type)
    (index : FieldIndex) (positions : List Nat) :
    Grows origin index (index.record type positions).2 := by
  rw [record]
  cases hg : index.get? type with
  | some known => exact .refl origin index
  | none =>
    refine ⟨List.prefix_append _ _, fun e he => ?_, fun hd => ?_⟩
    · rcases List.mem_append.mp he with he | he
      · exact .inl he
      · rw [List.mem_singleton.mp he]
        exact .inr h
    · show ((index.entries ++ [(type, positions)]).map (·.1)).Nodup
      rw [List.map_append, List.map_singleton]
      refine List.nodup_append.mpr ⟨hd, by simp, ?_⟩
      rintro a ha b hb rfl
      rw [List.mem_singleton.mp hb] at ha
      exact not_mem_of_get?_eq_none hg ha

/-- The positions that recording gives are those that are in the index from then on. -/
theorem get?_record (index : FieldIndex) (type : RecordType) (positions : List Nat) :
    (index.record type positions).2.get? type = some (index.record type positions).1 := by
  rw [record]
  cases hg : index.get? type with
  | some known => exact hg
  | none =>
    dsimp only
    rw [get?_append, hg, Option.none_or, if_pos rfl]

end FieldIndex

open FieldIndex (Grows)

variable {origin : RecordType → Prop}

/-! ## Lookups -/

mutual

/-- **A lookup adds entries only for record types in the schema.** -/
theorem Schema.sensitive_grows : ∀ (s : Schema) (index : FieldIndex), s.AllRecords origin →
    Grows origin index (s.sensitive index).2
  | .record type, index, h => by
    rw [Schema.sensitive]
    exact RecordType.sensitivePositions_grows type index h
  | .array items, index, h => by
    rw [Schema.sensitive]
    exact Schema.sensitive_grows items index (h.of_mem (Schema.mem_nodes_items items))
  | .map values, index, h => by
    rw [Schema.sensitive]
    exact Schema.sensitive_grows values index (h.of_mem (Schema.mem_nodes_values values))
  | .union members, index, h => by
    rw [Schema.sensitive]
    exact anySensitive_grows members index fun m hm => h.of_mem (Schema.mem_nodes_member hm)
  | .null, index, _ | .boolean, index, _ | .int, index, _ | .long, index, _ | .float, index, _
  | .double, index, _ | .bytes, index, _ | .string _, index, _ | .enum _, index, _
  | .fixed _, index, _ => .refl origin index

theorem RecordType.sensitivePositions_grows : ∀ (type : RecordType) (index : FieldIndex),
    (Schema.record type).AllRecords origin → Grows origin index (type.sensitivePositions index).2
  | ⟨name, fields⟩, index, h => by
    rw [RecordType.sensitivePositions]
    split
    · exact .refl origin index
    · have hall : ∀ f ∈ fields, f.schema.AllRecords origin := by
        intro f hf
        exact h.of_mem (Schema.mem_nodes_field (show f ∈ (RecordType.mk name fields).fields from hf))
      have hfields := sensitiveAmong_grows fields index hall
      exact hfields.trans (FieldIndex.grows_record (h _ (Schema.mem_nodes_self _)) _ _)

theorem sensitiveAmong_grows : ∀ (fields : List Field) (index : FieldIndex),
    (∀ f ∈ fields, f.schema.AllRecords origin) → Grows origin index (sensitiveAmong fields index).2
  | [], index, _ => .refl origin index
  | ⟨_, _, schema⟩ :: rest, index, h => by
    obtain ⟨hfirst, hrest⟩ := List.forall_mem_cons.mp h
    exact (Schema.sensitive_grows schema index hfirst).trans (sensitiveAmong_grows rest _ hrest)

theorem anySensitive_grows : ∀ (members : List Schema) (index : FieldIndex),
    (∀ m ∈ members, m.AllRecords origin) → Grows origin index (anySensitive members index).2
  | [], index, _ => .refl origin index
  | s :: rest, index, h => by
    obtain ⟨hfirst, hrest⟩ := List.forall_mem_cons.mp h
    have hs := Schema.sensitive_grows s index hfirst
    rw [anySensitive]
    split
    next learned he =>
      rw [he] at hs
      exact hs
    next learned he =>
      rw [he] at hs
      exact hs.trans (anySensitive_grows rest learned hrest)

end

/-- A record type that has been asked about is in the index. -/
@[simp] theorem RecordType.get?_sensitivePositions (type : RecordType) (index : FieldIndex) :
    (type.sensitivePositions index).2.get? type = some (type.sensitivePositions index).1 := by
  obtain ⟨name, fields⟩ := type
  rw [RecordType.sensitivePositions]
  split
  next positions hg => exact hg
  next => exact FieldIndex.get?_record _ _ _

/-! ## Walks -/

namespace Walk

variable {w : Walk}

@[simp] theorem visitInline_index (text : String) (trace : Trace) :
    (w.visitInline text trace).trace.index = trace.index := by
  rw [visitInline, call]
  cases w.leaf trace.calls.length text with
  | ok answer => rfl
  | error e => cases w.direction <;> rfl

@[simp] theorem visitTyped_index (t : TaggedText) (trace : Trace) :
    (w.visitTyped t trace).trace.index = trace.index := by
  unfold visitTyped
  split
  next text _ =>
    rw [call]
    cases w.leaf trace.calls.length text <;> rfl
  next text _ =>
    rw [call]
    cases w.leaf trace.calls.length text <;> rfl
  next => rfl

theorem grows_andRest {α β : Type} {first : Outcome α} {rest : β} {next : Trace → Outcome β}
    {index : FieldIndex} (h : Grows origin index first.trace.index)
    (hn : ∀ trace, Grows origin trace.index (next trace).trace.index) :
    Grows origin index (first.andRest rest next).trace.index := by
  rw [Outcome.andRest]
  cases first.failure with
  | none => exact h.trans (hn first.trace)
  | some e => exact h

mutual

/-- **A walk adds entries only for record types in its schema and in its value**, as far as it comes.
-/
theorem visit_grows : ∀ (v : Value) (s : Schema) (trace : Trace), s.AllRecords origin →
    v.AllRecords origin → Grows origin trace.index (w.visit s v trace).trace.index
  | .string text, s, trace, _, _ => by
    rw [visit]
    split
    · show Grows origin trace.index (w.visitInline text trace).trace.index
      rw [visitInline_index]
      exact .refl origin _
    · exact .refl origin _
  | .tagged t, s, trace, _, _ => by
    rw [visit]
    split
    · show Grows origin trace.index (w.visitTyped t trace).trace.index
      rw [visitTyped_index]
      exact .refl origin _
    · exact .refl origin _
  | .record ⟨own, fields⟩, s, trace, hs, hv => by
    rw [visit]
    split
    next type htype =>
      have hall : (Schema.record type).AllRecords origin := by
        cases s with
        | record => cases htype; exact hs
        | union => cases htype; exact hv ⟨own, fields⟩ (Value.mem_parts_self _)
        | _ => cases htype
      have hfields := visitFields_grows fields type.fields (type.sensitivePositions trace.index).1
        { trace with index := (type.sensitivePositions trace.index).2 }
        (fun f hf => hall.of_mem (Schema.mem_nodes_field hf))
        fun u hu => hv.of_subset (Value.parts_field (r := ⟨own, fields⟩) hu)
      exact (RecordType.sensitivePositions_grows type trace.index hall).trans hfields
    next => exact .refl origin _
  | .array items, s, trace, hs, hv => by
    rw [visit_array]
    split
    next item hitem =>
      have hall := hs.of_mem (Schema.mem_nodes_of_itemSchema? hitem)
      have hlookup := Schema.sensitive_grows item trace.index hall
      split
      next learned he =>
        rw [he] at hlookup
        exact hlookup.trans (visitItems_grows items item { trace with index := learned } hall
          fun u hu => hv.of_subset (Value.parts_item hu))
      next learned he =>
        rw [he] at hlookup
        exact hlookup
    next => exact .refl origin _
  | .map entries, s, trace, hs, hv => by
    rw [visit_map]
    split
    next value hvalue =>
      have hall := hs.of_mem (Schema.mem_nodes_of_valueSchema? hvalue)
      have hlookup := Schema.sensitive_grows value trace.index hall
      split
      next learned he =>
        rw [he] at hlookup
        exact hlookup.trans (visitEntries_grows entries value { trace with index := learned } hall
          fun e he => hv.of_subset (Value.parts_entry he))
      next learned he =>
        rw [he] at hlookup
        exact hlookup
    next => exact .refl origin _
  | .null, _, _, _, _ | .boolean _, _, _, _, _ | .int _, _, _, _, _ | .long _, _, _, _, _
  | .float _, _, _, _, _ | .double _, _, _, _, _ | .bytes _, _, _, _, _ | .enum _, _, _, _, _
  | .fixed _, _, _, _, _ => by
    rw [visit]
    · exact .refl origin _
    all_goals simp

theorem visitFields_grows : ∀ (vs : List Value) (fields : List Field) (positions : List Nat)
    (trace : Trace), (∀ f ∈ fields, f.schema.AllRecords origin) →
      (∀ v ∈ vs, v.AllRecords origin) →
        Grows origin trace.index (w.visitFields fields positions vs trace).trace.index
  | [], _, _, _, _, _ => by
    rw [visitFields]
    exact .refl origin _
  | v :: rest, fields, positions, trace, hf, hv => by
    obtain ⟨hfirst, hrest⟩ := List.forall_mem_cons.mp hv
    cases fields with
    | nil =>
      rw [visitFields]
      exact .refl origin _
    | cons field fields =>
      obtain ⟨hfield, hfields⟩ := List.forall_mem_cons.mp hf
      rw [visitFields]
      refine grows_andRest ?_ fun trace =>
        visitFields_grows rest fields positions trace hfields hrest
      split
      · exact visit_grows v field.schema trace hfield hfirst
      · exact .refl origin _

theorem visitItems_grows : ∀ (vs : List Value) (item : Schema) (trace : Trace),
    item.AllRecords origin → (∀ v ∈ vs, v.AllRecords origin) →
      Grows origin trace.index (w.visitItems item vs trace).trace.index
  | [], _, _, _, _ => by
    rw [visitItems]
    exact .refl origin _
  | v :: rest, item, trace, hs, hv => by
    obtain ⟨hfirst, hrest⟩ := List.forall_mem_cons.mp hv
    rw [visitItems]
    exact grows_andRest (visit_grows v item trace hs hfirst) fun trace =>
      visitItems_grows rest item trace hs hrest

theorem visitEntries_grows : ∀ (es : List (String × Value)) (value : Schema) (trace : Trace),
    value.AllRecords origin → (∀ e ∈ es, e.2.AllRecords origin) →
      Grows origin trace.index (w.visitEntries value es trace).trace.index
  | [], _, _, _, _ => by
    rw [visitEntries]
    exact .refl origin _
  | (_, v) :: rest, value, trace, hs, hv => by
    obtain ⟨hfirst, hrest⟩ := List.forall_mem_cons.mp hv
    rw [visitEntries]
    exact grows_andRest (visit_grows v value trace hs hfirst) fun trace =>
      visitEntries_grows rest value trace hs hrest

end

theorem runRecord_grows (r : Record) (index : FieldIndex)
    (h : (Value.record r).AllRecords origin) :
    Grows origin index (w.runRecord r index).trace.index := by
  have hrun := visit_grows (w := w) (.record r) (.record r.type) ⟨index, []⟩
    (h r (Value.mem_parts_self _)) h
  change Grows origin index (w.run (.record r.type) (.record r) index).trace.index at hrun
  rw [run_record] at hrun
  exact hrun

/-! The answers of two walks from sound indices are the same, whatever the indices hold. -/

theorem run_congr {index other : FieldIndex} (h : index.Sound) (h' : other.Sound) (s : Schema)
    (v : Value) : (w.run s v index).value = (w.run s v other).value ∧
      (w.run s v index).trace.calls = (w.run s v other).trace.calls ∧
      (w.run s v index).failure = (w.run s v other).failure := by
  have hrun := w.run_follows h s v
  have hother := w.run_follows h' s v
  refine ⟨?_, hrun.calls_eq.trans hother.calls_eq.symm,
    hrun.failure_eq.trans hother.failure_eq.symm⟩
  exact run_value_eq h hother.blank_eq hother.slots_eq

theorem runRecord_congr {index other : FieldIndex} (h : index.Sound) (h' : other.Sound)
    (r : Record) : (w.runRecord r index).value = (w.runRecord r other).value ∧
      (w.runRecord r index).trace.calls = (w.runRecord r other).trace.calls ∧
      (w.runRecord r index).failure = (w.runRecord r other).failure := by
  have hrun := run_congr (w := w) h h' (.record r.type) (.record r)
  rw [run_record, run_record] at hrun
  exact ⟨Value.record.inj hrun.1, hrun.2⟩

end Walk

/-! ## Rows of calls -/

namespace FieldIndex

/-- A use of an index. -/
inductive Call where
  | positions (type : RecordType)
  | sensitive (s : Schema)
  | run (w : Walk) (s : Schema) (v : Value)
  | runRecord (w : Walk) (r : Record)

/-- What a call answers: positions, whether there is a tag, or the value as far as a walk came, the
texts that it handed over and its failure. -/
inductive Answer where
  | positions (positions : List Nat)
  | sensitive (found : Bool)
  | run (value : Value) (calls : List String) (failure : Option CipherError)
  | runRecord (record : Record) (calls : List String) (failure : Option CipherError)

namespace Call

def answer : Call → FieldIndex → Answer
  | .positions type, index => .positions (type.sensitivePositions index).1
  | .sensitive s, index => .sensitive (s.sensitive index).1
  | .run w s v, index =>
    let o := w.run s v index
    .run o.value o.trace.calls o.failure
  | .runRecord w r, index =>
    let o := w.runRecord r index
    .runRecord o.value o.trace.calls o.failure

/-- The index after a call. -/
def learn : Call → FieldIndex → FieldIndex
  | .positions type, index => (type.sensitivePositions index).2
  | .sensitive s, index => (s.sensitive index).2
  | .run w s v, index => (w.run s v index).trace.index
  | .runRecord w r, index => (w.runRecord r index).trace.index

/-- The schemas that a call is given, by themselves and by the records of its value. -/
def Given : Call → Schema → Prop
  | .positions type, s => s = .record type
  | .sensitive t, s => s = t
  | .run _ t v, s => s = t ∨ ∃ r, Value.record r ∈ v.parts ∧ s = .record r.type
  | .runRecord _ r, s => ∃ r', Value.record r' ∈ (Value.record r).parts ∧ s = .record r'.type

/-- The record types that stand in what a call is given. -/
def Offers (c : Call) (type : RecordType) : Prop := ∃ s, c.Given s ∧ Schema.record type ∈ s.nodes

theorem learn_reachable {index : FieldIndex} (h : index.Reachable) (c : Call) :
    (c.learn index).Reachable := by
  cases c with
  | positions type => exact h.positions type
  | sensitive s => exact h.sensitive s
  | run w s v => exact h.run w s v
  | runRecord w r => exact h.runRecord w r

theorem learn_grows (c : Call) (index : FieldIndex) : Grows c.Offers index (c.learn index) := by
  have hall : ∀ s, c.Given s → s.AllRecords c.Offers := fun s hs type ht => ⟨s, hs, ht⟩
  cases c with
  | positions type => exact type.sensitivePositions_grows index (hall _ rfl)
  | sensitive s => exact s.sensitive_grows index (hall s rfl)
  | run w s v =>
    exact Walk.visit_grows v s ⟨index, []⟩ (hall s (.inl rfl)) fun r hr =>
      hall (.record r.type) (.inr ⟨r, hr, rfl⟩)
  | runRecord w r =>
    exact Walk.runRecord_grows r index fun r' hr => hall (.record r'.type) ⟨r', hr, rfl⟩

theorem answer_congr {index other : FieldIndex} (h : index.Sound) (h' : other.Sound) (c : Call) :
    c.answer index = c.answer other := by
  cases c with
  | positions type =>
    rw [answer, answer, (RecordType.sensitivePositions_spec h type).1,
      (RecordType.sensitivePositions_spec h' type).1]
  | sensitive s =>
    rw [answer, answer, (Schema.sensitive_spec h s).1, (Schema.sensitive_spec h' s).1]
  | run w s v =>
    obtain ⟨hvalue, hcalls, hfailure⟩ := Walk.run_congr (w := w) h h' s v
    simp only [answer, hvalue, hcalls, hfailure]
  | runRecord w r =>
    obtain ⟨hvalue, hcalls, hfailure⟩ := Walk.runRecord_congr (w := w) h h' r
    simp only [answer, hvalue, hcalls, hfailure]

end Call

/-- An index after more calls. -/
def learnAll (calls : List Call) (index : FieldIndex) : FieldIndex :=
  calls.foldl (fun index c => c.learn index) index

/-- An index that starts empty, after a row of calls. -/
def after (calls : List Call) : FieldIndex := learnAll calls .empty

theorem after_append (calls more : List Call) : after (calls ++ more) = learnAll more (after calls) :=
  List.foldl_append

theorem learnAll_reachable (calls : List Call) {index : FieldIndex} (h : index.Reachable) :
    (learnAll calls index).Reachable := by
  induction calls generalizing index with
  | nil => exact h
  | cons c rest ih => exact ih (c.learn_reachable h)

theorem after_sound (calls : List Call) : (after calls).Sound :=
  (learnAll_reachable calls .empty).sound

/-- **A row of calls only adds entries**, for record types that one of the calls was given. -/
theorem learnAll_grows (calls : List Call) (index : FieldIndex) :
    Grows (fun type => ∃ c ∈ calls, c.Offers type) index (learnAll calls index) := by
  induction calls generalizing index with
  | nil => exact .refl _ index
  | cons c rest ih =>
    have hfirst := (c.learn_grows index).mono fun type h =>
      (⟨c, List.mem_cons_self, h⟩ : ∃ c' ∈ c :: rest, c'.Offers type)
    have hrest := (ih (c.learn index)).mono fun type ⟨c', hc', h⟩ =>
      (⟨c', List.mem_cons_of_mem _ hc', h⟩ : ∃ c' ∈ c :: rest, c'.Offers type)
    exact hfirst.trans hrest

theorem get?_after_of_mem {calls : List Call} {type : RecordType} (h : .positions type ∈ calls) :
    ∃ positions, (after calls).get? type = some positions := by
  obtain ⟨before, later, rfl⟩ := List.append_of_mem h
  rw [after_append]
  exact ⟨_, (learnAll_grows later _).get?_eq (type.get?_sensitivePositions (after before))⟩

/-- However an index has come about, a record type has one entry at most. -/
theorem after_distinct (calls : List Call) : (after calls).Distinct :=
  (learnAll_grows calls .empty).distinct List.nodup_nil

/-- **An index answers as if nothing had been asked before, and forgets nothing.** After any row of
calls, positions are those of the fields with a tagged string in them, in ascending order; a schema
is found to hold a tag when it does; every call is answered as by an empty index. More calls leave
the entries as they are. Each record type that has been asked about has an entry, and each entry is
of a record type that stands in something that one of the calls was given. -/
theorem after_transparent (calls : List Call) :
    (∀ (root : Schema) (type : RecordType), root.Parsed → Schema.record type ∈ root.nodes →
      (type.sensitivePositions (after calls)).1.Pairwise (· < ·) ∧
        ∀ i, i ∈ (type.sensitivePositions (after calls)).1 ↔
          ∃ f, type.fields[i]? = some f ∧ ∃ tag, Schema.string (some tag) ∈ f.schema.nodes) ∧
    (∀ s : Schema, (s.sensitive (after calls)).1 = true ↔
      ∃ tag, Schema.string (some tag) ∈ s.nodes) ∧
    (∀ c : Call, c.answer (after calls) = c.answer .empty) ∧
    (∀ more, (after calls).entries <+: (after (calls ++ more)).entries ∧
      ∀ type positions, (after calls).get? type = some positions →
        (after (calls ++ more)).get? type = some positions) ∧
    (∀ type, .positions type ∈ calls → ∃ positions, (after calls).get? type = some positions) ∧
    ∀ e ∈ (after calls).entries, ∃ c ∈ calls, c.Offers e.1 := by
  have hsound := after_sound calls
  refine ⟨?_, ?_, ?_, ?_, ?_, ?_⟩
  · intro root type hroot htype
    have hpositioned := hroot.wellFormed.positioned type htype
    rw [(RecordType.sensitivePositions_spec hsound type).1]
    exact ⟨hpositioned.tagPositions_pairwise, fun i => hpositioned.mem_tagPositions⟩
  · intro s
    rw [(Schema.sensitive_spec hsound s).1]
    exact Schema.holdsTag_iff
  · exact fun c => c.answer_congr hsound sound_empty
  · intro more
    have hgrows := learnAll_grows more (after calls)
    rw [after_append]
    exact ⟨hgrows.kept, fun type positions => hgrows.get?_eq⟩
  · exact fun type h => get?_after_of_mem h
  · intro e he
    rcases (learnAll_grows calls .empty).origin e he with hempty | hoffered
    · exact absurd hempty List.not_mem_nil
    · exact hoffered

/-- Two versions of a record under one name: the positions of the first one stand in the index when
the second one, with a field in front, is asked about. -/
theorem after_transparent_versions :
    let first : RecordType := ⟨⟨"User", none⟩, [⟨"email", 0, .string (some .inline)⟩]⟩
    let second : RecordType := ⟨⟨"User", none⟩, [⟨"id", 0, .int⟩, ⟨"email", 1, .string (some .inline)⟩]⟩
    (Schema.record second).Parsed ∧
      (after [.positions first]).get? first = some [0] ∧
      (second.sensitivePositions (after [.positions first])).1.Pairwise (· < ·) ∧
      1 ∈ (second.sensitivePositions (after [.positions first])).1 ∧
      0 ∉ (second.sensitivePositions (after [.positions first])).1 := by
  intro first second
  have hparsed : (Schema.record second).Parsed :=
    ⟨.object [("fields", .array [
        .object [("name", .string "id"), ("type", .string "int")],
        .object [("name", .string "email"), ("type", .object [
          ("logicalType", .string "inline-encrypted-string"), ("type", .string "string")])]]),
      ("name", .string "User"), ("type", .string "record")], by rfl⟩
  obtain ⟨hpositions, -⟩ := after_transparent [.positions first]
  obtain ⟨hpair, hmem⟩ := hpositions (.record second) second hparsed (Schema.mem_nodes_self _)
  refine ⟨hparsed, by rfl, hpair, ?_, ?_⟩
  · exact (hmem 1).mpr ⟨⟨"email", 1, .string (some .inline)⟩, rfl, .inline, Schema.mem_nodes_self _⟩
  · intro h
    obtain ⟨f, hf, tag, htag⟩ := (hmem 0).mp h
    cases hf
    cases List.mem_singleton.mp htag

end FieldIndex

end FieldSeal
