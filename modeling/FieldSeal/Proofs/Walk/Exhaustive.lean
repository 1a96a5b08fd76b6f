import FieldSeal.Proofs.Schema.Resolution
import FieldSeal.Proofs.Walk.Coverage

/-!
# What a walk may leave out

A walk does not go everywhere. It passes over the fields that its index does not list and over the
items of a container when the schema of the items has no tag in it. `Walk.exhaust` is the walk that
has neither rule: it goes into every field, item and entry, and asks nothing. The rules for texts
and for unions are the same, so whatever the two do differently is owed to what is left out.

`Schema.ComesTo` says where the exhaustive walk stops, as `Schema.VisitsAt` does for the other one,
and `Schema.SkipsNothing` that the one comes to nothing that the other one leaves out. Then the two
agree, call by call, in any direction and with any cipher (`Walk.visit_agrees`). And only then: a
cipher that changes every text shows whatever has been left out (`Schema.skipsNothing_of_agrees`).

For which values nothing is left out is the matter of `Walk/Conformance`.
-/

set_option autoImplicit false

namespace FieldSeal

/-! ## The exhaustive walk -/

namespace Walk

variable (w : Walk)

mutual

/-- The walk that leaves nothing out. -/
def exhaust (s : Schema) : Value → Trace → Outcome Value
  | .string text, trace =>
    if s.takesInline then (w.visitInline text trace).map .string
    else .unchanged (.string text) trace
  | .tagged t, trace =>
    if s.takesTyped then (w.visitTyped t trace).map .tagged
    else .unchanged (.tagged t) trace
  | .record ⟨own, fields⟩, trace =>
    match s.recordType? own with
    | some type => (exhaustFields type.fields fields trace).map fun fields => .record ⟨own, fields⟩
    | none => .unchanged (.record ⟨own, fields⟩) trace
  | .array items, trace =>
    match s.itemSchema? with
    | some item => (exhaustItems item items trace).map .array
    | none => .unchanged (.array items) trace
  | .map entries, trace =>
    match s.valueSchema? with
    | some value => (exhaustEntries value entries trace).map .map
    | none => .unchanged (.map entries) trace
  | v, trace => .unchanged v trace

def exhaustFields (fields : List Field) : List Value → Trace → Outcome (List Value)
  | [], trace => .unchanged [] trace
  | v :: rest, trace =>
    match fields with
    | [] => .unchanged (v :: rest) trace
    | field :: fields =>
      ((exhaust field.schema v trace).andRest rest (exhaustFields fields rest)).map
        fun p => p.1 :: p.2

def exhaustItems (item : Schema) : List Value → Trace → Outcome (List Value)
  | [], trace => .unchanged [] trace
  | v :: rest, trace =>
    ((exhaust item v trace).andRest rest (exhaustItems item rest)).map fun p => p.1 :: p.2

def exhaustEntries (value : Schema) :
    List (String × Value) → Trace → Outcome (List (String × Value))
  | [], trace => .unchanged [] trace
  | (key, v) :: rest, trace =>
    ((exhaust value v trace).andRest rest (exhaustEntries value rest)).map fun p => (key, p.1) :: p.2

end

/-- Walks through all of a value along a schema. The index in the trace stays empty. -/
def runExhaustive (s : Schema) (v : Value) : Outcome Value := w.exhaust s v ⟨.empty, []⟩

end Walk

/-- The exhaustive walk along the schema comes to the stop. -/
inductive Schema.ComesTo : Schema → Value → Stop → Prop
  | inline {s : Schema} (text : String) (h : s.takesInline = true) :
      ComesTo s (.string text) ⟨[], .inline text⟩
  | typed {s : Schema} (t : TaggedText) (h : s.takesTyped = true) :
      ComesTo s (.tagged t) ⟨[], .typed t⟩
  | field {s : Schema} {own type : RecordType} {fields : List Value} {i : Nat} {f : Field}
      {v : Value} {stop : Stop} (hr : s.recordType? own = some type) (hf : type.fields[i]? = some f)
      (hv : fields[i]? = some v) (h : ComesTo f.schema v stop) :
      ComesTo s (.record ⟨own, fields⟩) (stop.under i)
  | item {s items : Schema} {vs : List Value} {i : Nat} {v : Value} {stop : Stop}
      (hs : s.itemSchema? = some items) (hv : vs[i]? = some v) (h : ComesTo items v stop) :
      ComesTo s (.array vs) (stop.under i)
  | entry {s values : Schema} {es : List (String × Value)} {i : Nat} {e : String × Value}
      {stop : Stop} (hs : s.valueSchema? = some values) (he : es[i]? = some e)
      (h : ComesTo values e.2 stop) : ComesTo s (.map es) (stop.under i)

/-- Nothing that the exhaustive walk comes to is left out. -/
def Schema.SkipsNothing (s : Schema) (v : Value) : Prop :=
  ∀ stop, s.ComesTo v stop → s.VisitsAt v stop

/-- Two outcomes are the same but for what an index has learned. -/
structure Outcome.Agrees {α : Type} (o o' : Outcome α) : Prop where
  value : o.value = o'.value
  calls : o.trace.calls = o'.trace.calls
  failure : o.failure = o'.failure

namespace Outcome.Agrees

variable {α β : Type}

theorem unchanged (a : α) {trace trace' : Trace} (h : trace.calls = trace'.calls) :
    Agrees (.unchanged a trace) (.unchanged a trace') := ⟨rfl, h, rfl⟩

theorem map {o o' : Outcome α} (h : Agrees o o') (f : α → β) : Agrees (o.map f) (o'.map f) :=
  ⟨congrArg f h.value, h.calls, h.failure⟩

theorem andRest {first first' : Outcome α} (h : Agrees first first')
    (hs : first.trace.index.Sound) {rest : β} {next next' : Trace → Outcome β}
    (hn : ∀ trace trace' : Trace, trace.index.Sound → trace.calls = trace'.calls →
      Agrees (next trace) (next' trace')) :
    Agrees (first.andRest rest next) (first'.andRest rest next') := by
  have hnext := hn first.trace first'.trace hs h.calls
  rw [Outcome.andRest, Outcome.andRest, ← h.failure]
  cases first.failure with
  | none => exact ⟨Prod.ext h.value hnext.value, hnext.calls, hnext.failure⟩
  | some e => exact ⟨Prod.ext h.value rfl, h.calls, rfl⟩

end Outcome.Agrees

/-! ## Nothing is left out: the walks agree -/

theorem Stop.under_inj {i j : Nat} {stop stop' : Stop} (h : stop.under i = stop'.under j) :
    i = j ∧ stop = stop' := by
  obtain ⟨path, slot⟩ := stop
  obtain ⟨path', slot'⟩ := stop'
  simp only [under, Stop.mk.injEq, List.cons.injEq] at h
  exact ⟨h.1.1, by rw [h.1.2, h.2]⟩

namespace Schema

variable {s : Schema} {i : Nat} {stop : Stop}

/-! A walk that comes to a stop below a part has gone into the part. -/

theorem VisitsAt.of_field {own type : RecordType} {fields : List Value} {f : Field} {v : Value}
    (h : s.VisitsAt (.record ⟨own, fields⟩) (stop.under i)) (hr : s.recordType? own = some type)
    (hf : type.fields[i]? = some f) (hv : fields[i]? = some v) :
    f.position ∈ type.tagPositions ∧ f.schema.VisitsAt v stop := by
  generalize he : stop.under i = below at h
  cases h with
  | field hr' hf' hv' hp h =>
    obtain ⟨rfl, rfl⟩ := Stop.under_inj he
    cases hr.symm.trans hr'
    cases hf.symm.trans hf'
    cases hv.symm.trans hv'
    exact ⟨hp, h⟩

theorem VisitsAt.of_item {vs : List Value} {v : Value}
    (h : s.VisitsAt (.array vs) (stop.under i)) (hv : vs[i]? = some v) :
    ∃ items, s.itemsToVisit? = some items ∧ items.VisitsAt v stop := by
  generalize he : stop.under i = below at h
  cases h with
  | item hs hv' h =>
    obtain ⟨rfl, rfl⟩ := Stop.under_inj he
    cases hv.symm.trans hv'
    exact ⟨_, hs, h⟩

theorem VisitsAt.of_entry {es : List (String × Value)} {e : String × Value}
    (h : s.VisitsAt (.map es) (stop.under i)) (hv : es[i]? = some e) :
    ∃ values, s.valuesToVisit? = some values ∧ values.VisitsAt e.2 stop := by
  generalize he : stop.under i = below at h
  cases h with
  | entry hs hv' h =>
    obtain ⟨rfl, rfl⟩ := Stop.under_inj he
    cases hv.symm.trans hv'
    exact ⟨_, hs, h⟩

/-- A stop below an item is one of the array, so the walk has gone into the item. -/
theorem SkipsNothing.item {item : Schema} {items : List Value} {v : Value}
    (h : s.SkipsNothing (.array items)) (hi : s.itemSchema? = some item)
    (hget : items[i]? = some v) (hstop : item.ComesTo v stop) :
    item.holdsTag = true ∧ item.VisitsAt v stop := by
  obtain ⟨item', hvisit, hat⟩ := (h _ (.item hi hget hstop)).of_item hget
  rw [itemsToVisit?, hi, Option.filter_eq_some_iff, Option.some.injEq] at hvisit
  obtain ⟨rfl, ht⟩ := hvisit
  exact ⟨ht, hat⟩

theorem SkipsNothing.entry {value : Schema} {entries : List (String × Value)}
    {e : String × Value} (h : s.SkipsNothing (.map entries)) (hi : s.valueSchema? = some value)
    (hget : entries[i]? = some e) (hstop : value.ComesTo e.2 stop) :
    value.holdsTag = true ∧ value.VisitsAt e.2 stop := by
  obtain ⟨value', hvisit, hat⟩ := (h _ (.entry hi hget hstop)).of_entry hget
  rw [valuesToVisit?, hi, Option.filter_eq_some_iff, Option.some.injEq] at hvisit
  obtain ⟨rfl, ht⟩ := hvisit
  exact ⟨ht, hat⟩

end Schema

/-- What happens to a single text does not depend on the index. -/
theorem Walk.visitInline_agrees {w : Walk} (index : FieldIndex) (text : String) (trace : Trace) :
    (w.visitInline text ⟨index, trace.calls⟩).Agrees (w.visitInline text trace) := by
  simp only [visitInline, call]
  cases w.leaf trace.calls.length text with
  | ok answer => exact .unchanged _ rfl
  | error e => cases w.direction <;> exact ⟨rfl, rfl, rfl⟩

theorem Walk.visitTyped_agrees {w : Walk} (index : FieldIndex) (t : TaggedText) (trace : Trace) :
    (w.visitTyped t ⟨index, trace.calls⟩).Agrees (w.visitTyped t trace) := by
  cases hd : w.direction with
  | encrypt =>
    cases t with
    | plain text =>
      simp only [visitTyped, hd, call]
      cases w.leaf trace.calls.length text <;> exact ⟨rfl, rfl, rfl⟩
    | encrypted text =>
      simp only [visitTyped, hd]
      exact .unchanged _ rfl
  | decrypt =>
    cases t with
    | plain text =>
      simp only [visitTyped, hd]
      exact .unchanged _ rfl
    | encrypted text =>
      simp only [visitTyped, hd, call]
      cases w.leaf trace.calls.length text <;> exact ⟨rfl, rfl, rfl⟩

@[simp] theorem Outcome.andRest_unchanged {α β : Type} (a : α) (trace : Trace) (rest : β)
    (next : Trace → Outcome β) :
    (Outcome.unchanged a trace).andRest rest next = (next trace).map (a, ·) := rfl

namespace Walk

variable {w : Walk}

mutual

/-- Where the exhaustive walk comes to no stop, it does nothing. -/
theorem exhaust_idle (s : Schema) : ∀ (v : Value), (∀ stop, ¬ s.ComesTo v stop) →
    ∀ trace, w.exhaust s v trace = .unchanged v trace
  | .string text, h, trace => by
    rw [exhaust, if_neg fun hi => h _ (.inline text hi)]
  | .tagged t, h, trace => by
    rw [exhaust, if_neg fun hi => h _ (.typed t hi)]
  | .record ⟨own, fields⟩, h, trace => by
    cases hr : s.recordType? own with
    | none => simp only [exhaust, hr]
    | some type =>
      have hidle := exhaustFields_idle type.fields fields
        (fun i f v hf hv stop hstop => h _ (.field hr hf hv hstop)) trace
      simp only [exhaust, hr, hidle]
      rfl
  | .array items, h, trace => by
    cases hi : s.itemSchema? with
    | none => simp only [exhaust, hi]
    | some item =>
      have hidle := exhaustItems_idle item items
        (fun i v hv stop hstop => h _ (.item hi hv hstop)) trace
      simp only [exhaust, hi, hidle]
      rfl
  | .map entries, h, trace => by
    cases hi : s.valueSchema? with
    | none => simp only [exhaust, hi]
    | some value =>
      have hidle := exhaustEntries_idle value entries
        (fun i e he stop hstop => h _ (.entry hi he hstop)) trace
      simp only [exhaust, hi, hidle]
      rfl
  | .null, _, _ | .boolean _, _, _ | .int _, _, _ | .long _, _, _ | .float _, _, _
  | .double _, _, _ | .bytes _, _, _ | .enum _, _, _ | .fixed _, _, _ => by
    rw [exhaust] <;> simp

theorem exhaustFields_idle (fields : List Field) : ∀ (vs : List Value),
    (∀ (i : Nat) (f : Field) (v : Value), fields[i]? = some f → vs[i]? = some v →
      ∀ stop, ¬ f.schema.ComesTo v stop) →
    ∀ trace, w.exhaustFields fields vs trace = .unchanged vs trace
  | [], _, trace => by rw [exhaustFields]
  | v :: rest, h, trace => by
    cases fields with
    | nil => rw [exhaustFields]
    | cons field fields =>
      rw [exhaustFields, exhaust_idle field.schema v (h 0 field v rfl rfl),
        Outcome.andRest_unchanged,
        exhaustFields_idle fields rest fun i f v hf hv => h (i + 1) f v hf hv]
      rfl

theorem exhaustItems_idle (item : Schema) : ∀ (vs : List Value),
    (∀ (i : Nat) (v : Value), vs[i]? = some v → ∀ stop, ¬ item.ComesTo v stop) →
    ∀ trace, w.exhaustItems item vs trace = .unchanged vs trace
  | [], _, trace => by rw [exhaustItems]
  | v :: rest, h, trace => by
    rw [exhaustItems, exhaust_idle item v (h 0 v rfl), Outcome.andRest_unchanged,
      exhaustItems_idle item rest fun i v hv => h (i + 1) v hv]
    rfl

theorem exhaustEntries_idle (value : Schema) : ∀ (es : List (String × Value)),
    (∀ (i : Nat) (e : String × Value), es[i]? = some e → ∀ stop, ¬ value.ComesTo e.2 stop) →
    ∀ trace, w.exhaustEntries value es trace = .unchanged es trace
  | [], _, trace => by rw [exhaustEntries]
  | (key, v) :: rest, h, trace => by
    rw [exhaustEntries, exhaust_idle value v (h 0 (key, v) rfl), Outcome.andRest_unchanged,
      exhaustEntries_idle value rest fun i e he => h (i + 1) e he]
    rfl

end

mutual

/-- Where nothing is left out, the walks agree: what the one goes into, the other goes into as well,
and what it does not go into has no stop for the other. -/
theorem visit_agrees {index : FieldIndex} (h : index.Sound) (s : Schema) : ∀ (v : Value),
    s.SkipsNothing v → ∀ trace : Trace,
    (w.visit s v ⟨index, trace.calls⟩).Agrees (w.exhaust s v trace)
  | .string text, _, trace => by
    rw [visit, exhaust]
    split
    · exact (visitInline_agrees index text trace).map _
    · exact .unchanged _ rfl
  | .tagged t, _, trace => by
    rw [visit, exhaust]
    split
    · exact (visitTyped_agrees index t trace).map _
    · exact .unchanged _ rfl
  | .record ⟨own, fields⟩, hv, trace => by
    cases hr : s.recordType? own with
    | none =>
      simp only [visit, exhaust, hr]
      exact .unchanged _ rfl
    | some type =>
      obtain ⟨hp, hi⟩ := RecordType.sensitivePositions_spec h type
      simp only [visit, exhaust, hr, hp]
      refine (visitFields_agrees hi type.fields type.tagPositions fields ?_ trace).map _
      intro i f v hf hget stop hstop
      exact (hv _ (.field hr hf hget hstop)).of_field hr hf hget
  | .array items, hv, trace => by
    rw [visit_array]
    cases hi : s.itemSchema? with
    | none =>
      simp only [exhaust, hi]
      exact .unchanged _ rfl
    | some item =>
      obtain ⟨hs, hx⟩ := Schema.sensitive_spec h item
      simp only [exhaust, hi]
      split
      next learned he =>
        rw [he] at hx
        exact (visitItems_agrees hx item items
          (fun i v hget stop hstop => (hv.item hi hget hstop).2) trace).map _
      next learned he =>
        rw [he] at hs
        rw [exhaustItems_idle item items fun i v hget stop hstop =>
          absurd (hs.trans (hv.item hi hget hstop).1) (by simp)]
        exact .unchanged _ rfl
  | .map entries, hv, trace => by
    rw [visit_map]
    cases hi : s.valueSchema? with
    | none =>
      simp only [exhaust, hi]
      exact .unchanged _ rfl
    | some value =>
      obtain ⟨hs, hx⟩ := Schema.sensitive_spec h value
      simp only [exhaust, hi]
      split
      next learned he =>
        rw [he] at hx
        exact (visitEntries_agrees hx value entries
          (fun i e hget stop hstop => (hv.entry hi hget hstop).2) trace).map _
      next learned he =>
        rw [he] at hs
        rw [exhaustEntries_idle value entries fun i e hget stop hstop =>
          absurd (hs.trans (hv.entry hi hget hstop).1) (by simp)]
        exact .unchanged _ rfl
  | .null, _, _ | .boolean _, _, _ | .int _, _, _ | .long _, _, _ | .float _, _, _
  | .double _, _, _ | .bytes _, _, _ | .enum _, _, _ | .fixed _, _, _ => by
    rw [visit, exhaust]
    · exact .unchanged _ rfl
    all_goals simp

theorem visitFields_agrees {index : FieldIndex} (h : index.Sound) (fields : List Field)
    (positions : List Nat) : ∀ (vs : List Value),
    (∀ (i : Nat) (f : Field) (v : Value), fields[i]? = some f → vs[i]? = some v →
      ∀ stop, f.schema.ComesTo v stop → f.position ∈ positions ∧ f.schema.VisitsAt v stop) →
    ∀ trace : Trace, (w.visitFields fields positions vs ⟨index, trace.calls⟩).Agrees
      (w.exhaustFields fields vs trace)
  | [], _, trace => by
    rw [visitFields, exhaustFields]
    exact .unchanged _ rfl
  | v :: rest, hv, trace => by
    cases fields with
    | nil =>
      rw [visitFields, exhaustFields]
      exact .unchanged _ rfl
    | cons field fields =>
      rw [visitFields, exhaustFields]
      have hfirst := hv 0 field v rfl rfl
      have hrest : ∀ trace trace' : Trace, trace.index.Sound → trace.calls = trace'.calls →
          (w.visitFields fields positions rest trace).Agrees
            (w.exhaustFields fields rest trace') := by
        intro after after' hs hcalls
        have := visitFields_agrees hs fields positions rest
          (fun i f v hf hget => hv (i + 1) f v hf hget) after'
        rwa [← hcalls] at this
      refine Outcome.Agrees.map (.andRest ?_ ?_ hrest) _
      · split
        · exact visit_agrees h field.schema v (fun stop hstop => (hfirst stop hstop).2) trace
        next hp =>
          rw [exhaust_idle field.schema v fun stop hstop => hp (by simpa using (hfirst stop hstop).1)]
          exact .unchanged _ rfl
      · split
        · exact (visit_follows h trace.calls field.schema v).sound
        · exact h

theorem visitItems_agrees {index : FieldIndex} (h : index.Sound) (item : Schema) :
    ∀ (vs : List Value),
    (∀ (i : Nat) (v : Value), vs[i]? = some v → item.SkipsNothing v) →
    ∀ trace : Trace, (w.visitItems item vs ⟨index, trace.calls⟩).Agrees
      (w.exhaustItems item vs trace)
  | [], _, trace => by
    rw [visitItems, exhaustItems]
    exact .unchanged _ rfl
  | v :: rest, hv, trace => by
    rw [visitItems, exhaustItems]
    have hrest : ∀ trace trace' : Trace, trace.index.Sound → trace.calls = trace'.calls →
        (w.visitItems item rest trace).Agrees (w.exhaustItems item rest trace') := by
      intro after after' hs hcalls
      have := visitItems_agrees hs item rest (fun i v hget => hv (i + 1) v hget) after'
      rwa [← hcalls] at this
    exact Outcome.Agrees.map (.andRest (visit_agrees h item v (hv 0 v rfl) trace)
      (visit_follows h trace.calls item v).sound hrest) _

theorem visitEntries_agrees {index : FieldIndex} (h : index.Sound) (value : Schema) :
    ∀ (es : List (String × Value)),
    (∀ (i : Nat) (e : String × Value), es[i]? = some e → value.SkipsNothing e.2) →
    ∀ trace : Trace, (w.visitEntries value es ⟨index, trace.calls⟩).Agrees
      (w.exhaustEntries value es trace)
  | [], _, trace => by
    rw [visitEntries, exhaustEntries]
    exact .unchanged _ rfl
  | (key, v) :: rest, hv, trace => by
    rw [visitEntries, exhaustEntries]
    have hrest : ∀ trace trace' : Trace, trace.index.Sound → trace.calls = trace'.calls →
        (w.visitEntries value rest trace).Agrees (w.exhaustEntries value rest trace') := by
      intro after after' hs hcalls
      have := visitEntries_agrees hs value rest (fun i e hget => hv (i + 1) e hget) after'
      rwa [← hcalls] at this
    exact Outcome.Agrees.map (.andRest (visit_agrees h value v (hv 0 (key, v) rfl) trace)
      (visit_follows h trace.calls value v).sound hrest) _

end

end Walk

/-! ## Something is left out: a cipher shows it -/

/-- What the exhaustive walk finds at a stop is what the value has at its path. -/
theorem Schema.ComesTo.at? {s : Schema} {v : Value} {stop : Stop} (h : s.ComesTo v stop) :
    Value.at? stop.path v = some stop.slot.value := by
  induction h with
  | inline | typed => rfl
  | field _ _ hv _ ih =>
    rw [Stop.under, Value.at?, hv]
    exact ih
  | item _ hv _ ih =>
    rw [Stop.under, Value.at?, hv]
    exact ih
  | entry _ he _ ih =>
    rw [Stop.under, Value.at?, he]
    exact ih

namespace Outcome

variable {α β : Type} {first : Outcome α} {rest : β} {next : Trace → Outcome β}

theorem andRest_value (h : first.failure = none) :
    (first.andRest rest next).value = (first.value, (next first.trace).value) := by
  rw [andRest, h]

theorem andRest_failure (h : first.failure = none) (hn : ∀ trace, (next trace).failure = none) :
    (first.andRest rest next).failure = none := by
  rw [andRest, h]
  exact hn _

end Outcome

namespace Walk

variable {w : Walk}

/-! What happens to a single text is its turn. -/

theorem turn_inline (ht : w.leaf.Total) (text : String) (trace : Trace) :
    (w.visitInline text trace).failure = none ∧
      w.turn trace.calls.length (.inline text) = .ok (.inline (w.visitInline text trace).value) := by
  obtain ⟨d, hd⟩ := turn_of_total ht trace.calls.length (.inline text)
  have hagrees := visitInline_agrees (w := w) .empty text trace
  have hrun := visitInline_follows (w := w) FieldIndex.sound_empty trace.calls text
  have hslot := hrun.slots_eq
  have hfailure := hrun.failure_eq
  simp only [turnAll, hd, List.cons.injEq, and_true] at hslot hfailure
  rw [hagrees.value] at hslot
  exact ⟨hagrees.failure.symm.trans hfailure, hd.trans (by rw [hslot])⟩

theorem turn_typed (ht : w.leaf.Total) (t : TaggedText) (trace : Trace) :
    (w.visitTyped t trace).failure = none ∧
      w.turn trace.calls.length (.typed t) = .ok (.typed (w.visitTyped t trace).value) := by
  obtain ⟨d, hd⟩ := turn_of_total ht trace.calls.length (.typed t)
  have hagrees := visitTyped_agrees (w := w) .empty t trace
  have hrun := visitTyped_follows (w := w) FieldIndex.sound_empty trace.calls t
  have hslot := hrun.slots_eq
  have hfailure := hrun.failure_eq
  simp only [turnAll, hd, List.cons.injEq, and_true] at hslot hfailure
  rw [hagrees.value] at hslot
  exact ⟨hagrees.failure.symm.trans hfailure, hd.trans (by rw [hslot])⟩

mutual

/-- With a leaf function that answers for every text no walk fails. -/
theorem exhaust_failure (ht : w.leaf.Total) (s : Schema) : ∀ (v : Value) (trace : Trace),
    (w.exhaust s v trace).failure = none
  | .string text, trace => by
    rw [exhaust]
    split
    · exact (turn_inline ht text trace).1
    · rfl
  | .tagged t, trace => by
    rw [exhaust]
    split
    · exact (turn_typed ht t trace).1
    · rfl
  | .record ⟨own, fields⟩, trace => by
    rw [exhaust]
    split
    next type _ => exact exhaustFields_failure ht type.fields fields trace
    next => rfl
  | .array items, trace => by
    rw [exhaust]
    split
    next item _ => exact exhaustItems_failure ht item items trace
    next => rfl
  | .map entries, trace => by
    rw [exhaust]
    split
    next value _ => exact exhaustEntries_failure ht value entries trace
    next => rfl
  | .null, _ | .boolean _, _ | .int _, _ | .long _, _ | .float _, _ | .double _, _ | .bytes _, _
  | .enum _, _ | .fixed _, _ => by
    rw [exhaust]
    · rfl
    all_goals simp

theorem exhaustFields_failure (ht : w.leaf.Total) (fields : List Field) :
    ∀ (vs : List Value) (trace : Trace), (w.exhaustFields fields vs trace).failure = none
  | [], trace => by
    rw [exhaustFields]
    rfl
  | v :: rest, trace => by
    cases fields with
    | nil =>
      rw [exhaustFields]
      rfl
    | cons field fields =>
      rw [exhaustFields]
      exact Outcome.andRest_failure (exhaust_failure ht field.schema v trace)
        (exhaustFields_failure ht fields rest)

theorem exhaustItems_failure (ht : w.leaf.Total) (item : Schema) :
    ∀ (vs : List Value) (trace : Trace), (w.exhaustItems item vs trace).failure = none
  | [], trace => by
    rw [exhaustItems]
    rfl
  | v :: rest, trace => by
    rw [exhaustItems]
    exact Outcome.andRest_failure (exhaust_failure ht item v trace)
      (exhaustItems_failure ht item rest)

theorem exhaustEntries_failure (ht : w.leaf.Total) (value : Schema) :
    ∀ (es : List (String × Value)) (trace : Trace),
    (w.exhaustEntries value es trace).failure = none
  | [], trace => by
    rw [exhaustEntries]
    rfl
  | (key, v) :: rest, trace => by
    rw [exhaustEntries]
    exact Outcome.andRest_failure (exhaust_failure ht value v trace)
      (exhaustEntries_failure ht value rest)

end

/-! So each part has been visited, after some calls. -/

theorem getElem?_exhaustFields (ht : w.leaf.Total) {fields : List Field} {vs : List Value} {i : Nat}
    {f : Field} {v : Value} (hf : fields[i]? = some f) (hv : vs[i]? = some v) (trace : Trace) :
    ∃ before, (w.exhaustFields fields vs trace).value[i]?
      = some (w.exhaust f.schema v before).value := by
  induction vs generalizing fields i trace with
  | nil => simp at hv
  | cons u rest ih =>
    cases fields with
    | nil => simp at hf
    | cons field fields =>
      rw [exhaustFields, Outcome.map, Outcome.andRest_value (exhaust_failure ht field.schema u trace)]
      cases i with
      | zero =>
        cases hf
        cases hv
        exact ⟨trace, rfl⟩
      | succ i =>
        rw [List.getElem?_cons_succ] at hf hv
        exact ih hf hv _

theorem getElem?_exhaustItems (ht : w.leaf.Total) {item : Schema} {vs : List Value} {i : Nat}
    {v : Value} (hv : vs[i]? = some v) (trace : Trace) :
    ∃ before, (w.exhaustItems item vs trace).value[i]? = some (w.exhaust item v before).value := by
  induction vs generalizing i trace with
  | nil => simp at hv
  | cons u rest ih =>
    rw [exhaustItems, Outcome.map, Outcome.andRest_value (exhaust_failure ht item u trace)]
    cases i with
    | zero =>
      cases hv
      exact ⟨trace, rfl⟩
    | succ i =>
      rw [List.getElem?_cons_succ] at hv
      exact ih hv _

theorem getElem?_exhaustEntries (ht : w.leaf.Total) {value : Schema} {es : List (String × Value)}
    {i : Nat} {e : String × Value} (he : es[i]? = some e) (trace : Trace) :
    ∃ before, (w.exhaustEntries value es trace).value[i]?
      = some (e.1, (w.exhaust value e.2 before).value) := by
  induction es generalizing i trace with
  | nil => simp at he
  | cons d rest ih =>
    rw [exhaustEntries, Outcome.map, Outcome.andRest_value (exhaust_failure ht value d.2 trace)]
    cases i with
    | zero =>
      cases he
      exact ⟨trace, rfl⟩
    | succ i =>
      rw [List.getElem?_cons_succ] at he
      exact ih he _

/-- Everything that the exhaustive walk comes to has its turn. -/
theorem exhaust_turn (ht : w.leaf.Total) {s : Schema} {v : Value} {stop : Stop}
    (h : s.ComesTo v stop) (trace : Trace) : ∃ n d, w.turn n stop.slot = .ok d ∧
      Value.at? stop.path (w.exhaust s v trace).value = some d.value := by
  induction h generalizing trace with
  | inline text hs =>
    rw [exhaust, if_pos hs]
    exact ⟨_, _, (turn_inline ht text trace).2, rfl⟩
  | typed t hs =>
    rw [exhaust, if_pos hs]
    exact ⟨_, _, (turn_typed ht t trace).2, rfl⟩
  | field hr hf hv _ ih =>
    obtain ⟨before, he⟩ := getElem?_exhaustFields ht hf hv trace
    simp only [exhaust, hr, Outcome.map, Stop.under, Value.at?]
    rw [he]
    exact ih before
  | item hs hv _ ih =>
    obtain ⟨before, he⟩ := getElem?_exhaustItems ht hv trace
    simp only [exhaust, hs, Outcome.map, Stop.under, Value.at?]
    rw [he]
    exact ih before
  | entry hs he _ ih =>
    obtain ⟨before, he⟩ := getElem?_exhaustEntries ht he trace
    simp only [exhaust, hs, Outcome.map, Stop.under, Value.at?]
    rw [he]
    exact ih before

end Walk

/-- Makes a text longer. -/
def lengthen : Leaf := fun _ text => .ok (text ++ "x")

theorem total_lengthen : lengthen.Total := fun _ _ => ⟨_, rfl⟩

/-- In one of the two directions the mark of a slot calls for its turn, and then it is not what it
was. -/
theorem Slot.exists_turn_ne (c : Slot) :
    ∃ direction, ∀ n d, Walk.turn ⟨direction, lengthen⟩ n c = .ok d → d ≠ c := by
  have hne : ∀ text : String, text ++ "x" ≠ text := by
    intro text h
    have hlen := congrArg String.length h
    simp at hlen
  have inline : ∀ text, (∀ n d, Walk.turn ⟨.encrypt, lengthen⟩ n (.inline text) = .ok d →
      d ≠ .inline text) := by
    intro text n d h he
    simp only [Walk.turn, handed?, lengthen, answered, Except.ok.injEq] at h
    rw [he, Slot.inline.injEq] at h
    exact hne text h
  cases c with
  | inline text => exact ⟨.encrypt, inline text⟩
  | typed t =>
    cases t with
    | plain text =>
      refine ⟨.encrypt, fun n d h => ?_⟩
      simp only [Walk.turn, handed?, lengthen, answered, Except.ok.injEq] at h
      simp [← h]
    | encrypted text =>
      refine ⟨.decrypt, fun n d h => ?_⟩
      simp only [Walk.turn, handed?, lengthen, answered, Except.ok.injEq] at h
      simp [← h]

/-- A walk leaves alone what it does not come to. -/
theorem Walk.at?_run {w : Walk} {index : FieldIndex} (h : index.Sound) {s : Schema} {v : Value}
    {stop : Stop} (hat : Value.at? stop.path v = some stop.slot.value) (hn : ¬ s.VisitsAt v stop) :
    Value.at? stop.path (w.run s v index).value = some stop.slot.value := by
  exact Schema.at?_of_blank_eq (w.run_follows h s v).blank_eq hat fun other ho hp =>
    hn (Schema.mem_stops.mp (Schema.mem_stops_of_at? hat ho hp))

/-- Walks that agree for all ciphers come to the same things. -/
theorem Schema.skipsNothing_of_agrees {s : Schema} {v : Value} {index : FieldIndex}
    (h : index.Sound) (ha : ∀ w : Walk, (w.run s v index).Agrees (w.runExhaustive s v)) :
    s.SkipsNothing v := by
  intro stop hstop
  by_contra hn
  obtain ⟨direction, hne⟩ := stop.slot.exists_turn_ne
  obtain ⟨n, d, hd, hat⟩ :=
    Walk.exhaust_turn (w := ⟨direction, lengthen⟩) total_lengthen hstop ⟨.empty, []⟩
  have hrun := Walk.at?_run (w := ⟨direction, lengthen⟩) h hstop.at? hn
  rw [(ha _).value, Walk.runExhaustive, hat, Option.some.injEq] at hrun
  exact hne n d hd (Slot.value_inj hrun)

end FieldSeal
