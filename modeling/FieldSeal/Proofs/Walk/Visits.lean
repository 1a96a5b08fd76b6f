import FieldSeal.Proofs.Value.Shapes
import FieldSeal.Proofs.Walk.Stops

/-!
# The way to a stop

`Schema.stops` lists where a walk stops; `Schema.VisitsAt` says how it gets there, one rule for
each thing that a walk can go into. They are the same (`Schema.mem_stops`), and facts about single
stops are inductions over the rules: what a walk finds at a stop is what the value has at its path.

The other half is what lies beside the way. Values with one blank have the same text at every path
where no stop is (`Schema.slot_eq_of_blank_eq`), and they differ in texts only
(`Schema.shape_eq_of_blank_eq`).
-/

set_option autoImplicit false

namespace FieldSeal

@[simp] def Slot.value : Slot → Value
  | .inline text => .string text
  | .typed t => .tagged t

theorem Slot.value_inj {c d : Slot} (h : c.value = d.value) : c = d := by
  cases c <;> cases d <;> simp_all [value]

/-! ## Stops in a row of parts -/

theorem mem_stopsOfFields {stop : Stop} {positions : List Nat} :
    ∀ {fields : List Field} {vs : List Value}, stop ∈ stopsOfFields fields positions vs ↔
      ∃ i f v inner, fields[i]? = some f ∧ vs[i]? = some v ∧ positions.contains f.position = true ∧
        inner ∈ f.schema.stops v ∧ stop = Stop.under i inner
  | fields, [] => by simp
  | [], v :: rest => by simp
  | field :: fields, v :: rest => by
    rw [stopsOfFields, List.mem_append, List.mem_map]
    constructor
    · rintro (h | ⟨stop, h, rfl⟩)
      · split at h
        next hp =>
          obtain ⟨inner, hi, rfl⟩ := List.mem_map.mp h
          exact ⟨0, field, v, inner, rfl, rfl, hp, hi, rfl⟩
        next => simp at h
      · obtain ⟨i, f, w, inner, hf, hw, hp, hi, rfl⟩ := mem_stopsOfFields.mp h
        exact ⟨i + 1, f, w, inner, hf, hw, hp, hi, rfl⟩
    · rintro ⟨i, f, w, inner, hf, hw, hp, hi, rfl⟩
      cases i with
      | zero =>
        cases hf
        cases hw
        rw [if_pos hp]
        exact .inl (List.mem_map.mpr ⟨inner, hi, rfl⟩)
      | succ i => exact .inr ⟨_, mem_stopsOfFields.mpr ⟨i, f, w, inner, hf, hw, hp, hi, rfl⟩, rfl⟩

theorem mem_stopsOfItems {stop : Stop} {item : Schema} {vs : List Value} :
    stop ∈ stopsOfItems item vs ↔
      ∃ i v inner, vs[i]? = some v ∧ inner ∈ item.stops v ∧ stop = Stop.under i inner := by
  induction vs generalizing stop with
  | nil => simp
  | cons v rest ih =>
    rw [stopsOfItems, List.mem_append, List.mem_map, List.mem_map]
    constructor
    · rintro (⟨inner, hi, rfl⟩ | ⟨stop, h, rfl⟩)
      · exact ⟨0, v, inner, rfl, hi, rfl⟩
      · obtain ⟨i, w, inner, hw, hi, rfl⟩ := ih.mp h
        exact ⟨i + 1, w, inner, hw, hi, rfl⟩
    · rintro ⟨i, w, inner, hw, hi, rfl⟩
      cases i with
      | zero =>
        cases hw
        exact .inl ⟨inner, hi, rfl⟩
      | succ i => exact .inr ⟨_, ih.mpr ⟨i, w, inner, hw, hi, rfl⟩, rfl⟩

theorem mem_stopsOfEntries {stop : Stop} {value : Schema} {es : List (String × Value)} :
    stop ∈ stopsOfEntries value es ↔
      ∃ i e inner, es[i]? = some e ∧ inner ∈ value.stops e.2 ∧ stop = Stop.under i inner := by
  induction es generalizing stop with
  | nil => simp
  | cons e rest ih =>
    obtain ⟨key, v⟩ := e
    rw [stopsOfEntries, List.mem_append, List.mem_map, List.mem_map]
    constructor
    · rintro (⟨inner, hi, rfl⟩ | ⟨stop, h, rfl⟩)
      · exact ⟨0, (key, v), inner, rfl, hi, rfl⟩
      · obtain ⟨i, w, inner, hw, hi, rfl⟩ := ih.mp h
        exact ⟨i + 1, w, inner, hw, hi, rfl⟩
    · rintro ⟨i, w, inner, hw, hi, rfl⟩
      cases i with
      | zero =>
        cases hw
        exact .inl ⟨inner, hi, rfl⟩
      | succ i => exact .inr ⟨_, ih.mpr ⟨i, w, inner, hw, hi, rfl⟩, rfl⟩

/-! ## Rules for the way -/

/-- A walk along the schema comes to the stop. -/
inductive Schema.VisitsAt : Schema → Value → Stop → Prop
  | inline {s : Schema} (text : String) (h : s.takesInline = true) :
      VisitsAt s (.string text) ⟨[], .inline text⟩
  | typed {s : Schema} (t : TaggedText) (h : s.takesTyped = true) :
      VisitsAt s (.tagged t) ⟨[], .typed t⟩
  | field {s : Schema} {own type : RecordType} {fields : List Value} {i : Nat} {f : Field}
      {v : Value} {stop : Stop} (hr : s.recordType? own = some type) (hf : type.fields[i]? = some f)
      (hv : fields[i]? = some v) (hp : f.position ∈ type.tagPositions)
      (h : VisitsAt f.schema v stop) : VisitsAt s (.record ⟨own, fields⟩) (stop.under i)
  | item {s items : Schema} {vs : List Value} {i : Nat} {v : Value} {stop : Stop}
      (hs : s.itemsToVisit? = some items) (hv : vs[i]? = some v) (h : VisitsAt items v stop) :
      VisitsAt s (.array vs) (stop.under i)
  | entry {s values : Schema} {es : List (String × Value)} {i : Nat} {e : String × Value}
      {stop : Stop} (hs : s.valuesToVisit? = some values) (he : es[i]? = some e)
      (h : VisitsAt values e.2 stop) :
      VisitsAt s (.map es) (stop.under i)

theorem Schema.visitsAt_of_mem_stops {s : Schema} {v : Value} {stop : Stop} (h : stop ∈ s.stops v) :
    s.VisitsAt v stop := by
  match v with
  | .string text =>
    rw [stops] at h
    split at h
    next hi =>
      rw [List.mem_singleton.mp h]
      exact .inline text hi
    next => simp at h
  | .tagged t =>
    rw [stops] at h
    split at h
    next hi =>
      rw [List.mem_singleton.mp h]
      exact .typed t hi
    next => simp at h
  | .record ⟨own, fields⟩ =>
    rw [stops] at h
    split at h
    next type hr =>
      obtain ⟨i, f, v, inner, hf, hv, hp, hi, he⟩ := mem_stopsOfFields.mp h
      have hlen : inner.path.length < stop.path.length := by simp [he, Stop.under]
      rw [he]
      exact .field hr hf hv (by simpa using hp) (visitsAt_of_mem_stops hi)
    next => simp at h
  | .array items =>
    rw [stops] at h
    split at h
    next item hs =>
      obtain ⟨i, v, inner, hv, hi, he⟩ := mem_stopsOfItems.mp h
      have hlen : inner.path.length < stop.path.length := by simp [he, Stop.under]
      rw [he]
      exact .item hs hv (visitsAt_of_mem_stops hi)
    next => simp at h
  | .map entries =>
    rw [stops] at h
    split at h
    next value hs =>
      obtain ⟨i, e, inner, hv, hi, he⟩ := mem_stopsOfEntries.mp h
      have hlen : inner.path.length < stop.path.length := by simp [he, Stop.under]
      rw [he]
      exact .entry hs hv (visitsAt_of_mem_stops hi)
    next => simp at h
  | .null | .boolean _ | .int _ | .long _ | .float _ | .double _ | .bytes _ | .enum _ | .fixed _ =>
    simp [stops] at h
termination_by stop.path.length

/-- **The stops are what the rules lead to.** -/
theorem Schema.mem_stops {s : Schema} {v : Value} {stop : Stop} :
    stop ∈ s.stops v ↔ s.VisitsAt v stop := by
  refine ⟨visitsAt_of_mem_stops, ?_⟩
  intro h
  induction h with
  | inline text h => simp [stops, h]
  | typed t h => simp [stops, h]
  | field hr hf hv hp _ ih =>
    simp only [stops, hr]
    exact mem_stopsOfFields.mpr ⟨_, _, _, _, hf, hv, by simpa using hp, ih, rfl⟩
  | item hs hv _ ih =>
    simp only [stops, hs]
    exact mem_stopsOfItems.mpr ⟨_, _, _, hv, ih, rfl⟩
  | entry hs he _ ih =>
    simp only [stops, hs]
    exact mem_stopsOfEntries.mpr ⟨_, _, _, he, ih, rfl⟩

/-- What a walk finds at a stop is what the value has at its path. -/
theorem Schema.at?_of_mem_stops {s : Schema} {v : Value} {stop : Stop} (h : stop ∈ s.stops v) :
    Value.at? stop.path v = some stop.slot.value := by
  rw [mem_stops] at h
  induction h with
  | inline | typed => rfl
  | field _ _ hv _ _ ih =>
    rw [Stop.under, Value.at?, hv]
    exact ih
  | item _ hv _ ih =>
    rw [Stop.under, Value.at?, hv]
    exact ih
  | entry _ he _ ih =>
    rw [Stop.under, Value.at?, he]
    exact ih

/-- Where some stop is, it is the stop with what the value has there. -/
theorem Schema.mem_stops_of_at? {s : Schema} {v : Value} {stop other : Stop}
    (hat : Value.at? stop.path v = some stop.slot.value) (ho : other ∈ s.stops v)
    (hp : other.path = stop.path) : stop ∈ s.stops v := by
  have hother := at?_of_mem_stops ho
  rw [hp, hat, Option.some.injEq] at hother
  have he : stop = other := by
    cases stop
    cases other
    rw [Stop.mk.injEq]
    exact ⟨hp.symm, Slot.value_inj hother⟩
  rwa [he]

/-- At a path there is a stop, with others before and after it, or there is none. -/
theorem Schema.split_stops (s : Schema) (v : Value) (path : Path) :
    (∃ before stop after, s.stops v = before ++ stop :: after ∧ stop.path = path) ∨
      ∀ stop ∈ s.stops v, stop.path ≠ path := by
  by_cases h : ∃ stop ∈ s.stops v, stop.path = path
  · obtain ⟨stop, hs, hp⟩ := h
    obtain ⟨before, after, hsplit⟩ := List.append_of_mem hs
    exact .inl ⟨before, stop, after, hsplit, hp⟩
  · exact .inr fun stop hs hp => h ⟨stop, hs, hp⟩

theorem Schema.part_of_mem_slots {s : Schema} {v : Value} {c : Slot} (h : c ∈ s.slots v) :
    c.value ∈ v.parts := by
  obtain ⟨stop, hs, rfl⟩ := List.mem_map.mp h
  exact Value.mem_parts_of_at? (at?_of_mem_stops hs)

/-! ## What a walk does not stop at stays as it was -/

theorem getElem?_blankFields {positions : List Nat} :
    ∀ {fields : List Field} {vs : List Value} {i : Nat} {v : Value}, vs[i]? = some v →
      (blankFields fields positions vs)[i]? = some (match fields[i]? with
        | some f => if positions.contains f.position then f.schema.blank v else v
        | none => v)
  | _, [], _, _, h => by simp at h
  | [], v :: rest, i, w, h => by rw [blankFields, h, List.getElem?_nil]
  | field :: fields, v :: rest, 0, w, h => by
    cases h
    rw [blankFields]
    rfl
  | field :: fields, v :: rest, i + 1, w, h => by
    rw [blankFields, List.getElem?_cons_succ, List.getElem?_cons_succ]
    exact getElem?_blankFields h

@[simp] theorem blankItems_eq_map (item : Schema) (vs : List Value) :
    blankItems item vs = vs.map item.blank := by
  induction vs with
  | nil => rfl
  | cons v rest ih => rw [blankItems, ih, List.map_cons]

@[simp] theorem blankEntries_eq_map (value : Schema) (es : List (String × Value)) :
    blankEntries value es = es.map fun e => (e.1, value.blank e.2) := by
  induction es with
  | nil => rfl
  | cons e rest ih => rw [blankEntries, ih, List.map_cons]

/-- The blank of a value has the text at every path at which no stop is. -/
theorem Schema.at?_blank {c : Slot} {path : Path} {s : Schema} {v : Value}
    (h : Value.at? path v = some c.value) (hn : ∀ stop ∈ s.stops v, stop.path ≠ path) :
    Value.at? path (s.blank v) = some c.value := by
  induction path generalizing s v with
  | nil =>
    rw [Value.at?, Option.some.injEq] at h
    subst h
    cases c with
    | inline text =>
      rw [Slot.value, blank, Value.at?]
      split
      next hi => exact absurd rfl (hn _ (mem_stops.mpr (.inline text hi)))
      next => rfl
    | typed t =>
      rw [Slot.value, blank, Value.at?]
      split
      next hi => exact absurd rfl (hn _ (mem_stops.mpr (.typed t hi)))
      next => rfl
  | cons i path ih =>
    cases v with
    | record r =>
      obtain ⟨own, fields⟩ := r
      obtain ⟨v, hv, h⟩ := Option.bind_eq_some_iff.mp h
      rw [blank]
      split
      next type hr =>
        rw [Value.at?, getElem?_blankFields hv, Option.bind_some]
        split
        next f hf =>
          split
          next hp =>
            -- A stop of the field at the rest of the path would be one of the record at the path.
            refine ih h fun stop hs he => ?_
            have hp' : f.position ∈ type.tagPositions := by simpa using hp
            refine hn _ (mem_stops.mpr (.field hr hf hv hp' (mem_stops.mp hs))) ?_
            rw [Stop.under, he]
          next => exact h
        next => exact h
      next =>
        rw [Value.at?, hv]
        exact h
    | array items =>
      obtain ⟨v, hv, h⟩ := Option.bind_eq_some_iff.mp h
      rw [blank]
      split
      next item hi =>
        rw [Value.at?, blankItems_eq_map, List.getElem?_map, hv]
        refine ih h fun stop hs he => hn _ (mem_stops.mpr (.item hi hv (mem_stops.mp hs))) ?_
        rw [Stop.under, he]
      next =>
        rw [Value.at?, hv]
        exact h
    | map entries =>
      obtain ⟨e, he, h⟩ := Option.bind_eq_some_iff.mp h
      rw [blank]
      split
      next value hi =>
        rw [Value.at?, blankEntries_eq_map, List.getElem?_map, he]
        refine ih h fun stop hs hp => hn _ (mem_stops.mpr (.entry hi he (mem_stops.mp hs))) ?_
        rw [Stop.under, hp]
      next =>
        rw [Value.at?, he]
        exact h
    | _ => simp [Value.at?] at h

/-- Two values with one blank have the same text where no stop is. -/
theorem Schema.slot_eq_of_blank_eq {s : Schema} {v w : Value} (hb : s.blank w = s.blank v)
    {path : Path} {c d : Slot} (hv : Value.at? path v = some c.value)
    (hw : Value.at? path w = some d.value)
    (hn : ∀ stop ∈ s.stops v, stop.path ≠ path) : d = c := by
  have hpaths : (s.stops w).map (·.path) = (s.stops v).map (·.path) := by
    simpa [Function.comp_def, Stop.place] using congrArg (List.map Prod.fst) (stops_congr hb)
  have hnw : ∀ stop ∈ s.stops w, stop.path ≠ path := by
    intro stop hs he
    have hm : path ∈ (s.stops v).map (·.path) := by
      rw [← hpaths, ← he]
      exact List.mem_map_of_mem hs
    obtain ⟨other, ho, hp⟩ := List.mem_map.mp hm
    exact hn other ho hp
  have hv' := at?_blank hv hn
  have hw' := at?_blank hw hnw
  rw [hb, hv', Option.some.injEq] at hw'
  exact (Slot.value_inj hw').symm

mutual

/-- A blank differs in texts only. -/
@[simp] theorem Schema.shape_blank (s : Schema) : ∀ v : Value, (s.blank v).shape = v.shape
  | .string _ => by simp only [Schema.blank, Value.mapTexts]
  | .tagged _ => by simp only [Schema.blank, Value.mapTexts]
  | .record ⟨own, fields⟩ => by
    cases h : s.recordType? own with
    | none => simp only [Schema.blank, h]
    | some type =>
      simp only [Schema.blank, h, Value.mapTexts, Record.mapTexts]
      rw [shape_blankFields]
  | .array items => by
    cases h : s.itemsToVisit? with
    | none => simp only [Schema.blank, h]
    | some item =>
      simp only [Schema.blank, h, Value.mapTexts]
      rw [shape_blankItems]
  | .map entries => by
    cases h : s.valuesToVisit? with
    | none => simp only [Schema.blank, h]
    | some value =>
      simp only [Schema.blank, h, Value.mapTexts]
      rw [shape_blankEntries]
  | .null | .boolean _ | .int _ | .long _ | .float _ | .double _ | .bytes _ | .enum _
  | .fixed _ => by rw [Schema.blank] <;> simp

theorem shape_blankFields (fields : List Field) (positions : List Nat) : ∀ vs : List Value,
    mapTextsOfItems (fun _ => "") (fun _ => .encrypted "") (blankFields fields positions vs)
      = mapTextsOfItems (fun _ => "") (fun _ => .encrypted "") vs
  | [] => by rw [blankFields]
  | v :: rest => by
    cases fields with
    | nil => rw [blankFields]
    | cons field fields =>
      have hv := Schema.shape_blank field.schema v
      rw [blankFields, mapTextsOfItems, mapTextsOfItems, shape_blankFields fields positions rest]
      split
      · exact congrArg (· :: _) hv
      · rfl

theorem shape_blankItems (item : Schema) : ∀ vs : List Value,
    mapTextsOfItems (fun _ => "") (fun _ => .encrypted "") (blankItems item vs)
      = mapTextsOfItems (fun _ => "") (fun _ => .encrypted "") vs
  | [] => by rw [blankItems]
  | v :: rest => by
    have hv := Schema.shape_blank item v
    rw [blankItems, mapTextsOfItems, mapTextsOfItems, shape_blankItems item rest]
    exact congrArg (· :: _) hv

theorem shape_blankEntries (value : Schema) : ∀ es : List (String × Value),
    mapTextsOfEntries (fun _ => "") (fun _ => .encrypted "") (blankEntries value es)
      = mapTextsOfEntries (fun _ => "") (fun _ => .encrypted "") es
  | [] => by rw [blankEntries]
  | (key, v) :: rest => by
    have hv := Schema.shape_blank value v
    rw [blankEntries, mapTextsOfEntries, mapTextsOfEntries, shape_blankEntries value rest]
    exact congrArg (fun x => (key, x) :: _) hv

end

theorem Schema.shape_eq_of_blank_eq {s : Schema} {v w : Value} (h : s.blank w = s.blank v) :
    w.shape = v.shape := by
  rw [← s.shape_blank w, ← s.shape_blank v, h]

/-- A value of the shape of a slot is one that a slot has. -/
theorem Slot.exists_of_shape_eq {c : Slot} {x : Value} (h : x.shape = c.value.shape) :
    ∃ d : Slot, x = d.value := by
  cases c <;> cases x <;> simp at h
  · exact ⟨.inline _, rfl⟩
  · exact ⟨.typed _, rfl⟩

/-- Where no stop is, a value of the same blank has the same text. -/
theorem Schema.at?_of_blank_eq {s : Schema} {v w : Value} (hb : s.blank w = s.blank v) {path : Path}
    {c : Slot} (hv : Value.at? path v = some c.value) (hn : ∀ stop ∈ s.stops v, stop.path ≠ path) :
    Value.at? path w = some c.value := by
  have hat : ∀ u : Value, Value.at? path u.shape = (Value.at? path u).map Value.shape :=
    Value.at?_mapTexts _ _ path
  have hw : (Value.at? path w).map Value.shape = some c.value.shape := by
    rw [← hat, shape_eq_of_blank_eq hb, hat, hv, Option.map_some]
  obtain ⟨x, hx, he⟩ := Option.map_eq_some_iff.mp hw
  obtain ⟨d, rfl⟩ := Slot.exists_of_shape_eq he
  rw [hx, slot_eq_of_blank_eq hb hv hx hn]

theorem Slot.exists_of_isText {x : Value} (h : x.isText = true) : ∃ c : Slot, x = c.value := by
  cases x with
  | string text => exact ⟨.inline text, rfl⟩
  | tagged t => exact ⟨.typed t, rfl⟩
  | _ => simp at h

/-- A text is at a stop, or every value of the same blank has it too. -/
theorem Schema.mem_slots_or_mem_parts {s : Schema} {v w : Value} (hb : s.blank w = s.blank v)
    {c : Slot} (hc : c.value ∈ w.parts) : c ∈ s.slots w ∨ c.value ∈ v.parts := by
  obtain ⟨path, hpath⟩ := Value.exists_at? w hc
  rcases s.split_stops w path with ⟨before, stop, after, hstops, rfl⟩ | hbeside
  · have hs : stop ∈ s.stops w := by simp [hstops]
    have hat := at?_of_mem_stops hs
    rw [hpath, Option.some.injEq] at hat
    exact .inl (List.mem_map.mpr ⟨stop, hs, (Slot.value_inj hat).symm⟩)
  · exact .inr (Value.mem_parts_of_at? (at?_of_blank_eq hb.symm hpath hbeside))

end FieldSeal
