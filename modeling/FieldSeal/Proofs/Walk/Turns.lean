import FieldSeal.Proofs.Walk.Stops

/-!
# What a walk does at its stops

At each stop a slot has its turn: its text is handed over, or passed over because the mark is
already as the direction would have it, and what comes back is an answer or a refusal. `Walk.turn`
is that rule for one slot and `Walk.turnAll` is it for a row of slots, up to the first refusal that
counts.

**A walk is `turnAll` on its slots** (`Walk.visit_follows`): the value keeps its blank, the slots
become what the turns make of them, and calls and failure are those of the turns, from any sound
index. With `Stops` this describes the result completely, also of a walk that failed half-way, and
no theorem after this one goes into the recursion of a walk again.

The same induction says that a walk leaves a sound index, which makes every index that can come
about sound (`FieldIndex.Reachable.sound`).
-/

set_option autoImplicit false

namespace FieldSeal

/-! ## Turns -/

namespace Slot

/-- The text that is handed over, unless the mark says that there is nothing to do. -/
def handed? : Direction → Slot → Option String
  | _, .inline text => some text
  | .encrypt, .typed (.plain text) => some text
  | .decrypt, .typed (.encrypted text) => some text
  | _, _ => none

/-- The slot with the answer in it. -/
def answered : Direction → String → Slot → Slot
  | _, answer, .inline _ => .inline answer
  | .encrypt, answer, .typed _ => .typed (.encrypted answer)
  | .decrypt, answer, .typed _ => .typed (.plain answer)

/-- Whether a refusal here leaves the text and lets the walk go on. -/
def tolerant : Direction → Slot → Bool
  | .decrypt, .inline _ => true
  | _, _ => false

section

variable (direction : Direction) (text answer : String) (t : TaggedText)

@[simp] theorem handed?_inline : handed? direction (.inline text) = some text := by
  cases direction <;> rfl

@[simp] theorem handed?_encrypt_plain : handed? .encrypt (.typed (.plain text)) = some text := rfl

@[simp] theorem handed?_encrypt_encrypted :
    handed? .encrypt (.typed (.encrypted text)) = none := rfl

@[simp] theorem handed?_decrypt_plain : handed? .decrypt (.typed (.plain text)) = none := rfl

@[simp] theorem handed?_decrypt_encrypted :
    handed? .decrypt (.typed (.encrypted text)) = some text := rfl

@[simp] theorem answered_inline : answered direction answer (.inline text) = .inline answer := by
  cases direction <;> rfl

@[simp] theorem answered_encrypt :
    answered .encrypt answer (.typed t) = .typed (.encrypted answer) := rfl

@[simp] theorem answered_decrypt :
    answered .decrypt answer (.typed t) = .typed (.plain answer) := rfl

@[simp] theorem tolerant_decrypt_inline : tolerant .decrypt (.inline text) = true := rfl

@[simp] theorem tolerant_encrypt (c : Slot) : tolerant .encrypt c = false := rfl

@[simp] theorem tolerant_typed : tolerant direction (.typed t) = false := by
  cases direction <;> rfl

end

end Slot

/-- What the turns of a row of slots have made of it. -/
structure Turned where
  slots : List Slot
  calls : List String
  failure : Option CipherError

namespace Walk

variable (w : Walk)

/-- The turn of a slot, whose call would have the given number. -/
def turn (n : Nat) (c : Slot) : Except CipherError Slot :=
  match c.handed? w.direction with
  | none => .ok c
  | some text =>
    match w.leaf n text with
    | .ok answer => .ok (c.answered w.direction answer)
    | .error e => if c.tolerant w.direction then .ok c else .error e

/-- The turns of a row of slots, after the given calls. -/
def turnAll : List Slot → List String → Turned
  | [], calls => ⟨[], calls, none⟩
  | c :: rest, calls =>
    let after := calls ++ (c.handed? w.direction).toList
    match w.turn calls.length c with
    | .ok c =>
      let others := turnAll rest after
      ⟨c :: others.slots, others.calls, others.failure⟩
    | .error e => ⟨c :: rest, after, some e⟩

theorem turnAll_append (a b : List Slot) (calls : List String) :
    w.turnAll (a ++ b) calls =
      match (w.turnAll a calls).failure with
      | none =>
        let others := w.turnAll b (w.turnAll a calls).calls
        ⟨(w.turnAll a calls).slots ++ others.slots, others.calls, others.failure⟩
      | some e => ⟨(w.turnAll a calls).slots ++ b, (w.turnAll a calls).calls, some e⟩ := by
  induction a generalizing calls with
  | nil => rfl
  | cons c rest ih =>
    rw [List.cons_append, turnAll, turnAll]
    cases w.turn calls.length c with
    | error e => rfl
    | ok c' =>
      dsimp only
      rw [ih]
      cases (w.turnAll rest (calls ++ (c.handed? w.direction).toList)).failure <;> rfl

end Walk

theorem Schema.eq_of_isInline {s : Schema} (h : s.isInline = true) :
    s = .string (some .inline) := by
  cases s with
  | string tag =>
    rw [isInline, tag?, beq_iff_eq] at h
    rw [h]
  | _ => simp [isInline, tag?] at h

/-! ## A walk is the turns of its slots -/

/-- An outcome is what the turns make of a thing with slots: the thing has the same blank, and
slots, calls and failure are those of the turns. -/
structure Follows {α : Type} (w : Walk) (blank : α → α) (slots : α → List Slot) (a : α)
    (calls : List String) (o : Outcome α) : Prop where
  blank_eq : blank o.value = blank a
  slots_eq : slots o.value = (w.turnAll (slots a) calls).slots
  calls_eq : o.trace.calls = (w.turnAll (slots a) calls).calls
  failure_eq : o.failure = (w.turnAll (slots a) calls).failure
  sound : o.trace.index.Sound

namespace Follows

variable {α β γ : Type} {w : Walk} {calls : List String}

theorem unchanged {blank : α → α} {slots : α → List Slot} {a : α} {index : FieldIndex}
    (h : index.Sound) (hs : slots a = []) :
    Follows w blank slots a calls (.unchanged a ⟨index, calls⟩) := by
  refine ⟨rfl, ?_, ?_, ?_, h⟩ <;> simp [Outcome.unchanged, hs, Walk.turnAll]

theorem map {blank : α → α} {slots : α → List Slot} {blank' : β → β} {slots' : β → List Slot}
    {f : α → β} (hb : ∀ a, blank' (f a) = f (blank a)) (hs : ∀ a, slots' (f a) = slots a)
    {a : α} {o : Outcome α} (h : Follows w blank slots a calls o) :
    Follows w blank' slots' (f a) calls (o.map f) := by
  refine ⟨?_, ?_, ?_, ?_, h.sound⟩
  · rw [Outcome.map, hb, hb, h.blank_eq]
  · rw [Outcome.map, hs, hs, h.slots_eq]
  · rw [Outcome.map, hs, h.calls_eq]
  · rw [Outcome.map, hs, h.failure_eq]

/-- The first part and then the rest: the slots of both, one after the other. A walk that fails in
the first part leaves the rest as it is, and so do the turns. -/
theorem andRest {blank : α → α} {slots : α → List Slot} {blankRest : β → β}
    {slotsRest : β → List Slot} {blank' : γ → γ} {slots' : γ → List Slot} {f : α → β → γ}
    (hb : ∀ a b, blank' (f a b) = f (blank a) (blankRest b))
    (hs : ∀ a b, slots' (f a b) = slots a ++ slotsRest b)
    {a : α} {b : β} {first : Outcome α} {next : Trace → Outcome β}
    (h : Follows w blank slots a calls first)
    (hn : ∀ after : Trace, after.index.Sound →
      Follows w blankRest slotsRest b after.calls (next after)) :
    Follows w blank' slots' (f a b) calls ((first.andRest b next).map fun p => f p.1 p.2) := by
  have hn := hn first.trace h.sound
  -- What the turns do on both rows, in terms of the first outcome.
  have hturn := w.turnAll_append (slots a) (slotsRest b) calls
  rw [← h.failure_eq, ← h.calls_eq, ← h.slots_eq, ← hs a b] at hturn
  cases hf : first.failure with
  | none =>
    rw [hf] at hturn
    simp only [Outcome.andRest, hf, Outcome.map]
    refine ⟨?_, ?_, ?_, ?_, hn.sound⟩
    · rw [hb, hb, h.blank_eq, hn.blank_eq]
    · rw [hturn, hs, hn.slots_eq]
    · rw [hturn, hn.calls_eq]
    · rw [hturn, hn.failure_eq]
  | some e =>
    rw [hf] at hturn
    simp only [Outcome.andRest, hf, Outcome.map]
    refine ⟨?_, ?_, ?_, ?_, h.sound⟩
    · rw [hb, hb, h.blank_eq]
    · rw [hturn, hs]
    · rw [hturn]
    · rw [hturn]

end Follows

namespace Walk

variable {w : Walk}

theorem visitInline_follows {index : FieldIndex} (h : index.Sound) (calls : List String)
    (text : String) : Follows w (fun _ => "") (fun t => [.inline t]) text calls
      (w.visitInline text ⟨index, calls⟩) := by
  simp only [visitInline, call]
  cases hl : w.leaf calls.length text with
  | ok answer =>
    refine ⟨rfl, ?_, ?_, ?_, h⟩ <;>
      simp [Outcome.unchanged, turnAll, turn, Slot.handed?, Slot.answered, hl]
  | error e =>
    cases hd : w.direction <;> refine ⟨rfl, ?_, ?_, ?_, h⟩ <;>
      simp [Outcome.unchanged, turnAll, turn, Slot.handed?, Slot.tolerant, hl, hd]

theorem visitTyped_follows {index : FieldIndex} (h : index.Sound) (calls : List String)
    (t : TaggedText) : Follows w (fun _ => .plain "") (fun t => [.typed t]) t calls
      (w.visitTyped t ⟨index, calls⟩) := by
  cases hd : w.direction with
  | encrypt =>
    cases t with
    | plain text =>
      simp only [visitTyped, hd, call]
      cases hl : w.leaf calls.length text <;> refine ⟨rfl, ?_, ?_, ?_, h⟩ <;>
        simp [Outcome.unchanged, turnAll, turn, Slot.handed?, Slot.answered, Slot.tolerant, hl, hd]
    | encrypted text =>
      simp only [visitTyped, hd]
      refine ⟨rfl, ?_, ?_, ?_, h⟩ <;> simp [Outcome.unchanged, turnAll, turn, Slot.handed?, hd]
  | decrypt =>
    cases t with
    | plain text =>
      simp only [visitTyped, hd]
      refine ⟨rfl, ?_, ?_, ?_, h⟩ <;> simp [Outcome.unchanged, turnAll, turn, Slot.handed?, hd]
    | encrypted text =>
      simp only [visitTyped, hd, call]
      cases hl : w.leaf calls.length text <;> refine ⟨rfl, ?_, ?_, ?_, h⟩ <;>
        simp [Outcome.unchanged, turnAll, turn, Slot.handed?, Slot.answered, Slot.tolerant, hl, hd]

/-! Items that are under the inline tag themselves are visited in a loop of their own. It is the
loop for all items, which would not learn anything from the index either. -/

theorem visitBare_eq (v : Value) (trace : Trace) :
    w.visitBare v trace = w.visit (.string (some .inline)) v trace := by
  cases v with
  | record r =>
    cases r
    rw [visitBare, visit] <;> simp [Schema.recordType?]
  | array _ | map _ =>
    rw [visitBare, visit] <;> simp [Schema.itemSchema?, Schema.valueSchema?, Schema.items?,
      Schema.values?]
  | _ => rw [visitBare, visit] <;> simp [Schema.takesInline, Schema.takesTyped, Schema.isInline,
      Schema.isTyped, Schema.tag?]

theorem visitBareItems_eq (vs : List Value) (trace : Trace) :
    w.visitBareItems vs trace = w.visitItems (.string (some .inline)) vs trace := by
  induction vs generalizing trace with
  | nil => rw [visitBareItems, visitItems]
  | cons v rest ih => rw [visitBareItems, visitItems, visitBare_eq, funext ih]

theorem visitBareEntries_eq (es : List (String × Value)) (trace : Trace) :
    w.visitBareEntries es trace = w.visitEntries (.string (some .inline)) es trace := by
  induction es generalizing trace with
  | nil => rw [visitBareEntries, visitEntries]
  | cons e rest ih => rw [visitBareEntries, visitEntries, visitBare_eq, funext ih]

theorem visit_array (s : Schema) (items : List Value) (trace : Trace) :
    w.visit s (.array items) trace =
      match s.itemSchema? with
      | some item =>
        match item.sensitive trace.index with
        | (true, index) => (w.visitItems item items { trace with index }).map .array
        | (false, index) => .unchanged (.array items) { trace with index }
      | none => .unchanged (.array items) trace := by
  rw [visit]
  cases s.itemSchema? with
  | none => rfl
  | some item =>
    dsimp only
    split
    next hi =>
      rw [Schema.eq_of_isInline hi, Schema.sensitive, visitBareItems_eq]
      rfl
    next => rfl

theorem visit_map (s : Schema) (entries : List (String × Value)) (trace : Trace) :
    w.visit s (.map entries) trace =
      match s.valueSchema? with
      | some value =>
        match value.sensitive trace.index with
        | (true, index) => (w.visitEntries value entries { trace with index }).map .map
        | (false, index) => .unchanged (.map entries) { trace with index }
      | none => .unchanged (.map entries) trace := by
  rw [visit]
  cases s.valueSchema? with
  | none => rfl
  | some value =>
    dsimp only
    split
    next hi =>
      rw [Schema.eq_of_isInline hi, Schema.sensitive, visitBareEntries_eq]
      rfl
    next => rfl

mutual

/-- **A walk is the turns of its slots.** -/
theorem visit_follows {index : FieldIndex} (h : index.Sound) (calls : List String) (s : Schema) :
    ∀ v : Value, Follows w s.blank s.slots v calls (w.visit s v ⟨index, calls⟩)
  | .string text => by
    rw [visit]
    split
    next hi =>
      refine (visitInline_follows h calls text).map (fun t => ?_) fun t => ?_
      · rw [Schema.blank, if_pos hi]
      · rw [Schema.slots, Schema.stops, if_pos hi, List.map_singleton]
    next hi =>
      refine .unchanged h ?_
      rw [Schema.slots, Schema.stops, if_neg hi, List.map_nil]
  | .tagged t => by
    rw [visit]
    split
    next hi =>
      refine (visitTyped_follows h calls t).map (fun t => ?_) fun t => ?_
      · rw [Schema.blank, if_pos hi]
      · rw [Schema.slots, Schema.stops, if_pos hi, List.map_singleton]
    next hi =>
      refine .unchanged h ?_
      rw [Schema.slots, Schema.stops, if_neg hi, List.map_nil]
  | .record ⟨own, fields⟩ => by
    cases hr : s.recordType? own with
    | none =>
      simp only [visit, hr]
      exact .unchanged h (by rw [Schema.slots, Schema.stops, hr]; rfl)
    | some type =>
      simp only [visit, hr]
      -- The walk asks its index for the positions, and `stops` the schema.
      obtain ⟨hp, hi⟩ := RecordType.sensitivePositions_spec h type
      rw [hp]
      refine Follows.map (f := fun vs => Value.record ⟨own, vs⟩) (fun vs => ?_) (fun vs => ?_)
        (visitFields_follows hi calls type.fields type.tagPositions fields)
      · simp only [Schema.blank, hr]
      · simp only [Schema.slots, Schema.stops, hr, slotsOfFields]
  | .array items => by
    cases hi : s.itemSchema? with
    | none =>
      simp only [visit_array, hi]
      exact .unchanged h (by simp [Schema.slots, Schema.stops, Schema.itemsToVisit?, hi])
    | some item =>
      obtain ⟨hs, hx⟩ := Schema.sensitive_spec h item
      simp only [visit_array, hi]
      split
      next learned he =>
        rw [he] at hs hx
        have hv : s.itemsToVisit? = some item := by simp [Schema.itemsToVisit?, hi, ← hs]
        refine (visitItems_follows hx calls item items).map (fun vs => ?_) fun vs => ?_
        · simp only [Schema.blank, hv]
        · simp only [Schema.slots, Schema.stops, hv, slotsOfItems]
      next learned he =>
        rw [he] at hs hx
        have hv : s.itemsToVisit? = none := by simp [Schema.itemsToVisit?, hi, ← hs]
        exact .unchanged hx (by simp [Schema.slots, Schema.stops, hv])
  | .map entries => by
    cases hi : s.valueSchema? with
    | none =>
      simp only [visit_map, hi]
      exact .unchanged h (by simp [Schema.slots, Schema.stops, Schema.valuesToVisit?, hi])
    | some value =>
      obtain ⟨hs, hx⟩ := Schema.sensitive_spec h value
      simp only [visit_map, hi]
      split
      next learned he =>
        rw [he] at hs hx
        have hv : s.valuesToVisit? = some value := by simp [Schema.valuesToVisit?, hi, ← hs]
        refine (visitEntries_follows hx calls value entries).map (fun es => ?_) fun es => ?_
        · simp only [Schema.blank, hv]
        · simp only [Schema.slots, Schema.stops, hv, slotsOfEntries]
      next learned he =>
        rw [he] at hs hx
        have hv : s.valuesToVisit? = none := by simp [Schema.valuesToVisit?, hi, ← hs]
        exact .unchanged hx (by simp [Schema.slots, Schema.stops, hv])
  | .null | .boolean _ | .int _ | .long _ | .float _ | .double _ | .bytes _ | .enum _
  | .fixed _ => by
    rw [visit]
    · exact .unchanged h (by simp [Schema.slots, Schema.stops])
    all_goals simp

theorem visitFields_follows {index : FieldIndex} (h : index.Sound) (calls : List String)
    (fields : List Field) (positions : List Nat) : ∀ vs : List Value,
    Follows w (blankFields fields positions) (slotsOfFields fields positions) vs calls
      (w.visitFields fields positions vs ⟨index, calls⟩)
  | [] => by
    rw [visitFields]
    exact .unchanged h (slotsOfFields_nil fields positions)
  | v :: rest => by
    cases fields with
    | nil =>
      rw [visitFields]
      exact .unchanged h (by simp [slotsOfFields])
    | cons field fields =>
      rw [visitFields]
      have hfirst : Follows w
          (fun v => if positions.contains field.position then field.schema.blank v else v)
          (fun v => if positions.contains field.position then field.schema.slots v else []) v calls
          (if positions.contains field.position then w.visit field.schema v ⟨index, calls⟩
            else .unchanged v ⟨index, calls⟩) := by
        split
        · exact visit_follows h calls field.schema v
        · exact .unchanged h rfl
      refine Follows.andRest (f := List.cons) (fun a b => ?_) (fun a b => ?_) hfirst
        fun after ha => visitFields_follows ha after.calls fields positions rest
      · rw [blankFields]
      · rw [slotsOfFields_cons]

theorem visitItems_follows {index : FieldIndex} (h : index.Sound) (calls : List String)
    (item : Schema) : ∀ vs : List Value,
    Follows w (blankItems item) (slotsOfItems item) vs calls
      (w.visitItems item vs ⟨index, calls⟩)
  | [] => by
    rw [visitItems]
    exact .unchanged h (by simp [slotsOfItems])
  | v :: rest => by
    rw [visitItems]
    exact Follows.andRest (f := List.cons) (fun a b => by rw [blankItems])
      (fun a b => slotsOfItems_cons item a b) (visit_follows h calls item v)
      fun after ha => visitItems_follows ha after.calls item rest

theorem visitEntries_follows {index : FieldIndex} (h : index.Sound) (calls : List String)
    (value : Schema) : ∀ es : List (String × Value),
    Follows w (blankEntries value) (slotsOfEntries value) es calls
      (w.visitEntries value es ⟨index, calls⟩)
  | [] => by
    rw [visitEntries]
    exact .unchanged h (by simp [slotsOfEntries])
  | (key, v) :: rest => by
    rw [visitEntries]
    exact Follows.andRest (f := fun a b => (key, a) :: b) (fun a b => by rw [blankEntries])
      (fun a b => slotsOfEntries_cons value (key, a) b) (visit_follows h calls value v)
      fun after ha => visitEntries_follows ha after.calls value rest

end

/-- A run from a sound index is the turns of the slots, from the first call on. -/
theorem run_follows {index : FieldIndex} (h : index.Sound) (s : Schema) (v : Value) :
    Follows w s.blank s.slots v [] (w.run s v index) := visit_follows h [] s v

/-- The value with the blank of the old one and the slots of the turns is the one a run ends with. -/
theorem run_value_eq {index : FieldIndex} (h : index.Sound) {s : Schema} {v u : Value}
    (hb : s.blank u = s.blank v) (hs : s.slots u = (w.turnAll (s.slots v) []).slots) :
    (w.run s v index).value = u :=
  have hrun := w.run_follows h s v
  s.eq_of_blank_eq _ u (hrun.blank_eq.trans hb.symm) (hrun.slots_eq.trans hs.symm)

/-- A record along its own type is a value along a schema. -/
theorem run_record (r : Record) (index : FieldIndex) :
    w.run (.record r.type) (.record r) index = (w.runRecord r index).map .record := by
  obtain ⟨own, fields⟩ := r
  simp only [run, visit, Schema.recordType?]
  rfl

end Walk

/-! ## Indices that can come about -/

/-- The indices that lookups and walks leave behind, in any order and of any schemas. -/
inductive FieldIndex.Reachable : FieldIndex → Prop
  | empty : Reachable .empty
  | positions {index : FieldIndex} (h : Reachable index) (type : RecordType) :
      Reachable (type.sensitivePositions index).2
  | sensitive {index : FieldIndex} (h : Reachable index) (s : Schema) :
      Reachable (s.sensitive index).2
  | run {index : FieldIndex} (h : Reachable index) (w : Walk) (s : Schema) (v : Value) :
      Reachable (w.run s v index).trace.index
  | runRecord {index : FieldIndex} (h : Reachable index) (w : Walk) (r : Record) :
      Reachable (w.runRecord r index).trace.index

/-- **Every index that can come about is sound.** -/
theorem FieldIndex.Reachable.sound {index : FieldIndex} (h : index.Reachable) : index.Sound := by
  induction h with
  | empty => exact sound_empty
  | positions _ type ih => exact (RecordType.sensitivePositions_spec ih type).2
  | sensitive _ s ih => exact (Schema.sensitive_spec ih s).2
  | run _ w s v ih => exact (w.run_follows ih s v).sound
  | @runRecord index _ w r ih =>
    have h := (w.run_follows ih (.record r.type) (.record r)).sound
    rwa [Walk.run_record] at h

end FieldSeal
