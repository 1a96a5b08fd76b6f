import FieldSeal.Proofs.FieldIndex
import FieldSeal.Proofs.Value.Parts
import FieldSeal.Walk

/-!
# Where a walk stops

A walk does two things at once: it finds its way through a value, and it changes texts. This file is
about the way alone. `Schema.stops` lists the places where a walk along the schema comes to a tagged
string, in its order, each with its path and with what stands there. It asks no index and no cipher.

`Schema.blank` is the value with the texts at its stops taken out. Two values with one blank differ
in those texts and in nothing else, and the two facts that everything else rests on are

* `stops_congr`: **the way depends on the blank only**, so no text and no mark steers a walk;
* `eq_of_blank_eq`: a value is its blank and what stands at its stops.

So whatever a walk does to a value can be said of the list of its slots, and `Walk/Turns` says it.
-/

set_option autoImplicit false

namespace FieldSeal

/-- What stands where a walk stops. -/
inductive Slot where
  | inline (text : String)
  | typed (text : TaggedText)
deriving DecidableEq, Repr

@[simp] def Slot.tag : Slot → Tag
  | .inline _ => .inline
  | .typed _ => .typed

structure Stop where
  path : Path
  slot : Slot
deriving DecidableEq, Repr

namespace Stop

/-- The stop in a part that stands at an index of its container. -/
def under (i : Nat) (stop : Stop) : Stop := { stop with path := i :: stop.path }

/-- The stop in the first part of a list. -/
def first : Stop → Stop := under 0

/-- The stop when something is put in front of the list. -/
def next (stop : Stop) : Stop := { stop with path := stop.path.next }

/-- Path and tag: the stop without what its value has there. -/
def place (stop : Stop) : Path × Tag := (stop.path, stop.slot.tag)

@[simp] theorem path_under (i : Nat) (stop : Stop) : (stop.under i).path = i :: stop.path := rfl

@[simp] theorem slot_under (i : Nat) (stop : Stop) : (stop.under i).slot = stop.slot := rfl

@[simp] theorem slot_first (stop : Stop) : stop.first.slot = stop.slot := rfl

@[simp] theorem slot_next (stop : Stop) : stop.next.slot = stop.slot := rfl

theorem map_first_congr {a b : List Stop} (h : a.map place = b.map place) :
    (a.map first).map place = (b.map first).map place := by
  have hf : place ∘ first = (fun p : Path × Tag => (0 :: p.1, p.2)) ∘ place := rfl
  rw [List.map_map, List.map_map, hf, ← List.map_map, ← List.map_map, h]

theorem map_next_congr {a b : List Stop} (h : a.map place = b.map place) :
    (a.map next).map place = (b.map next).map place := by
  have hf : place ∘ next = (fun p : Path × Tag => (p.1.next, p.2)) ∘ place := rfl
  rw [List.map_map, List.map_map, hf, ← List.map_map, ← List.map_map, h]

end Stop

namespace Schema

/-- The schema along which the items of an array here are visited, if there is a tag to be found. -/
def itemsToVisit? (s : Schema) : Option Schema := s.itemSchema?.filter (·.holdsTag)

/-- The schema along which the values of a map here are visited, if there is a tag to be found. -/
def valuesToVisit? (s : Schema) : Option Schema := s.valueSchema?.filter (·.holdsTag)

theorem mem_of_itemSchema? {members : List Schema} {items : Schema}
    (h : (Schema.union members).itemSchema? = some items) : .array items ∈ members := by
  obtain ⟨m, hm, hi⟩ := List.exists_of_findSome?_eq_some h
  cases m with
  | array => cases hi; exact hm
  | _ => cases hi

theorem mem_of_valueSchema? {members : List Schema} {values : Schema}
    (h : (Schema.union members).valueSchema? = some values) : .map values ∈ members := by
  obtain ⟨m, hm, hi⟩ := List.exists_of_findSome?_eq_some h
  cases m with
  | map => cases hi; exact hm
  | _ => cases hi

theorem mem_nodes_of_itemSchema? {s items : Schema} (h : s.itemSchema? = some items) :
    items ∈ s.nodes := by
  cases s with
  | array => cases h; exact mem_nodes_items items
  | union members =>
    exact nodes_trans (mem_nodes_items items) (mem_nodes_member (mem_of_itemSchema? h))
  | _ => cases h

theorem mem_nodes_of_valueSchema? {s values : Schema} (h : s.valueSchema? = some values) :
    values ∈ s.nodes := by
  cases s with
  | map => cases h; exact mem_nodes_values values
  | union members =>
    exact nodes_trans (mem_nodes_values values) (mem_nodes_member (mem_of_valueSchema? h))
  | _ => cases h

end Schema

mutual

/-- The stops of a walk along a schema. -/
def Schema.stops (s : Schema) : Value → List Stop
  | .string text => if s.takesInline then [⟨[], .inline text⟩] else []
  | .tagged t => if s.takesTyped then [⟨[], .typed t⟩] else []
  | .record ⟨own, fields⟩ =>
    match s.recordType? own with
    | some type => stopsOfFields type.fields type.tagPositions fields
    | none => []
  | .array items =>
    match s.itemsToVisit? with
    | some item => stopsOfItems item items
    | none => []
  | .map entries =>
    match s.valuesToVisit? with
    | some value => stopsOfEntries value entries
    | none => []
  | _ => []

@[simp] def stopsOfFields (fields : List Field) (positions : List Nat) : List Value → List Stop
  | [] => []
  | v :: rest =>
    match fields with
    | [] => []
    | field :: fields =>
      (if positions.contains field.position then (field.schema.stops v).map .first else []) ++
        (stopsOfFields fields positions rest).map .next

@[simp] def stopsOfItems (item : Schema) : List Value → List Stop
  | [] => []
  | v :: rest => (item.stops v).map .first ++ (stopsOfItems item rest).map .next

@[simp] def stopsOfEntries (value : Schema) : List (String × Value) → List Stop
  | [] => []
  | (_, v) :: rest => (value.stops v).map .first ++ (stopsOfEntries value rest).map .next

end

mutual

/-- The value without the texts at its stops. -/
def Schema.blank (s : Schema) : Value → Value
  | .string text => .string (if s.takesInline then "" else text)
  | .tagged t => .tagged (if s.takesTyped then .plain "" else t)
  | .record ⟨own, fields⟩ =>
    match s.recordType? own with
    | some type => .record ⟨own, blankFields type.fields type.tagPositions fields⟩
    | none => .record ⟨own, fields⟩
  | .array items =>
    match s.itemsToVisit? with
    | some item => .array (blankItems item items)
    | none => .array items
  | .map entries =>
    match s.valuesToVisit? with
    | some value => .map (blankEntries value entries)
    | none => .map entries
  | v => v

@[simp] def blankFields (fields : List Field) (positions : List Nat) : List Value → List Value
  | [] => []
  | v :: rest =>
    match fields with
    | [] => v :: rest
    | field :: fields =>
      (if positions.contains field.position then field.schema.blank v else v) ::
        blankFields fields positions rest

@[simp] def blankItems (item : Schema) : List Value → List Value
  | [] => []
  | v :: rest => item.blank v :: blankItems item rest

@[simp] def blankEntries (value : Schema) : List (String × Value) → List (String × Value)
  | [] => []
  | (key, v) :: rest => (key, value.blank v) :: blankEntries value rest

end

def Schema.slots (s : Schema) (v : Value) : List Slot := (s.stops v).map (·.slot)

def slotsOfFields (fields : List Field) (positions : List Nat) (vs : List Value) : List Slot :=
  (stopsOfFields fields positions vs).map (·.slot)

def slotsOfItems (item : Schema) (vs : List Value) : List Slot :=
  (stopsOfItems item vs).map (·.slot)

def slotsOfEntries (value : Schema) (es : List (String × Value)) : List Slot :=
  (stopsOfEntries value es).map (·.slot)

@[simp] theorem slotsOfFields_nil (fields : List Field) (positions : List Nat) :
    slotsOfFields fields positions [] = [] := by
  simp [slotsOfFields]

@[simp] theorem slotsOfFields_cons (field : Field) (fields : List Field) (positions : List Nat)
    (v : Value) (rest : List Value) : slotsOfFields (field :: fields) positions (v :: rest)
      = (if positions.contains field.position then field.schema.slots v else []) ++
        slotsOfFields fields positions rest := by
  rw [slotsOfFields, stopsOfFields]
  split <;> simp [slotsOfFields, Schema.slots, Function.comp_def]

@[simp] theorem slotsOfItems_cons (item : Schema) (v : Value) (rest : List Value) :
    slotsOfItems item (v :: rest) = item.slots v ++ slotsOfItems item rest := by
  simp [slotsOfItems, Schema.slots, Function.comp_def]

@[simp] theorem slotsOfEntries_cons (value : Schema) (e : String × Value)
    (rest : List (String × Value)) :
    slotsOfEntries value (e :: rest) = value.slots e.2 ++ slotsOfEntries value rest := by
  simp [slotsOfEntries, Schema.slots, Function.comp_def]

/-! ## The way does not depend on the texts -/

mutual

theorem Schema.stops_blank (s : Schema) : ∀ v : Value,
    (s.stops (s.blank v)).map Stop.place = (s.stops v).map Stop.place
  | .string _ => by
    rw [Schema.blank, Schema.stops, Schema.stops]
    split <;> rfl
  | .tagged _ => by
    rw [Schema.blank, Schema.stops, Schema.stops]
    split <;> rfl
  | .record ⟨own, fields⟩ => by
    cases h : s.recordType? own with
    | none => simp only [Schema.blank, Schema.stops, h]
    | some type =>
      simp only [Schema.blank, Schema.stops, h]
      exact stopsOfFields_blank _ _ fields
  | .array items => by
    cases h : s.itemsToVisit? with
    | none => simp only [Schema.blank, Schema.stops, h]
    | some item =>
      simp only [Schema.blank, Schema.stops, h]
      exact stopsOfItems_blank item items
  | .map entries => by
    cases h : s.valuesToVisit? with
    | none => simp only [Schema.blank, Schema.stops, h]
    | some value =>
      simp only [Schema.blank, Schema.stops, h]
      exact stopsOfEntries_blank value entries
  | .null | .boolean _ | .int _ | .long _ | .float _ | .double _ | .bytes _ | .enum _
  | .fixed _ => by rw [Schema.blank] <;> simp

theorem stopsOfFields_blank (fields : List Field) (positions : List Nat) : ∀ vs : List Value,
    (stopsOfFields fields positions (blankFields fields positions vs)).map Stop.place
      = (stopsOfFields fields positions vs).map Stop.place
  | [] => by rw [blankFields]
  | v :: rest => by
    cases fields with
    | nil => rw [blankFields]
    | cons field fields =>
      have hv := Schema.stops_blank field.schema v
      have hr := stopsOfFields_blank fields positions rest
      rw [blankFields, stopsOfFields, stopsOfFields, List.map_append, List.map_append,
        Stop.map_next_congr hr]
      split
      · rw [Stop.map_first_congr hv]
      · rfl

theorem stopsOfItems_blank (item : Schema) : ∀ vs : List Value,
    (stopsOfItems item (blankItems item vs)).map Stop.place
      = (stopsOfItems item vs).map Stop.place
  | [] => by rw [blankItems]
  | v :: rest => by
    rw [blankItems, stopsOfItems, stopsOfItems, List.map_append, List.map_append,
      Stop.map_first_congr (Schema.stops_blank item v),
      Stop.map_next_congr (stopsOfItems_blank item rest)]

theorem stopsOfEntries_blank (value : Schema) : ∀ es : List (String × Value),
    (stopsOfEntries value (blankEntries value es)).map Stop.place
      = (stopsOfEntries value es).map Stop.place
  | [] => by rw [blankEntries]
  | (_, v) :: rest => by
    rw [blankEntries, stopsOfEntries, stopsOfEntries, List.map_append, List.map_append,
      Stop.map_first_congr (Schema.stops_blank value v),
      Stop.map_next_congr (stopsOfEntries_blank value rest)]

end

/-- **The way of a walk depends on the blank only.** -/
theorem Schema.stops_congr {s : Schema} {v w : Value} (h : s.blank v = s.blank w) :
    (s.stops v).map Stop.place = (s.stops w).map Stop.place := by
  rw [← s.stops_blank v, h, s.stops_blank w]

theorem Schema.length_slots_congr {s : Schema} {v w : Value} (h : s.blank v = s.blank w) :
    (s.slots v).length = (s.slots w).length := by
  simpa [Schema.slots] using congrArg List.length (Schema.stops_congr h)

/-! ## A value is its blank and what stands at its stops -/

@[simp] theorem Schema.kind_blank (s : Schema) (v : Value) : (s.blank v).kind = v.kind := by
  cases v with
  | record r =>
    cases r
    rw [Schema.blank]
    split <;> rfl
  | array _ | map _ =>
    rw [Schema.blank]
    split <;> rfl
  | _ => simp [Schema.blank]

theorem Schema.kind_congr {s : Schema} {v w : Value} (h : s.blank v = s.blank w) :
    v.kind = w.kind := by
  rw [← s.kind_blank v, h, s.kind_blank w]

mutual

theorem Schema.eq_of_blank_eq (s : Schema) : ∀ (v w : Value),
    s.blank v = s.blank w → s.slots v = s.slots w → v = w
  | .string t, w, hb, hs => by
    have hk := Schema.kind_congr hb
    cases w with
    | string u =>
      simp only [Schema.blank, Schema.slots, Schema.stops, Value.string.injEq] at hb hs
      split at hb
      next hi => simpa [hi] using hs
      next => rw [hb]
    | _ => simp at hk
  | .tagged t, w, hb, hs => by
    have hk := Schema.kind_congr hb
    cases w with
    | tagged u =>
      simp only [Schema.blank, Schema.slots, Schema.stops, Value.tagged.injEq] at hb hs
      split at hb
      next hi => simpa [hi] using hs
      next => rw [hb]
    | _ => simp at hk
  | .record ⟨own, fields⟩, w, hb, hs => by
    have hk := Schema.kind_congr hb
    cases w with
    | record r =>
      obtain ⟨own', fields'⟩ := r
      have ho : own = own' := by
        rw [Schema.blank, Schema.blank] at hb
        split at hb <;> split at hb <;>
          (simp only [Value.record.injEq, Record.mk.injEq] at hb; exact hb.1)
      subst ho
      cases hr : s.recordType? own with
      | none => simpa only [Schema.blank, hr] using hb
      | some type =>
        simp only [Schema.blank, Schema.slots, Schema.stops, hr, Value.record.injEq,
          Record.mk.injEq, true_and] at hb hs ⊢
        exact eq_of_blankFields_eq fields fields' hb hs
    | _ => simp at hk
  | .array items, w, hb, hs => by
    have hk := Schema.kind_congr hb
    cases w with
    | array items' =>
      cases hi : s.itemsToVisit? with
      | none => simpa only [Schema.blank, hi] using hb
      | some item =>
        simp only [Schema.blank, Schema.slots, Schema.stops, hi, Value.array.injEq] at hb hs ⊢
        exact eq_of_blankItems_eq items items' hb hs
    | _ => simp at hk
  | .map entries, w, hb, hs => by
    have hk := Schema.kind_congr hb
    cases w with
    | map entries' =>
      cases hi : s.valuesToVisit? with
      | none => simpa only [Schema.blank, hi] using hb
      | some value =>
        simp only [Schema.blank, Schema.slots, Schema.stops, hi, Value.map.injEq] at hb hs ⊢
        exact eq_of_blankEntries_eq entries entries' hb hs
    | _ => simp at hk
  | .null, w, hb, _ | .boolean _, w, hb, _ | .int _, w, hb, _ | .long _, w, hb, _
  | .float _, w, hb, _ | .double _, w, hb, _ | .bytes _, w, hb, _ | .enum _, w, hb, _
  | .fixed _, w, hb, _ => by
    have hk := Schema.kind_congr hb
    cases w <;> first
      | (simp at hk; done)
      | rfl
      | simpa [Schema.blank] using hb
termination_by structural v => v

theorem eq_of_blankFields_eq {fields : List Field} {positions : List Nat} : ∀ (vs ws : List Value),
    blankFields fields positions vs = blankFields fields positions ws →
      slotsOfFields fields positions vs = slotsOfFields fields positions ws → vs = ws
  | [], [], _, _ => rfl
  | [], _ :: _, hb, _ => by cases fields <;> simp at hb
  | _ :: _, [], hb, _ => by cases fields <;> simp at hb
  | v :: vs, w :: ws, hb, hs => by
    cases fields with
    | nil => simpa only [blankFields] using hb
    | cons field fields =>
      rw [blankFields, blankFields, List.cons.injEq] at hb
      rw [slotsOfFields_cons, slotsOfFields_cons] at hs
      split at hs
      next hp =>
        rw [if_pos hp, if_pos hp] at hb
        -- One blank, as many slots: the two rows of slots split at the same place.
        obtain ⟨hv, hr⟩ := List.append_inj hs (Schema.length_slots_congr hb.1)
        rw [Schema.eq_of_blank_eq field.schema v w hb.1 hv, eq_of_blankFields_eq vs ws hb.2 hr]
      next hp =>
        rw [if_neg hp, if_neg hp] at hb
        rw [hb.1, eq_of_blankFields_eq vs ws hb.2 hs]
termination_by structural vs => vs

theorem eq_of_blankItems_eq {item : Schema} : ∀ (vs ws : List Value),
    blankItems item vs = blankItems item ws → slotsOfItems item vs = slotsOfItems item ws → vs = ws
  | [], [], _, _ => rfl
  | [], _ :: _, hb, _ => by simp at hb
  | _ :: _, [], hb, _ => by simp at hb
  | v :: vs, w :: ws, hb, hs => by
    rw [blankItems, blankItems, List.cons.injEq] at hb
    rw [slotsOfItems_cons, slotsOfItems_cons] at hs
    obtain ⟨hv, hr⟩ := List.append_inj hs (Schema.length_slots_congr hb.1)
    rw [Schema.eq_of_blank_eq item v w hb.1 hv, eq_of_blankItems_eq vs ws hb.2 hr]
termination_by structural vs => vs

theorem eq_of_blankEntries_eq {value : Schema} : ∀ (es fs : List (String × Value)),
    blankEntries value es = blankEntries value fs →
      slotsOfEntries value es = slotsOfEntries value fs → es = fs
  | [], [], _, _ => rfl
  | [], _ :: _, hb, _ => by simp at hb
  | _ :: _, [], hb, _ => by simp at hb
  | (key, v) :: es, (key', w) :: fs, hb, hs => by
    rw [blankEntries, blankEntries, List.cons.injEq, Prod.mk.injEq] at hb
    rw [slotsOfEntries_cons, slotsOfEntries_cons] at hs
    obtain ⟨hv, hr⟩ := List.append_inj hs (Schema.length_slots_congr hb.1.2)
    rw [hb.1.1, Schema.eq_of_blank_eq value v w hb.1.2 hv, eq_of_blankEntries_eq es fs hb.2 hr]
termination_by structural es => es

end

end FieldSeal
