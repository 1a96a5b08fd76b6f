import FieldSeal.Proofs.Walk.Turns
import FieldSeal.Proofs.Walk.Visits

/-!
# The order of the stops, and what it depends on

A walk goes through a record by position, through an array by index and through a map entry by
entry. So its stops are in the order of their paths, compared from the front
(`Schema.stops_ordered`), and no two are at one path.

Where it stops has nothing to do with the texts: with other texts in their place it has the same
stops with the other texts in them (`Schema.stops_mapTexts`). Which of the stops are handed over is
up to the marks. `Schema.targets` are those, and they are known from the value without its texts
(`Schema.targets_erased`).
-/

set_option autoImplicit false

namespace FieldSeal

/-! ## Order -/

namespace Stop

/-- The paths go strictly up. -/
def Ordered (stops : List Stop) : Prop := stops.Pairwise fun a b => a.path < b.path

theorem next_lt {a b : Path} (ha : a ≠ []) (h : a < b) : a.next < b.next := by
  cases a with
  | nil => exact absurd rfl ha
  | cons i a =>
    cases b with
    | nil => exact absurd h (List.not_lt_nil _)
    | cons j b =>
      rw [Path.next, Path.next, List.cons_lt_cons_iff]
      rcases List.cons_lt_cons_iff.mp h with hlt | ⟨rfl, hrest⟩
      · exact .inl (Nat.succ_lt_succ hlt)
      · exact .inr ⟨rfl, hrest⟩

/-- The stops of a part, and then those of the parts after it. -/
theorem Ordered.append {part rest : List Stop} (hp : Ordered part) (hr : Ordered rest)
    (hne : ∀ stop ∈ rest, stop.path ≠ []) : Ordered (part.map first ++ rest.map next) := by
  rw [Ordered, List.pairwise_append, List.pairwise_map, List.pairwise_map]
  refine ⟨?_, ?_, ?_⟩
  · refine List.Pairwise.imp ?_ hp
    intro a b h
    exact List.cons_lt_cons_iff.mpr (.inr ⟨rfl, h⟩)
  · refine List.Pairwise.imp_of_mem ?_ hr
    intro a b ha _ h
    exact next_lt (hne a ha) h
  · intro a ha b hb
    obtain ⟨stop, -, rfl⟩ := List.mem_map.mp ha
    obtain ⟨other, ho, rfl⟩ := List.mem_map.mp hb
    obtain ⟨path, slot⟩ := other
    cases path with
    | nil => exact absurd rfl (hne _ ho)
    | cons i path => exact List.cons_lt_cons_iff.mpr (.inl (Nat.succ_pos i))

end Stop

mutual

/-- **The stops of a walk are in the order of their paths.** -/
theorem Schema.stops_ordered (s : Schema) : ∀ v : Value, Stop.Ordered (s.stops v)
  | .string _ => by
    rw [Schema.stops]
    split
    · exact List.pairwise_singleton _ _
    · exact .nil
  | .tagged _ => by
    rw [Schema.stops]
    split
    · exact List.pairwise_singleton _ _
    · exact .nil
  | .record ⟨own, fields⟩ => by
    rw [Schema.stops]
    split
    next type _ => exact stopsOfFields_ordered type.fields type.tagPositions fields
    next => exact .nil
  | .array items => by
    rw [Schema.stops]
    split
    next item _ => exact stopsOfItems_ordered item items
    next => exact .nil
  | .map entries => by
    rw [Schema.stops]
    split
    next value _ => exact stopsOfEntries_ordered value entries
    next => exact .nil
  | .null | .boolean _ | .int _ | .long _ | .float _ | .double _ | .bytes _ | .enum _
  | .fixed _ => by
    rw [Schema.stops]
    · exact .nil
    all_goals simp

theorem stopsOfFields_ordered (fields : List Field) (positions : List Nat) : ∀ vs : List Value,
    Stop.Ordered (stopsOfFields fields positions vs)
  | [] => by
    rw [stopsOfFields]
    exact .nil
  | v :: rest => by
    cases fields with
    | nil =>
      rw [stopsOfFields]
      exact .nil
    | cons field fields =>
      have hrest := stopsOfFields_ordered fields positions rest
      have hne : ∀ stop ∈ stopsOfFields fields positions rest, stop.path ≠ [] := by
        intro stop hs
        obtain ⟨i, f, w, inner, -, -, -, -, rfl⟩ := mem_stopsOfFields.mp hs
        exact List.cons_ne_nil i inner.path
      rw [stopsOfFields]
      split
      · exact (Schema.stops_ordered field.schema v).append hrest hne
      · exact Stop.Ordered.append .nil hrest hne

theorem stopsOfItems_ordered (item : Schema) : ∀ vs : List Value,
    Stop.Ordered (stopsOfItems item vs)
  | [] => by
    rw [stopsOfItems]
    exact .nil
  | v :: rest => by
    rw [stopsOfItems]
    refine (Schema.stops_ordered item v).append (stopsOfItems_ordered item rest) ?_
    intro stop hs
    obtain ⟨i, w, inner, -, -, rfl⟩ := mem_stopsOfItems.mp hs
    exact List.cons_ne_nil i inner.path

theorem stopsOfEntries_ordered (value : Schema) : ∀ es : List (String × Value),
    Stop.Ordered (stopsOfEntries value es)
  | [] => by
    rw [stopsOfEntries]
    exact .nil
  | (key, v) :: rest => by
    rw [stopsOfEntries]
    refine (Schema.stops_ordered value v).append (stopsOfEntries_ordered value rest) ?_
    intro stop hs
    obtain ⟨i, e, inner, -, -, rfl⟩ := mem_stopsOfEntries.mp hs
    exact List.cons_ne_nil i inner.path

end

/-! ## Other texts -/

section

variable (f : String → String) (g : TaggedText → TaggedText)

/-- The slot with another text in it. -/
@[simp] def Slot.mapTexts : Slot → Slot
  | .inline text => .inline (f text)
  | .typed t => .typed (g t)

def Stop.mapTexts (stop : Stop) : Stop := { stop with slot := stop.slot.mapTexts f g }

theorem map_first_mapTexts (stops : List Stop) :
    (stops.map (Stop.mapTexts f g)).map Stop.first
      = (stops.map Stop.first).map (Stop.mapTexts f g) := by
  rw [List.map_map, List.map_map]
  rfl

theorem map_next_mapTexts (stops : List Stop) :
    (stops.map (Stop.mapTexts f g)).map Stop.next
      = (stops.map Stop.next).map (Stop.mapTexts f g) := by
  rw [List.map_map, List.map_map]
  rfl

mutual

/-- **No text steers a walk**: with other texts it has the same stops with those in them. -/
theorem Schema.stops_mapTexts (s : Schema) : ∀ v : Value,
    s.stops (v.mapTexts f g) = (s.stops v).map (Stop.mapTexts f g)
  | .string _ => by
    rw [Value.mapTexts, Schema.stops, Schema.stops]
    split <;> rfl
  | .tagged _ => by
    rw [Value.mapTexts, Schema.stops, Schema.stops]
    split <;> rfl
  | .record ⟨own, fields⟩ => by
    rw [Value.mapTexts, Record.mapTexts]
    cases h : s.recordType? own with
    | none => simp only [Schema.stops, h, List.map_nil]
    | some type =>
      simp only [Schema.stops, h]
      exact stopsOfFields_mapTexts type.fields type.tagPositions fields
  | .array items => by
    rw [Value.mapTexts]
    cases h : s.itemsToVisit? with
    | none => simp only [Schema.stops, h, List.map_nil]
    | some item =>
      simp only [Schema.stops, h]
      exact stopsOfItems_mapTexts item items
  | .map entries => by
    rw [Value.mapTexts]
    cases h : s.valuesToVisit? with
    | none => simp only [Schema.stops, h, List.map_nil]
    | some value =>
      simp only [Schema.stops, h]
      exact stopsOfEntries_mapTexts value entries
  | .null | .boolean _ | .int _ | .long _ | .float _ | .double _ | .bytes _ | .enum _
  | .fixed _ => by simp [Schema.stops]

theorem stopsOfFields_mapTexts (fields : List Field) (positions : List Nat) : ∀ vs : List Value,
    stopsOfFields fields positions (mapTextsOfItems f g vs)
      = (stopsOfFields fields positions vs).map (Stop.mapTexts f g)
  | [] => by rw [mapTextsOfItems, stopsOfFields, List.map_nil]
  | v :: rest => by
    cases fields with
    | nil => rw [mapTextsOfItems, stopsOfFields, stopsOfFields, List.map_nil]
    | cons field fields =>
      rw [mapTextsOfItems, stopsOfFields, stopsOfFields, List.map_append,
        stopsOfFields_mapTexts fields positions rest, map_next_mapTexts]
      split
      · rw [Schema.stops_mapTexts field.schema v, map_first_mapTexts]
      · rw [List.map_nil]

theorem stopsOfItems_mapTexts (item : Schema) : ∀ vs : List Value,
    stopsOfItems item (mapTextsOfItems f g vs) = (stopsOfItems item vs).map (Stop.mapTexts f g)
  | [] => by rw [mapTextsOfItems, stopsOfItems, List.map_nil]
  | v :: rest => by
    rw [mapTextsOfItems, stopsOfItems, stopsOfItems, List.map_append, Schema.stops_mapTexts item v,
      stopsOfItems_mapTexts item rest, map_first_mapTexts, map_next_mapTexts]

theorem stopsOfEntries_mapTexts (value : Schema) : ∀ es : List (String × Value),
    stopsOfEntries value (mapTextsOfEntries f g es)
      = (stopsOfEntries value es).map (Stop.mapTexts f g)
  | [] => by rw [mapTextsOfEntries, stopsOfEntries, List.map_nil]
  | (_, v) :: rest => by
    rw [mapTextsOfEntries, stopsOfEntries, stopsOfEntries, List.map_append,
      Schema.stops_mapTexts value v, stopsOfEntries_mapTexts value rest, map_first_mapTexts,
      map_next_mapTexts]

end

end

/-! ## Targets -/

/-- The text of a slot, whatever its mark. -/
@[simp] def Slot.text : Slot → String
  | .inline text => text
  | .typed t => t.text

theorem Slot.handed?_eq {d : Direction} {c : Slot} {text : String} (h : c.handed? d = some text) :
    text = c.text := by
  cases c with
  | inline _ =>
    cases h
    rfl
  | typed t => cases d <;> cases t <;> cases h <;> rfl

/-- Whether the walk has something to do at the stop. -/
def Stop.isTarget (d : Direction) (stop : Stop) : Bool := (stop.slot.handed? d).isSome

/-- The stops whose texts are handed over, unless the walk ends before. -/
def Schema.targets (s : Schema) (d : Direction) (v : Value) : List Stop :=
  (s.stops v).filter (Stop.isTarget d)

theorem Schema.targets_ordered (s : Schema) (d : Direction) (v : Value) :
    Stop.Ordered (s.targets d v) :=
  (s.stops_ordered v).filter _

/-- The text without what it says; the mark stays. -/
def TaggedText.erased : TaggedText → TaggedText
  | .plain _ => .plain ""
  | .encrypted _ => .encrypted ""

/-- The value without its texts: the records and their types, the lengths of arrays, the keys of maps
and the marks are left. -/
def Value.erased (v : Value) : Value := v.mapTexts (fun _ => "") TaggedText.erased

/-- **What is handed over is known without the texts.** -/
theorem Schema.targets_erased (s : Schema) (d : Direction) (v : Value) :
    (s.targets d v.erased).map Stop.place = (s.targets d v).map Stop.place := by
  have htarget : Stop.isTarget d ∘ Stop.mapTexts (fun _ => "") TaggedText.erased
      = Stop.isTarget d := by
    funext ⟨path, c⟩
    cases c with
    | inline _ => rfl
    | typed t => cases d <;> cases t <;> rfl
  have hplace : Stop.place ∘ Stop.mapTexts (fun _ => "") TaggedText.erased = Stop.place := by
    funext ⟨path, c⟩
    cases c <;> rfl
  rw [targets, targets, Value.erased, stops_mapTexts, List.filter_map, htarget, List.map_map, hplace]

theorem Schema.targets_congr {s : Schema} {d : Direction} {v u : Value} (h : u.erased = v.erased) :
    (s.targets d u).map Stop.place = (s.targets d v).map Stop.place := by
  rw [← s.targets_erased d u, h, s.targets_erased d v]

end FieldSeal
