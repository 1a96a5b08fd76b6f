import FieldSeal.Cipher.Text
import FieldSeal.Document
import FieldSeal.Proofs.Rendering.Reading
import FieldSeal.Proofs.Value.Shapes
import FieldSeal.Proofs.Walk.Turns
import Mathlib.Algebra.Order.BigOperators.Group.List
import Mathlib.Algebra.Order.Ring.Nat
import Mathlib.Data.List.Nodup
import Mathlib.Data.List.Perm.Subperm

/-!
# A document takes no more nonces than it has texts

Each call of the cipher takes a nonce of its own, and who draws the nonces has to know how many there
will be before the walk begins. The texts of the document are enough (`Schema.sealDocument_congr`):
a walk comes to a text of its value at most once, and a value has no more texts than the document that
it was read from.

The second half is not true of every schema. Two fields of one name would both read the one member
with that name, and its texts would be there twice; in a schema that has been read from a document
there are no such fields.
-/

set_option autoImplicit false

namespace FieldSeal

/-! ## Counting texts -/

namespace Json

@[simp] theorem textsOfItems_eq_sum (js : List Json) : textsOfItems js = (js.map texts).sum := by
  induction js with
  | nil => rfl
  | cons j rest ih => rw [textsOfItems, ih, List.map_cons, List.sum_cons]

@[simp] theorem textsOfMembers_eq_sum (es : List (String × Json)) :
    textsOfMembers es = (es.map fun e => e.2.texts).sum := by
  induction es with
  | nil => rfl
  | cons e rest ih => rw [textsOfMembers, ih, List.map_cons, List.sum_cons]

end Json

/-- How many texts there are in the value, bare or marked. -/
def Value.texts (v : Value) : Nat := v.parts.countP Value.isText

@[simp] theorem texts_partsOfItems (vs : List Value) :
    (partsOfItems vs).countP Value.isText = (vs.map Value.texts).sum := by
  induction vs with
  | nil => rfl
  | cons v rest ih => rw [partsOfItems, List.countP_append, ih, List.map_cons, List.sum_cons]; rfl

@[simp] theorem texts_partsOfEntries (es : List (String × Value)) :
    (partsOfEntries es).countP Value.isText = (es.map fun e => e.2.texts).sum := by
  induction es with
  | nil => rfl
  | cons e rest ih => rw [partsOfEntries, List.countP_append, ih, List.map_cons, List.sum_cons]; rfl

namespace Value

@[simp] theorem texts_record (type : RecordType) (fields : List Value) :
    (record ⟨type, fields⟩).texts = (fields.map texts).sum := by
  simp [texts]

@[simp] theorem texts_array (items : List Value) : (array items).texts = (items.map texts).sum := by
  simp [texts]

@[simp] theorem texts_map (entries : List (String × Value)) :
    (map entries).texts = (entries.map fun e => e.2.texts).sum := by
  simp [texts]

/-- What has no parts but itself is one text or none. -/
theorem texts_single {v : Value} (h : v.parts = [v]) : v.texts = if v.isText then 1 else 0 := by
  rw [texts, h, List.countP_singleton]

@[simp] theorem texts_string (text : String) : (string text).texts = 1 := texts_single rfl

@[simp] theorem texts_tagged (t : TaggedText) : (tagged t).texts = 1 := texts_single rfl

end Value

/-! ## A walk comes to each text once -/

mutual

theorem Schema.length_slots_le (s : Schema) : ∀ v : Value, (s.slots v).length ≤ v.texts
  | .string text => by
    rw [Schema.slots, Schema.stops]
    split <;> simp
  | .tagged t => by
    rw [Schema.slots, Schema.stops]
    split <;> simp
  | .record ⟨own, fields⟩ => by
    rw [Schema.slots, Schema.stops, Value.texts_record]
    split
    next type _ => exact length_slotsOfFields_le type.fields type.tagPositions fields
    next => exact Nat.zero_le _
  | .array items => by
    rw [Schema.slots, Schema.stops, Value.texts_array]
    split
    next item _ => exact length_slotsOfItems_le item items
    next => exact Nat.zero_le _
  | .map entries => by
    rw [Schema.slots, Schema.stops, Value.texts_map]
    split
    next value _ => exact length_slotsOfEntries_le value entries
    next => exact Nat.zero_le _
  | .null | .boolean _ | .int _ | .long _ | .float _ | .double _ | .bytes _ | .enum _
  | .fixed _ => Nat.zero_le _

theorem length_slotsOfFields_le (fields : List Field) (positions : List Nat) : ∀ vs : List Value,
    (slotsOfFields fields positions vs).length ≤ (vs.map Value.texts).sum
  | [] => by simp
  | v :: rest => by
    match fields with
    | [] => simp [slotsOfFields]
    | field :: fields =>
      have hfirst := Schema.length_slots_le field.schema v
      have hrest := length_slotsOfFields_le fields positions rest
      rw [slotsOfFields_cons, List.length_append, List.map_cons, List.sum_cons]
      split
      next => exact Nat.add_le_add hfirst hrest
      next => exact Nat.add_le_add (Nat.zero_le _) hrest

theorem length_slotsOfItems_le (item : Schema) : ∀ vs : List Value,
    (slotsOfItems item vs).length ≤ (vs.map Value.texts).sum
  | [] => by simp [slotsOfItems]
  | v :: rest => by
    rw [slotsOfItems_cons, List.length_append, List.map_cons, List.sum_cons]
    exact Nat.add_le_add (Schema.length_slots_le item v) (length_slotsOfItems_le item rest)

theorem length_slotsOfEntries_le (value : Schema) : ∀ es : List (String × Value),
    (slotsOfEntries value es).length ≤ (es.map fun e => e.2.texts).sum
  | [] => by simp [slotsOfEntries]
  | (key, v) :: rest => by
    rw [slotsOfEntries_cons, List.length_append, List.map_cons, List.sum_cons]
    exact Nat.add_le_add (Schema.length_slots_le value v) (length_slotsOfEntries_le value rest)

end

namespace Walk

variable {w w' : Walk}

/-- The turns of slots ask for no answer but those to the calls that come with them. -/
theorem turnAll_congr (hd : w.direction = w'.direction) : ∀ {slots : List Slot}
    {calls : List String}, (∀ n < calls.length + slots.length, w.leaf n = w'.leaf n) →
      w.turnAll slots calls = w'.turnAll slots calls
  | [], calls, _ => rfl
  | c :: rest, calls, h => by
    rw [List.length_cons] at h
    have hturn : w.turn calls.length c = w'.turn calls.length c := by
      rw [turn, turn, hd, h calls.length (by omega)]
    have hafter : (calls ++ (c.handed? w'.direction).toList).length ≤ calls.length + 1 := by
      rw [List.length_append]
      exact Nat.add_le_add_left (Option.length_toList_le) _
    rw [turnAll, turnAll, hturn, hd, turnAll_congr hd fun n hn => h n (by omega)]

/-- What comes of a walk is decided by the answers to so many calls as the value has texts. -/
theorem run_congr_leaf (hd : w.direction = w'.direction) {s : Schema} {v : Value}
    {index : FieldIndex} (hi : index.Sound) (h : ∀ n < v.texts, w.leaf n = w'.leaf n) :
    (w.run s v index).value = (w'.run s v index).value ∧
      (w.run s v index).failure = (w'.run s v index).failure := by
  have hrun := w.run_follows hi s v
  have hrun' := w'.run_follows hi s v
  have hturns : w.turnAll (s.slots v) [] = w'.turnAll (s.slots v) [] := by
    refine turnAll_congr hd fun n hn => h n ?_
    rw [List.length_nil, Nat.zero_add] at hn
    exact Nat.lt_of_lt_of_le hn (s.length_slots_le v)
  constructor
  · refine w.run_value_eq hi hrun'.blank_eq ?_
    rw [hrun'.slots_eq, hturns]
  · rw [hrun.failure_eq, hrun'.failure_eq, hturns]

end Walk

/-! ## A document has the texts of the value that is read from it -/

/-- What the reader makes of a document has no more texts than the document. -/
def AddsNoText (read : Json → Except CodecError Value) : Prop :=
  ∀ (j : Json) (v : Value), read j = .ok v → v.texts ≤ j.texts

variable {rendering : Rendering}

theorem sum_texts_readItems {item : Json → Except CodecError Value} (hitem : AddsNoText item) :
    ∀ {js : List Json} {vs : List Value}, readItems item js = .ok vs →
      (vs.map Value.texts).sum ≤ (js.map Json.texts).sum
  | [], _, h => by
    cases h
    exact Nat.le_refl _
  | j :: rest, _, h => by
    obtain ⟨v, hv, h⟩ := bind_eq_ok.mp h
    obtain ⟨vs, hvs, h⟩ := bind_eq_ok.mp h
    cases h
    rw [List.map_cons, List.sum_cons, List.map_cons, List.sum_cons]
    exact Nat.add_le_add (hitem j v hv) (sum_texts_readItems hitem hvs)

theorem sum_texts_readEntries {value : Json → Except CodecError Value} (hvalue : AddsNoText value) :
    ∀ {js : List (String × Json)} {es : List (String × Value)}, readEntries value js = .ok es →
      (es.map fun e => e.2.texts).sum ≤ (js.map fun e => e.2.texts).sum
  | [], _, h => by
    cases h
    exact Nat.le_refl _
  | (key, j) :: rest, _, h => by
    obtain ⟨v, hv, h⟩ := bind_eq_ok.mp h
    obtain ⟨es, hes, h⟩ := bind_eq_ok.mp h
    cases h
    rw [List.map_cons, List.sum_cons, List.map_cons, List.sum_cons]
    exact Nat.add_le_add (hvalue j v hv) (sum_texts_readEntries hvalue hes)

/-- The members that the fields of a record are read from. -/
theorem exists_members_of_fieldsFromJson {members : Table Json} : ∀ {fields : List Field}
    {vs : List Value},
      (∀ f ∈ fields, AddsNoText (f.schema.fromJson rendering)) →
      fieldsFromJson rendering fields members = .ok vs →
        ∃ found : List (String × Json), found.map (·.1) = fields.map (·.name) ∧ found ⊆ members ∧
          (vs.map Value.texts).sum ≤ (found.map fun e => e.2.texts).sum
  | [], _, _, h => by
    cases h
    exact ⟨[], rfl, List.nil_subset _, Nat.le_refl _⟩
  | ⟨name, position, schema⟩ :: rest, _, hfields, h => by
    rw [fieldsFromJson] at h
    cases hget : Table.get? name members with
    | none =>
      rw [hget] at h
      cases h
    | some j =>
      rw [hget] at h
      obtain ⟨v, hv, h⟩ := bind_eq_ok.mp h
      obtain ⟨vs, hvs, h⟩ := bind_eq_ok.mp h
      cases h
      rw [List.forall_mem_cons] at hfields
      obtain ⟨found, hnames, hfound, hsum⟩ := exists_members_of_fieldsFromJson hfields.2 hvs
      refine ⟨(name, j) :: found, ?_, ?_, ?_⟩
      · rw [List.map_cons, hnames, List.map_cons]
      · exact List.cons_subset.mpr ⟨Table.mem_of_get? hget, hfound⟩
      · rw [List.map_cons, List.sum_cons, List.map_cons, List.sum_cons]
        exact Nat.add_le_add (hfields.1 j v hv) hsum

/-- Members with names of their own are no more than there are. -/
theorem sum_texts_le_of_subset {found members : List (String × Json)}
    (hnames : (found.map (·.1)).Nodup) (hfound : found ⊆ members) :
    (found.map fun e => e.2.texts).sum ≤ (members.map fun e => e.2.texts).sum := by
  obtain ⟨among, hperm, hsub⟩ := List.subperm_of_subset hnames.of_map hfound
  rw [← (hperm.map fun e => e.2.texts).sum_eq]
  exact (hsub.map fun e => e.2.texts).sum_le_sum fun _ _ => Nat.zero_le _

namespace Schema

theorem addsNoText_string (tag : Option Tag) : AddsNoText ((string tag).fromJson rendering) := by
  intro j v h
  cases j with
  | string text =>
    have hv : v.texts = 1 := by
      cases tag with
      | none =>
        cases h
        rfl
      | some tag =>
        cases h
        cases rendering <;> cases tag <;> rfl
    rw [hv]
    exact Nat.le_refl 1
  | _ => cases h

/-- Fields with names of their own are read from members of their own. -/
theorem addsNoText_record {type : RecordType} (hdistinct : (type.fields.map (·.name)).Nodup)
    (hfields : ∀ f ∈ type.fields, AddsNoText (f.schema.fromJson rendering)) :
    AddsNoText ((record type).fromJson rendering) := by
  intro j v h
  obtain ⟨name, fields⟩ := type
  cases j with
  | object members =>
    obtain ⟨r, hr, rfl⟩ := map_eq_ok.mp h
    obtain ⟨vs, hvs, hr⟩ := bind_eq_ok.mp hr
    cases hr
    obtain ⟨found, hnames, hfound, hsum⟩ := exists_members_of_fieldsFromJson hfields hvs
    rw [← hnames] at hdistinct
    rw [Value.texts_record, Json.texts, Json.textsOfMembers_eq_sum]
    exact Nat.le_trans hsum (sum_texts_le_of_subset hdistinct hfound)
  | _ => cases h

theorem addsNoText_array {items : Schema} (hitems : AddsNoText (items.fromJson rendering)) :
    AddsNoText ((array items).fromJson rendering) := by
  intro j v h
  cases j with
  | array js =>
    obtain ⟨vs, hvs, rfl⟩ := map_eq_ok.mp h
    rw [Value.texts_array, Json.texts, Json.textsOfItems_eq_sum]
    exact sum_texts_readItems hitems hvs
  | _ => cases h

theorem addsNoText_map {values : Schema} (hvalues : AddsNoText (values.fromJson rendering)) :
    AddsNoText ((map values).fromJson rendering) := by
  intro j v h
  cases j with
  | object members =>
    obtain ⟨es, hes, rfl⟩ := map_eq_ok.mp h
    rw [Value.texts_map, Json.texts, Json.textsOfMembers_eq_sum]
    exact sum_texts_readEntries hvalues hes
  | _ => cases h

/-- The object around what a branch reads has no text of its own. -/
theorem addsNoText_union {members : List Schema}
    (hmembers : ∀ m ∈ members, AddsNoText (m.fromJson rendering)) :
    AddsNoText ((union members).fromJson rendering) := by
  intro j v h
  unfold Schema.fromJson at h
  split at h
  · split at h <;> cases h
    exact Nat.zero_le _
  next branch inner =>
    obtain ⟨m, hm, hread⟩ := mem_of_memberFromJson h
    have hinner := hmembers m hm inner v hread
    simpa [Json.texts, Json.textsOfMembers] using hinner
  next => cases h

/-- **What is read from a document has no more texts than the document**, under every schema inside
one that has been read from a document itself. -/
theorem addsNoText {root : Schema} (hroot : root.WellFormed) {s : Schema} (hs : s ∈ root.nodes) :
    AddsNoText (s.fromJson rendering) := by
  induction s using Schema.induction with
  | string tag => exact addsNoText_string tag
  | record type ih =>
    refine addsNoText_record (hroot.records _ hs).distinct fun f hf => ih f hf ?_
    exact nodes_trans (mem_nodes_field hf) hs
  | array items ih => exact addsNoText_array (ih (nodes_trans (mem_nodes_items items) hs))
  | map values ih => exact addsNoText_map (ih (nodes_trans (mem_nodes_values values) hs))
  | union members ih =>
    exact addsNoText_union fun m hm => ih m hm (nodes_trans (mem_nodes_member hm) hs)
  | null | boolean | float | double =>
    intro j v h
    cases j <;> cases h
    exact Nat.zero_le _
  | int | long =>
    intro j v h
    cases j with
    | number n =>
      rw [fromJson] at h
      split at h <;> cases h
      exact Nat.zero_le _
    | _ => cases h
  | bytes =>
    intro j v h
    cases j with
    | string text =>
      obtain ⟨data, -, rfl⟩ := map_eq_ok.mp h
      exact Nat.zero_le _
    | _ => cases h
  | enum type =>
    intro j v h
    cases j with
    | string symbol =>
      rw [fromJson] at h
      split at h <;> cases h
      exact Nat.zero_le _
    | _ => cases h
  | fixed type =>
    intro j v h
    cases j with
    | string text =>
      obtain ⟨data, -, h⟩ := bind_eq_ok.mp h
      split at h <;> cases h
      exact Nat.zero_le _
    | _ => cases h

/-! ## The nonces of a run -/

/-- **A document takes no more nonces than it has texts**: two streams that agree so far make the same
result of it. -/
theorem sealDocument_congr {s : Schema} (hs : s.WellFormed) (cipher : TextCipher)
    (direction : Direction) {nonces nonces' : Nat → Nonce} {document : Json} {index : FieldIndex}
    (hi : index.Sound) (h : ∀ n < document.texts, nonces n = nonces' n) :
    (s.sealDocument (cipher.withNonces nonces) direction document index).map (·.1)
      = (s.sealDocument (cipher.withNonces nonces') direction document index).map (·.1) := by
  generalize hw : (cipher.withNonces nonces).walk direction = w
  generalize hw' : (cipher.withNonces nonces').walk direction = w'
  have hd : w.direction = w'.direction := by rw [← hw, ← hw']; rfl
  simp only [sealDocument, hw, hw']
  cases hread : s.fromJson direction.source document with
  | error e => rfl
  | ok v =>
    have hleaf : ∀ n < v.texts, w.leaf n = w'.leaf n := by
      intro n hn
      have htexts := addsNoText hs s.mem_nodes_self document v hread
      rw [← hw, ← hw']
      cases direction with
      | encrypt => exact congrArg cipher.sealText (h n (Nat.lt_of_lt_of_le hn htexts))
      | decrypt => rfl
    obtain ⟨hvalue, hfailure⟩ := Walk.run_congr_leaf hd (s := s) hi hleaf
    dsimp only
    rw [hvalue, hfailure]
    cases (w'.run s v index).failure with
    | some e => rfl
    | none =>
      dsimp only
      cases s.toJson direction.target (w'.run s v index).value <;> rfl

end Schema

end FieldSeal
