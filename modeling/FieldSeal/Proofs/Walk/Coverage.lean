import FieldSeal.Proofs.Schema.Resolution
import FieldSeal.Proofs.Walk.Layers
import FieldSeal.Proofs.Walk.Visits
import FieldSeal.Proofs.Wire.Pieces
import Mathlib.Data.List.Forall2

/-!
# Whether a walk comes to all that is written under a tag

The writer and the walk go through a value along the same schema, and both come to tagged strings.
They choose the branch of a union differently: the writer takes the first member that accepts the
value, and goes on to the members of that member if it is a union, while the walk looks at the
members themselves and no deeper. So a tagged string that the schema has in a union directly inside
a union is written and not visited, and its text goes out as it stands.

`Schema.Covered` says that this is not so: the walk stops at every place where the writer puts out
a tagged string that has not been encrypted yet. **It is the exact condition** for encryption to do
its work, whatever the cipher answers (`Schema.sealed_iff_covered`), and it holds of all values for
a schema without a union directly inside a union.

What makes the comparison possible is that both ways lead through the value and not through its
texts: `Value.at?` finds at a path what the walk and the writer each say is there.
-/

set_option autoImplicit false

namespace FieldSeal

open FieldSeal.Wire

/-! ## Places of the writer -/

theorem Schema.WritesAt.at? {s : Schema} {v : Value} {stop : Stop} (h : s.WritesAt v stop) :
    Value.at? stop.path v = some stop.slot.value := by
  induction h with
  | inline | typed => rfl
  | @field type r f v stop _ _ hv _ ih =>
    obtain ⟨own, fields⟩ := r
    have hget : fields[f.position]? = some v := hv
    rw [Stop.under, Value.at?, hget]
    exact ih
  | item hv _ ih =>
    rw [Stop.under, Value.at?, hv]
    exact ih
  | entry he _ ih =>
    rw [Stop.under, Value.at?, he]
    exact ih
  | member _ _ ih => exact ih

/-- Where something is written under a tag, the schema has the tag, and so no index prunes it. -/
theorem Schema.WritesAt.holdsTag {s : Schema} {v : Value} {stop : Stop} (h : s.WritesAt v stop) :
    s.holdsTag = true := by
  induction h with
  | inline | typed => rfl
  | @field type r f v stop _ hf _ _ ih =>
    exact Schema.holdsTag_of_mem_tagPositions (RecordType.mem_tagPositions.mpr ⟨f, hf, ih, rfl⟩)
  | item _ _ ih | entry _ _ ih => rwa [Schema.holdsTag]
  | member hm _ ih =>
    rw [Schema.holdsTag, anyHoldsTag_eq_true]
    exact ⟨_, List.mem_of_find?_eq_some hm, ih⟩

/-! ## What encryption does at a slot -/

/-- The leaf function answers for every text. -/
def Leaf.Total (leaf : Leaf) : Prop := ∀ n text, ∃ answer, leaf n text = .ok answer

/-- The second slot has what encryption makes of the first: the answer to a call of the run on the
text that stood there, or the same text if that was encrypted already. -/
inductive Slot.Sealed (leaf : Leaf) (calls : List String) : Slot → Slot → Prop
  | inline {n : Nat} {text answer : String} (hc : calls[n]? = some text)
      (ha : leaf n text = .ok answer) : Sealed leaf calls (.inline text) (.inline answer)
  | typed {n : Nat} {text answer : String} (hc : calls[n]? = some text)
      (ha : leaf n text = .ok answer) :
      Sealed leaf calls (.typed (.plain text)) (.typed (.encrypted answer))
  | passed (text : String) : Sealed leaf calls (.typed (.encrypted text)) (.typed (.encrypted text))

theorem Slot.Sealed.not_plain {leaf : Leaf} {calls : List String} {c d : Slot}
    (h : Sealed leaf calls c d) (text : String) : d ≠ .typed (.plain text) := by
  cases h <;> simp

def Stop.Sealed (leaf : Leaf) (calls : List String) (before after : Stop) : Prop :=
  before.path = after.path ∧ before.slot.Sealed leaf calls after.slot

/-- The turn of a slot in a run that goes on with the calls after it. -/
theorem Slot.Sealed.of_turn {leaf : Leaf} {before after : List String} {c d : Slot}
    (h : Walk.turn ⟨.encrypt, leaf⟩ before.length c = .ok d)
    (hp : before ++ (c.handed? .encrypt).toList <+: after) : Sealed leaf after c d := by
  have hcall : ∀ text, c.handed? .encrypt = some text → after[before.length]? = some text := by
    intro text ht
    obtain ⟨rest, rfl⟩ := hp
    simp [ht]
  rw [Walk.turn] at h
  split at h
  next hnone =>
    cases h
    cases c with
    | inline text => simp at hnone
    | typed t =>
      cases t with
      | plain text => simp at hnone
      | encrypted text => exact .passed text
  next text ht =>
    split at h
    next answer ha =>
      cases h
      cases c with
      | inline text =>
        cases ht
        exact .inline (hcall _ rfl) ha
      | typed t =>
        cases t with
        | plain text =>
          cases ht
          exact .typed (hcall _ rfl) ha
        | encrypted text => simp at ht
    next => simp at h

/-- A run that succeeds has given each slot its answer. -/
theorem Walk.turnAll_sealed {leaf : Leaf} {slots : List Slot} {calls : List String}
    (hf : (turnAll ⟨.encrypt, leaf⟩ slots calls).failure = none) :
    calls <+: (turnAll ⟨.encrypt, leaf⟩ slots calls).calls ∧
      List.Forall₂ (Slot.Sealed leaf (turnAll ⟨.encrypt, leaf⟩ slots calls).calls) slots
        (turnAll ⟨.encrypt, leaf⟩ slots calls).slots := by
  induction slots generalizing calls with
  | nil => exact ⟨List.prefix_rfl, .nil⟩
  | cons c rest ih =>
    rw [turnAll] at hf ⊢
    cases ht : turn ⟨.encrypt, leaf⟩ calls.length c with
    | error e =>
      rw [ht] at hf
      cases hf
    | ok d =>
      rw [ht] at hf
      obtain ⟨hp, hs⟩ := ih hf
      exact ⟨(List.prefix_append _ _).trans hp, .cons (Slot.Sealed.of_turn ht hp) hs⟩

namespace Walk

variable {w : Walk}

theorem turn_of_total (ht : w.leaf.Total) (n : Nat) (c : Slot) : ∃ d, w.turn n c = .ok d := by
  rw [turn]
  cases c.handed? w.direction with
  | none => exact ⟨c, rfl⟩
  | some text =>
    obtain ⟨answer, ha⟩ := ht n text
    simp only [ha]
    exact ⟨_, rfl⟩

theorem turnAll_of_total (ht : w.leaf.Total) (slots : List Slot) (calls : List String) :
    (w.turnAll slots calls).failure = none := by
  induction slots generalizing calls with
  | nil => rfl
  | cons c rest ih =>
    obtain ⟨d, hd⟩ := turn_of_total ht calls.length c
    rw [turnAll, hd]
    exact ih _

end Walk

/-! ## Coverage -/

/-- The walk stops at every place where the writer puts out a text under a tag, unless that text is
encrypted already. -/
def Schema.Covered (s : Schema) (v : Value) : Prop :=
  ∀ stop ∈ s.places v, (∃ text, stop.slot = .typed (.encrypted text)) ∨ stop ∈ s.stops v

/-- The same of a walk along one schema and a writer along another. -/
def Schema.CoveredAlong (walked s : Schema) (v : Value) : Prop :=
  ∀ stop ∈ s.places v, (∃ text, stop.slot = .typed (.encrypted text)) ∨ stop ∈ walked.stops v

/-- What encrypting a value is for: the run succeeds, its result is written, and every text that is
written under a tag is the answer to a call of the run on the text that stood there, or was
encrypted before. -/
structure Schema.Seals (s : Schema) (leaf : Leaf) (v : Value) (index : FieldIndex) : Prop where
  succeeds : (Walk.run ⟨.encrypt, leaf⟩ s v index).failure = none
  encodes : ∃ bytes, s.encode (Walk.run ⟨.encrypt, leaf⟩ s v index).value = .ok bytes
  texts : List.Forall₂ (Stop.Sealed leaf (Walk.run ⟨.encrypt, leaf⟩ s v index).trace.calls)
    (s.places v) (s.places (Walk.run ⟨.encrypt, leaf⟩ s v index).value)

/-- The value with every marked text marked as encrypted. -/
def Value.marked (v : Value) : Value := v.mapTexts id fun t => .encrypted t.text

/-- A value that could be written if it were marked can be written but for its plain texts. -/
theorem Schema.writable_of_marked {s : Schema} {v : Value} {bytes : List UInt8}
    (h : s.encode v.marked = .ok bytes) : s.Writable v := by
  refine Writable.congr ((s.failure_write _).mp (encode_eq_ok_iff.mp h).1).1 ?_
  rw [Value.marked, Value.shape, Value.mapTexts_mapTexts]
  rfl

theorem exists_of_forall₂ {α β : Type} {R : α → β → Prop} {as : List α} {bs : List β}
    (h : List.Forall₂ R as bs) {a : α} (ha : a ∈ as) : ∃ b ∈ bs, R a b := by
  induction h with
  | nil => simp at ha
  | cons hr _ ih =>
    rcases List.mem_cons.mp ha with rfl | ha
    · exact ⟨_, List.mem_cons_self, hr⟩
    · obtain ⟨b, hb, hrb⟩ := ih ha
      exact ⟨b, List.mem_cons_of_mem _ hb, hrb⟩

/-- Stops at the same places are related when those at one path are. -/
theorem forall₂_of_places {R : Stop → Stop → Prop} {as bs : List Stop}
    (hp : as.map Stop.place = bs.map Stop.place)
    (h : ∀ a ∈ as, ∀ b ∈ bs, a.path = b.path → R a b) : List.Forall₂ R as bs := by
  induction as generalizing bs with
  | nil =>
    rw [List.map_nil, eq_comm, List.map_eq_nil_iff] at hp
    rw [hp]
    exact .nil
  | cons a rest ih =>
    cases bs with
    | nil => simp at hp
    | cons b others =>
      rw [List.map_cons, List.map_cons, List.cons.injEq] at hp
      refine .cons (h a List.mem_cons_self b List.mem_cons_self (congrArg Prod.fst hp.1)) ?_
      exact ih hp.2 fun a ha b hb => h a (List.mem_cons_of_mem _ ha) b (List.mem_cons_of_mem _ hb)

/-- Stops at the same places whose slots are related are related by path and slot. -/
theorem forall₂_of_slots {R : Slot → Slot → Prop} {as bs : List Stop}
    (hp : as.map Stop.place = bs.map Stop.place)
    (hs : List.Forall₂ R (as.map (·.slot)) (bs.map (·.slot))) :
    List.Forall₂ (fun a b : Stop => a.path = b.path ∧ R a.slot b.slot) as bs := by
  induction as generalizing bs with
  | nil =>
    rw [List.map_nil, eq_comm, List.map_eq_nil_iff] at hp
    rw [hp]
    exact .nil
  | cons a rest ih =>
    cases bs with
    | nil => simp at hp
    | cons b others =>
      rw [List.map_cons, List.map_cons, List.cons.injEq] at hp
      rw [List.map_cons, List.map_cons, List.forall₂_cons] at hs
      exact .cons ⟨congrArg Prod.fst hp.1, hs.1⟩ (ih hp.2 hs.2)

namespace Schema

variable {s : Schema} {v : Value} {index : FieldIndex}

/-- A run that comes to all places seals all places. -/
theorem CoveredAlong.places_sealed {walked : Schema} (hc : walked.CoveredAlong s v) {leaf : Leaf}
    {o : Outcome Value} (hrun : Follows ⟨.encrypt, leaf⟩ walked.blank walked.slots v [] o)
    (hf : o.failure = none) :
    List.Forall₂ (Stop.Sealed leaf o.trace.calls) (s.places v) (s.places o.value) := by
  obtain ⟨-, hslots⟩ := Walk.turnAll_sealed (hrun.failure_eq ▸ hf)
  rw [← hrun.slots_eq, ← hrun.calls_eq] at hslots
  have hstops := forall₂_of_slots (stops_congr hrun.blank_eq.symm) hslots
  refine forall₂_of_places (places_congr (shape_eq_of_blank_eq hrun.blank_eq).symm)
    fun p hp q hq hpath => ⟨hpath, ?_⟩
  have hpv := (writesAt_of_mem_places hp).at?
  have hqw := (writesAt_of_mem_places hq).at?
  rw [← hpath] at hqw
  -- Either the walk stops here, or it does not and the text is encrypted already.
  by_cases hstop : p ∈ walked.stops v
  · obtain ⟨r, hr, hrp, hrs⟩ := exists_of_forall₂ hstops hstop
    have hrw := at?_of_mem_stops hr
    rw [← hrp, hqw, Option.some.injEq] at hrw
    rwa [Slot.value_inj hrw]
  · obtain ⟨text, htext⟩ := (hc p hp).resolve_right hstop
    have hq : q.slot = p.slot := slot_eq_of_blank_eq hrun.blank_eq hpv hqw fun other ho he =>
      hstop (mem_stops_of_at? hpv ho he)
    rw [hq, htext]
    exact .passed text

theorem Covered.seals (hc : s.Covered v) (hw : s.Writable v) (hi : index.Sound) {leaf : Leaf}
    (ht : leaf.Total) : s.Seals leaf v index := by
  have hrun := Walk.run_follows (w := ⟨.encrypt, leaf⟩) hi s v
  have hf := hrun.failure_eq.trans (Walk.turnAll_of_total ht _ _)
  have htexts := CoveredAlong.places_sealed hc hrun hf
  refine ⟨hf, ⟨_, encode_eq_ok_iff.mpr ⟨(s.failure_write _).mpr ⟨?_, fun q hq => ?_⟩, rfl⟩⟩, htexts⟩
  · exact hw.congr (shape_eq_of_blank_eq hrun.blank_eq).symm
  · obtain ⟨p, -, -, hsealed⟩ := exists_of_forall₂ htexts.flip hq
    exact hsealed.not_plain

/-- A run that does not come to some place leaves the text there, and a cipher that changes every
text shows it. -/
theorem CoveredAlong.of_sealed {walked : Schema} {leaf : Leaf}
    (hleaf : ∀ n text, leaf n text ≠ .ok text) {o : Outcome Value}
    (hrun : Follows ⟨.encrypt, leaf⟩ walked.blank walked.slots v [] o)
    (hs : List.Forall₂ (Stop.Sealed leaf o.trace.calls) (s.places v) (s.places o.value)) :
    walked.CoveredAlong s v := by
  intro p hp
  by_cases hstop : p ∈ walked.stops v
  · exact .inr hstop
  · obtain ⟨q, hq, hpath, hsealed⟩ := exists_of_forall₂ hs hp
    have hpv := (writesAt_of_mem_places hp).at?
    have hqw := (writesAt_of_mem_places hq).at?
    rw [← hpath] at hqw
    have he : q.slot = p.slot := slot_eq_of_blank_eq hrun.blank_eq hpv hqw fun other ho he =>
      hstop (mem_stops_of_at? hpv ho he)
    rw [he] at hsealed
    generalize p.slot = c at hsealed
    cases hsealed with
    | inline hc ha => exact absurd ha (hleaf _ _)
    | passed text => exact .inl ⟨text, rfl⟩

theorem Seals.covered {leaf : Leaf} (hleaf : ∀ n text, leaf n text ≠ .ok text) (hi : index.Sound)
    (hs : s.Seals leaf v index) : s.Covered v :=
  CoveredAlong.of_sealed hleaf (Walk.run_follows hi s v) hs.texts

end Schema

/-! ## Schemas without a union directly inside a union -/

namespace Schema

def isUnion : Schema → Bool
  | .union _ => true
  | _ => false

/-- No union in the schema has a union among its members. -/
def Flat (s : Schema) : Prop :=
  ∀ members, Schema.union members ∈ s.nodes → ∀ m ∈ members, m.isUnion = false

theorem accepts_array {s : Schema} (h : s.isUnion = false) (vs : List Value) :
    s.accepts (.array vs) = s.items?.isSome := by
  cases s with
  | string tag => cases tag with
    | none => rfl
    | some tag => cases tag <;> rfl
  | union members => simp [isUnion] at h
  | _ => rfl

theorem accepts_map {s : Schema} (h : s.isUnion = false) (es : List (String × Value)) :
    s.accepts (.map es) = s.values?.isSome := by
  cases s with
  | string tag => cases tag with
    | none => rfl
    | some tag => cases tag <;> rfl
  | union members => simp [isUnion] at h
  | _ => rfl

end Schema

theorem findSome?_of_find? {α β : Type} {f : α → Option β} {p : α → Bool} {a : α} : ∀ {as : List α},
    (∀ x ∈ as, p x = (f x).isSome) → as.find? p = some a → as.findSome? f = f a
  | [], _, h => by simp at h
  | x :: rest, hp, h => by
    have hx := hp x List.mem_cons_self
    rw [List.findSome?_cons]
    cases hf : f x with
    | none =>
      rw [hf, Option.isSome_none] at hx
      rw [List.find?_cons_of_neg (by simp [hx])] at h
      exact findSome?_of_find? (fun y hy => hp y (List.mem_cons_of_mem _ hy)) h
    | some b =>
      rw [hf, Option.isSome_some] at hx
      rw [List.find?_cons_of_pos hx, Option.some.injEq] at h
      rw [← h, hf]

namespace Schema

/-- In a union, a walk comes to what it comes to in the member that the writer takes. -/
theorem VisitsAt.union {root : Schema} (hroot : root.WellFormed) {members : List Schema}
    {m : Schema} {v : Value} {stop : Stop} (h : m.VisitsAt v stop)
    (hm : members.find? (·.accepts v) = some m)
    (hflat : ∀ x ∈ members, x.isUnion = false) (hs : m.nodes ⊆ root.nodes) (hv : v.TypesIn root) :
    (Schema.union members).VisitsAt v stop := by
  have hmem := List.mem_of_find?_eq_some hm
  have hmu := hflat m hmem
  cases h with
  | inline text h =>
    refine .inline text (List.any_eq_true.mpr ⟨m, hmem, ?_⟩)
    cases m <;> first | exact h | simp [isUnion] at hmu
  | typed t h =>
    refine .typed t (List.any_eq_true.mpr ⟨m, hmem, ?_⟩)
    cases m <;> first | exact h | simp [isUnion] at hmu
  | @field _ own type fields _ _ _ _ hr hf hget hp h =>
    cases m with
    | record t =>
      obtain rfl : t = type := by simpa [recordType?] using hr
      have hacc := List.find?_some hm
      have hn : own.name.full = t.name.full := by simpa [accepts] using hacc
      have hown : own = t :=
        hroot.record_eq (hv _ (Value.mem_parts_self _)) (hs (mem_nodes_self _)) hn
      exact .field rfl (hown ▸ hf) hget (hown ▸ hp) h
    | union members => simp [isUnion] at hmu
    | _ => simp [recordType?] at hr
  | @item _ items vs _ _ _ hi hget h =>
    have hfind := findSome?_of_find? (fun x hx => accepts_array (hflat x hx) vs) hm
    have hu : (Schema.union members).itemSchema? = m.itemSchema? := by
      rw [itemSchema?, hfind]
      cases m <;> first | rfl | simp [isUnion] at hmu
    exact .item (by rw [itemsToVisit?, hu]; exact hi) hget h
  | @entry _ values es _ _ _ hi hget h =>
    have hfind := findSome?_of_find? (fun x hx => accepts_map (hflat x hx) es) hm
    have hu : (Schema.union members).valueSchema? = m.valueSchema? := by
      rw [valueSchema?, hfind]
      cases m <;> first | rfl | simp [isUnion] at hmu
    exact .entry (by rw [valuesToVisit?, hu]; exact hi) hget h

/-- In a flat schema a walk comes to everything that the writer comes to. -/
theorem WritesAt.visitsAt {root : Schema} (hroot : root.WellFormed) (hflat : root.Flat) {s : Schema}
    {v : Value} {stop : Stop} (h : s.WritesAt v stop) :
    s.nodes ⊆ root.nodes → v.TypesIn root → s.VisitsAt v stop := by
  induction h with
  | inline text => exact fun _ _ => .inline text rfl
  | typed t => exact fun _ _ => .typed t rfl
  | @field type r f v stop hn hf hget h ih =>
    intro hs hv
    obtain ⟨own, fields⟩ := r
    obtain ⟨i, hi⟩ := List.mem_iff_getElem?.mp hf
    have hp : f.position = i := hroot.positioned _ (hs (mem_nodes_self _)) i f hi
    have hget' : fields[i]? = some v := hp ▸ hget
    have hnodes := List.Subset.trans (nodes_subset (mem_nodes_field hf)) hs
    have hpos : f.position ∈ type.tagPositions :=
      RecordType.mem_tagPositions.mpr ⟨f, hf, h.holdsTag, rfl⟩
    rw [hp]
    exact .field rfl hi hget' hpos
      (ih hnodes (hv.field (r := ⟨own, fields⟩) (List.mem_of_getElem? hget')))
  | @item items vs i v stop hget h ih =>
    intro hs hv
    have hvisit : (Schema.array items).itemsToVisit? = some items := by
      simp [itemsToVisit?, itemSchema?, items?, h.holdsTag]
    have hnodes := List.Subset.trans (nodes_subset (mem_nodes_items items)) hs
    exact .item hvisit hget (ih hnodes (hv.item (List.mem_of_getElem? hget)))
  | @entry values es i e stop hget h ih =>
    intro hs hv
    have hvisit : (Schema.map values).valuesToVisit? = some values := by
      simp [valuesToVisit?, valueSchema?, values?, h.holdsTag]
    have hnodes := List.Subset.trans (nodes_subset (mem_nodes_values values)) hs
    exact .entry hvisit hget (ih hnodes (hv.entry (List.mem_of_getElem? hget)))
  | @member members m v stop hm h ih =>
    intro hs hv
    have hnodes := List.Subset.trans
      (nodes_subset (mem_nodes_member (List.mem_of_find?_eq_some hm))) hs
    exact (ih hnodes hv).union hroot hm (hflat members (hs (mem_nodes_self _))) hnodes hv

/-- A place in a record is one along a record type of its name. -/
theorem WritesAt.of_record {s : Schema} {r : Record} {stop : Stop} (h : s.WritesAt (.record r) stop) :
    ∃ type, r.type.name.full = type.name.full ∧ Schema.record type ∈ s.nodes ∧
      (Schema.record type).WritesAt (.record r) stop := by
  generalize hv : Value.record r = v at h
  induction h with
  | @field type r' f v stop hn hf hget h _ =>
    cases hv
    exact ⟨type, hn, mem_nodes_self _, .field hn hf hget h⟩
  | member hm _ ih =>
    obtain ⟨type, hn, hnode, hat⟩ := ih hv
    exact ⟨type, hn, nodes_trans hnode (mem_nodes_member (List.mem_of_find?_eq_some hm)), hat⟩
  | _ => cases hv

/-- Along the own type of a record a walk comes to what the writer comes to along the schema. -/
theorem coveredAlong_of_flat {s : Schema} (hs : s.WellFormed) (hflat : s.Flat) {r : Record}
    (hr : (Value.record r).TypesIn s) : (Schema.record r.type).CoveredAlong s (.record r) := by
  intro stop hp
  obtain ⟨type, hn, hnode, hat⟩ := (writesAt_of_mem_places hp).of_record
  obtain rfl : r.type = type := hs.record_eq (hr r (Value.mem_parts_self _)) hnode hn
  exact .inr (mem_stops.mpr (hat.visitsAt hs hflat (nodes_subset hnode) hr))

theorem covered_of_flat {s : Schema} (hs : s.WellFormed) (hflat : s.Flat) {v : Value}
    (hv : v.TypesIn s) : s.Covered v :=
  fun _ hp => .inr (mem_stops.mpr
    ((writesAt_of_mem_places hp).visitsAt hs hflat (List.Subset.refl _) hv))

/-- **Encryption does its work exactly on the values that are covered.** Let a value be such that
it would be written if all marked texts in it were encrypted. For every cipher that answers for
every text, encrypting it succeeds, the result is written, and every text written under a tag is an
answer of the cipher or was encrypted before, if and only if the walk stops wherever the writer
puts out a tagged string that is not encrypted yet. If no union stands directly inside another, it
does. -/
theorem sealed_iff_covered {s : Schema} (hs : s.Parsed) {v : Value} (hv : v.TypesIn s)
    {bytes : List UInt8} (he : s.encode v.marked = .ok bytes) {index : FieldIndex}
    (hi : index.Reachable) :
    ((∀ leaf : Leaf, leaf.Total → s.Seals leaf v index) ↔ s.Covered v) ∧
      (s.Flat → s.Covered v) := by
  refine ⟨⟨fun h => ?_, fun hc leaf ht => hc.seals (writable_of_marked he) hi.sound ht⟩,
    fun hflat => covered_of_flat hs.wellFormed hflat hv⟩
  refine (h (fun _ text => .ok (text ++ "x")) fun _ text => ⟨_, rfl⟩).covered ?_ hi.sound
  intro n text ha
  have hlen := congrArg String.length (Except.ok.inj ha)
  simp at hlen

/-- An optional text beside an array of marked ones, of which one has been encrypted before. -/
theorem sealed_iff_covered_record :
    let type : RecordType := ⟨⟨"Card", none⟩, [⟨"owner", 0, .union [.null, .string (some .inline)]⟩,
      ⟨"notes", 1, .array (.string (some .typed))⟩]⟩
    let v : Value := .record ⟨type,
      [.string "ann", .array [.tagged (.plain "x"), .tagged (.encrypted "y")]]⟩
    (Schema.record type).Covered v ∧ (Schema.record type).Seals stamp v .empty ∧
      (Schema.record type).encode (Walk.run ⟨.encrypt, stamp⟩ (.record type) v .empty).value
        = .ok [2, 8, 65, 97, 110, 110, 4, 4, 66, 120, 2, 121, 0] := by
  intro type v
  have hs : (Schema.record type).Parsed :=
    ⟨.object [("fields", .array [
        .object [("name", .string "owner"), ("type", .array [.string "null", .object [
          ("logicalType", .string "inline-encrypted-string"), ("type", .string "string")]])],
        .object [("name", .string "notes"), ("type", .object [("items", .object [
          ("logicalType", .string "encrypted-string"), ("type", .string "string")]),
          ("type", .string "array")])]]),
      ("name", .string "Card"), ("type", .string "record")], by rfl⟩
  have hv : v.TypesIn (.record type) := by
    intro r hr
    have hr' : r = ⟨type,
        [.string "ann", .array [.tagged (.plain "x"), .tagged (.encrypted "y")]]⟩ := by
      simpa [v] using hr
    rw [hr']
    exact mem_nodes_self _
  have hflat : (Schema.record type).Flat := by
    simp [type, Flat, isUnion]
  have he : (Schema.record type).encode v.marked
      = .ok [2, 6, 97, 110, 110, 4, 2, 120, 2, 121, 0] := by rfl
  have h := sealed_iff_covered hs hv he .empty
  have hc := h.2 hflat
  exact ⟨hc, h.1.mpr hc stamp fun _ _ => ⟨_, rfl⟩, by rfl⟩

/-- One union deeper, the same text goes out as it stands: nothing is handed over, nothing fails,
and the six characters of it are the end of what is written. -/
theorem nested_union_not_sealed :
    let s : Schema := .union [.null, .union [.string (some .inline), .int]]
    let v : Value := .string "secret"
    let o := Walk.run ⟨.encrypt, stamp⟩ s v .empty
    s.Parsed ∧ v.TypesIn s ∧
      s.encode v.marked = .ok [2, 0, 12, 115, 101, 99, 114, 101, 116] ∧
      FieldIndex.empty.Reachable ∧ stamp.Total ∧
      o.trace.calls = [] ∧ o.failure = none ∧
      s.encode o.value = .ok [2, 0, 12, 115, 101, 99, 114, 101, 116] ∧
      ¬ s.Seals stamp v .empty := by
  intro s v o
  refine ⟨⟨.array [.string "null", .array [.object [
      ("logicalType", .string "inline-encrypted-string"), ("type", .string "string")],
      .string "int"]], by rfl⟩, ?_, by rfl, .empty, fun _ _ => ⟨_, rfl⟩, by rfl, by rfl, by rfl, ?_⟩
  · intro r hr
    simp [v] at hr
  · intro h
    obtain ⟨after, -, -, hsealed⟩ := exists_of_forall₂ h.texts
      (show (⟨[], .inline "secret"⟩ : Stop) ∈ s.places v by decide)
    have hcalls : (Walk.run ⟨.encrypt, stamp⟩ s v .empty).trace.calls = [] := by rfl
    rw [hcalls] at hsealed
    generalize after.slot = d at hsealed
    cases hsealed with
    | inline hc _ => simp at hc

end Schema

end FieldSeal
