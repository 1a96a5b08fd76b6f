import FieldSeal.Proofs.Faults
import FieldSeal.Proofs.Walk.Conformance
import FieldSeal.Proofs.Wire.Fitting

/-!
# The branch that a writer takes

A value does not say which member of a union it was read as. A writer takes the first member that
accepts it, and that need not be the one it was read as: two enums can have a symbol in common, two
fixed types a size. The value fits that member as well (`Schema.Fits.of_accepts`), because there is
nothing more to most values than what `Schema.accepts` looks at, and a record, of which it looks at
the name only, is told by its name from all other records of the schema. What is left are arrays and
maps, of which nothing at all is looked at; there the union may offer no more than one
(`Schema.Unambiguous`).

So a writer that goes through a value that fits its schema is at a place that the value fits all the
time. It can fail only for what is wrong with a single part by itself
(`LooksInOrder.eq_findSome?`).
-/

set_option autoImplicit false

namespace FieldSeal

open FieldSeal.Wire

namespace Schema

variable {root : Schema} {rendering : Rendering}

theorem accepts_array_nil {s : Schema} {vs : List Value} (h : s.accepts (.array vs) = true) :
    s.accepts (.array []) = true := by
  induction s using Schema.induction with
  | array => rfl
  | union members ih =>
    obtain ⟨m, hm, ha⟩ := membersAccept_eq_true.mp h
    exact membersAccept_eq_true.mpr ⟨m, hm, ih m hm ha⟩
  | string tag =>
    cases tag with
    | none => cases h
    | some tag => cases tag <;> cases h
  | _ => cases h

theorem accepts_map_nil {s : Schema} {es : List (String × Value)} (h : s.accepts (.map es) = true) :
    s.accepts (.map []) = true := by
  induction s using Schema.induction with
  | map => rfl
  | union members ih =>
    obtain ⟨m, hm, ha⟩ := membersAccept_eq_true.mp h
    exact membersAccept_eq_true.mpr ⟨m, hm, ih m hm ha⟩
  | string tag =>
    cases tag with
    | none => cases h
    | some tag => cases tag <;> cases h
  | _ => cases h

namespace Fits

/-- A record that fits somewhere fits its own type. -/
theorem own_type {s : Schema} {r : Record} (h : s.Fits rendering (.record r)) :
    (Schema.record r.type).Fits rendering (.record r) := by
  generalize hv : Value.record r = v at h ⊢
  induction h with
  | record length h =>
    cases hv
    exact .record length h
  | member _ _ ih => exact ih hv
  | _ => cases hv

/-- **What fits a node of the schema fits every node that accepts it**, if it is no array and no
map. -/
theorem of_accepts (hroot : root.WellFormed) {t m : Schema} {v : Value} (ht : t ∈ root.nodes)
    (h : t.Fits rendering v) (harray : ∀ vs, v ≠ .array vs) (hmap : ∀ es, v ≠ .map es)
    (hm : m ∈ root.nodes) (ha : m.accepts v = true) : m.Fits rendering v := by
  induction m using Schema.induction with
  | null => cases v <;> cases ha; exact .null
  | boolean => cases v <;> cases ha; exact .boolean _
  | int => cases v <;> cases ha; exact .int _
  | long => cases v <;> cases ha; exact .long _
  | float => cases v <;> cases ha; exact .float _
  | double => cases v <;> cases ha; exact .double _
  | bytes => cases v <;> cases ha; exact .bytes _
  | string tag =>
    cases tag with
    | none => cases v <;> cases ha; exact .string _
    | some tag =>
      cases tag with
      | inline => cases v <;> cases ha; exact .inline _
      | typed =>
        cases v with
        | tagged text =>
          rw [h.mark_eq]
          exact .typed text.text
        | _ => cases ha
  | record type ih =>
    cases v with
    | record r =>
      -- The name is one of two nodes, and so it is one definition.
      have hname : r.type.name.full = type.name.full := by simpa [Schema.accepts] using ha
      rw [← hroot.record_eq (nodes_trans h.type_mem_nodes ht) hm hname]
      exact h.own_type
    | _ => cases ha
  | array items ih =>
    cases v with
    | array vs => exact absurd rfl (harray vs)
    | _ => cases ha
  | map values ih =>
    cases v with
    | map es => exact absurd rfl (hmap es)
    | _ => cases ha
  | union members ih =>
    obtain ⟨m, hmem, ha⟩ := membersAccept_eq_true.mp ha
    exact .member hmem (ih m hmem (nodes_trans (mem_nodes_member hmem) hm) ha)
  | enum type =>
    cases v with
    | enum symbol => exact .enum (by simpa [Schema.accepts] using ha)
    | _ => cases ha
  | fixed type =>
    cases v with
    | fixed data => exact .fixed (by simpa [Schema.accepts] using ha)
    | _ => cases ha

/-- **The member that a writer takes is one that the value fits.** -/
theorem chosen (hroot : root.WellFormed) (hu : root.Unambiguous) {members : List Schema} {v : Value}
    (hs : Schema.union members ∈ root.nodes) (h : (Schema.union members).Fits rendering v) :
    ∃ m ∈ members, members.find? (·.accepts v) = some m ∧ m.Fits rendering v := by
  cases h with
  | @member _ t _ ht hfits =>
    have hfound : (members.find? (·.accepts v)).isSome = true :=
      List.find?_isSome.mpr ⟨t, ht, hfits.accepts⟩
    obtain ⟨m, hm⟩ := Option.isSome_iff_exists.mp hfound
    have hmem := List.mem_of_find?_eq_some hm
    have haccepts : m.accepts v = true := by simpa using List.find?_some hm
    refine ⟨m, hmem, hm, ?_⟩
    have hnode : ∀ x ∈ members, x ∈ root.nodes := fun x hx => nodes_trans (mem_nodes_member hx) hs
    cases v with
    | array vs =>
      have hsame : m = t := hu members hs _ (.inl rfl) m hmem t ht (accepts_array_nil haccepts)
        (accepts_array_nil hfits.accepts)
      rwa [hsame]
    | map es =>
      have hsame : m = t := hu members hs _ (.inr rfl) m hmem t ht (accepts_map_nil haccepts)
        (accepts_map_nil hfits.accepts)
      rwa [hsame]
    | _ =>
      exact of_accepts hroot (hnode t ht) hfits (fun _ => by simp) (fun _ => by simp)
        (hnode m hmem) haccepts

end Fits

end Schema

/-! ## Writers and values that fit -/

/-- Two lists that have the same at each index come to the same. -/
theorem findSome?_congr_index {α β γ : Type} {f : α → Option γ} {g : β → Option γ} {as : List α}
    {bs : List β} (hlength : as.length = bs.length)
    (h : ∀ (i : Nat) (a : α) (b : β), as[i]? = some a → bs[i]? = some b → f a = g b) :
    as.findSome? f = bs.findSome? g := by
  induction as generalizing bs with
  | nil =>
    rw [List.length_eq_zero_iff.mp hlength.symm]
    rfl
  | cons a as ih =>
    cases bs with
    | nil => simp at hlength
    | cons b bs =>
      have hothers := ih (by simpa using hlength) fun i => h (i + 1)
      rw [List.findSome?_cons, List.findSome?_cons, h 0 a b rfl rfl, hothers]

section

variable {root : Schema} {rendering : Rendering} {check : Value → Option Failure}
  {failure : Schema → Value → Option Failure}

theorem findSome?_partsOfItems (vs : List Value) :
    (partsOfItems vs).findSome? check = vs.findSome? fun v => v.parts.findSome? check := by
  induction vs with
  | nil => rfl
  | cons v rest ih =>
    rw [partsOfItems, List.findSome?_append, ih, List.findSome?_cons]
    cases v.parts.findSome? check <;> rfl

theorem findSome?_partsOfEntries (es : List (String × Value)) :
    (partsOfEntries es).findSome? check = es.findSome? fun e => e.2.parts.findSome? check := by
  induction es with
  | nil => rfl
  | cons e rest ih =>
    obtain ⟨key, v⟩ := e
    rw [partsOfEntries, List.findSome?_append, ih, List.findSome?_cons]
    cases v.parts.findSome? check <;> rfl

/-- Whether the value is of a kind that has no parts. -/
def Value.isSingle : Value → Bool
  | .record _ => false
  | .array _ => false
  | .map _ => false
  | _ => true

theorem Schema.Fits.parts_eq {s : Schema} {v : Value} (h : s.Fits rendering v)
    (hinto : s.looksInto v = false) : v.parts = [v] := by
  cases h <;> first | rfl | cases hinto

/-- **A value that fits fails for what is wrong with one of its parts by itself**, and for the first
such part, in a writer that goes through it in order. -/
theorem LooksInOrder.eq_findSome? (h : LooksInOrder failure)
    (hleaf : ∀ s v, s.Fits rendering v → s.looksInto v = false → failure s v = check v)
    (hinner : ∀ v, v.isSingle = false → check v = none)
    (hroot : root.WellFormed) (hu : root.Unambiguous) {s : Schema} {v : Value}
    (hs : s ∈ root.nodes) (hv : s.Fits rendering v) : failure s v = v.parts.findSome? check := by
  have hsingle : ∀ s v, s.Fits rendering v → s.looksInto v = false →
      failure s v = v.parts.findSome? check := by
    intro s v hv hinto
    rw [hleaf s v hv hinto, hv.parts_eq hinto]
    cases hc : check v <;> simp [hc]
  induction s using Schema.induction generalizing v with
  | record type ih =>
    cases hv with
    | @record _ fields hlength hfields =>
      have hname : (Schema.record type).refusal? (.record ⟨type, fields⟩) = none := by
        simp [Schema.refusal?, Schema.accepts]
      rw [h.record, hname, Option.none_or, Value.parts, Record.parts, List.findSome?_cons,
        hinner _ rfl, findSome?_partsOfItems]
      -- The field at an index is the one that stands at that position.
      apply findSome?_congr_index hlength.symm
      intro i f v hf hv
      have hposition : f.position = i := hroot.positioned type hs i f hf
      have hget : (⟨type, fields⟩ : Record).get? f.position = some v := by
        rw [Record.get?, hposition]
        exact hv
      have hmem := List.mem_of_getElem? hf
      rw [hget]
      exact ih f hmem (Schema.nodes_trans (Schema.mem_nodes_field hmem) hs) (hfields i f v hf hv)
  | array items ih =>
    cases hv with
    | @array _ vs hitems =>
      rw [h.array, Value.parts, List.findSome?_cons, hinner _ rfl, findSome?_partsOfItems]
      have hnode := Schema.nodes_trans (Schema.mem_nodes_items items) hs
      exact findSome?_congr fun v hmem => ih hnode (hitems v hmem)
  | map values ih =>
    cases hv with
    | @map _ es _ hentries =>
      rw [h.map, Value.parts, List.findSome?_cons, hinner _ rfl, findSome?_partsOfEntries]
      have hnode := Schema.nodes_trans (Schema.mem_nodes_values values) hs
      exact findSome?_congr fun e hmem => ih hnode (hentries e hmem)
  | union members ih =>
    obtain ⟨m, hmem, hfound, hfits⟩ := hv.chosen hroot hu hs
    rw [h.union, hfound]
    exact ih m hmem (Schema.nodes_trans (Schema.mem_nodes_member hmem) hs) hfits
  | _ => exact hsingle _ _ hv (by cases v <;> rfl)

end

end FieldSeal
