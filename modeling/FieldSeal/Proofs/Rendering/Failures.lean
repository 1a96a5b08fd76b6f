import FieldSeal.Proofs.Schema.Nodes
import FieldSeal.Proofs.Value.Texts
import FieldSeal.Rendering.Write

/-!
# Where rendering fails

Whether a value can be written as JSON, and if not why, is a question that the document itself has
no part in. `failureOf` is the answer without the document, and for each of the loops of the writer
it is the first failure in a list (`failureOf_renderItems` and those after it), so that it can be
followed along a schema with no document in sight.

Two things come out of it that a writer of plain documents can rely on: texts are never at fault, so
a value can be written if any value of its shape can (`Schema.failureOf_mapTexts`), and the wire is
stricter (`Schema.failureOf_plain_of_wire`).
-/

set_option autoImplicit false

namespace FieldSeal

/-- The failure of a computation, if it has failed. -/
def failureOf {ε α : Type} : Except ε α → Option ε
  | .ok _ => none
  | .error e => some e

section

variable {ε α β : Type}

@[simp] theorem failureOf_ok (a : α) : failureOf (.ok a : Except ε α) = none := rfl

@[simp] theorem failureOf_error (e : ε) : failureOf (.error e : Except ε α) = some e := rfl

theorem failureOf_eq_none {x : Except ε α} : failureOf x = none ↔ ∃ a, x = .ok a := by
  cases x <;> simp

theorem failureOf_eq_some {x : Except ε α} {e : ε} : failureOf x = some e ↔ x = .error e := by
  cases x <;> simp

@[simp] theorem failureOf_map (f : α → β) (x : Except ε α) : failureOf (x.map f) = failureOf x := by
  cases x <;> rfl

/-- One computation and then another one that does not need it. -/
theorem failureOf_seq {γ : Type} (f : α → β → γ) (x : Except ε α) (y : Except ε β) :
    failureOf (do return f (← x) (← y)) = match failureOf x with
      | some e => some e
      | none => failureOf y := by
  cases x with
  | error e => rfl
  | ok a => cases y <;> rfl

end

/-! ## The loops of the writer -/

variable {rendering : Rendering}

theorem failureOf_renderItems (item : Value → Except Failure Json) (vs : List Value) :
    failureOf (renderItems item vs) = vs.findSome? fun v => failureOf (item v) := by
  induction vs with
  | nil => rfl
  | cons v rest ih =>
    rw [renderItems, failureOf_seq, ih, List.findSome?_cons]
    cases failureOf (item v) <;> rfl

theorem failureOf_renderEntries (value : Value → Except Failure Json)
    (es : List (String × Value)) :
    failureOf (renderEntries value es) = es.findSome? fun e => failureOf (value e.2) := by
  induction es with
  | nil => rfl
  | cons e rest ih =>
    obtain ⟨key, v⟩ := e
    rw [renderEntries, failureOf_seq fun j js => (key, j) :: js, ih, List.findSome?_cons]
    cases failureOf (value v) <;> rfl

/-- The failure of a field of a record. -/
def Field.failureIn (rendering : Rendering) (r : Record) (f : Field) : Option Failure :=
  match r.get? f.position with
  | some v => failureOf (f.schema.toJson rendering v)
  | none => some (.codec (.missingField f.name))

theorem failureOf_fieldsToJson (fields : List Field) (r : Record) :
    failureOf (fieldsToJson rendering fields r) = fields.findSome? (Field.failureIn rendering r) := by
  induction fields with
  | nil => rfl
  | cons f rest ih =>
    obtain ⟨name, position, schema⟩ := f
    rw [fieldsToJson, List.findSome?_cons, Field.failureIn]
    dsimp only
    cases r.get? position with
    | none => rfl
    | some v =>
      dsimp only
      rw [failureOf_seq fun j members => (name, j) :: members, ih]
      cases failureOf (schema.toJson rendering v) <;> rfl

theorem failureOf_memberToJson (members : List Schema) (v : Value) :
    failureOf (memberToJson rendering members v) =
      match members.find? (·.accepts v) with
      | some s => if s.isNull then none else failureOf (s.toJson rendering v)
      | none => some (.codec (.invalidUnionBranch v.kind)) := by
  induction members with
  | nil => rfl
  | cons s rest ih =>
    rw [memberToJson, List.find?_cons]
    cases s.accepts v with
    | false => exact ih
    | true =>
      dsimp only
      rw [if_pos rfl]
      split
      · rfl
      · exact failureOf_map _ _

theorem findSome?_congr {α β : Type} {f g : α → Option β} {l : List α} (h : ∀ a ∈ l, f a = g a) :
    l.findSome? f = l.findSome? g := by
  induction l with
  | nil => rfl
  | cons a rest ih =>
    obtain ⟨ha, hrest⟩ := List.forall_mem_cons.mp h
    rw [List.findSome?_cons, List.findSome?_cons, ha, ih hrest]

/-! ## Plain documents -/

/-- **No text keeps a value from being written as a plain document.** -/
theorem Schema.failureOf_mapTexts (f : String → String) (g : TaggedText → TaggedText) (s : Schema)
    (v : Value) : failureOf (s.toJson .plain (v.mapTexts f g)) = failureOf (s.toJson .plain v) := by
  induction s using Schema.induction generalizing v with
  | string tag =>
    cases tag with
    | none => cases v <;> rfl
    | some tag => cases tag <;> cases v <;> rfl
  | record type ih =>
    cases v with
    | record r =>
      obtain ⟨name, fields⟩ := type
      simp only [Value.mapTexts, toJson, RecordType.toJson, failureOf_map, Record.type_mapTexts]
      split
      · rw [failureOf_fieldsToJson, failureOf_fieldsToJson]
        apply findSome?_congr
        intro field hfield
        rw [Field.failureIn, Field.failureIn, Record.get?_mapTexts]
        cases r.get? field.position with
        | none => rfl
        | some v => exact ih field hfield v
      · rfl
    | _ => rfl
  | array items ih =>
    cases v with
    | array vs =>
      simp only [Value.mapTexts, mapTextsOfItems_eq_map, toJson, failureOf_map,
        failureOf_renderItems, List.findSome?_map]
      exact findSome?_congr fun v _ => ih v
    | _ => rfl
  | map values ih =>
    cases v with
    | map es =>
      simp only [Value.mapTexts, mapTextsOfEntries_eq_map, toJson, failureOf_map,
        failureOf_renderEntries, List.findSome?_map]
      exact findSome?_congr fun e _ => ih e.2
    | _ => rfl
  | union members ih =>
    rw [toJson, toJson, failureOf_memberToJson, failureOf_memberToJson, Value.kind_mapTexts]
    simp only [accepts_mapTexts]
    cases hfound : members.find? (·.accepts v) with
    | none => rfl
    | some s =>
      dsimp only
      rw [ih s (List.mem_of_find?_eq_some hfound)]
  | null | boolean | int | long | float | double | bytes | enum _ | fixed _ => cases v <;> rfl

/-- **What can be written on the wire can be written as a plain document.** -/
theorem Schema.failureOf_plain_of_wire {s : Schema} {v : Value}
    (h : failureOf (s.toJson .wire v) = none) : failureOf (s.toJson .plain v) = none := by
  induction s using Schema.induction generalizing v with
  | string tag =>
    cases tag with
    | none => exact h
    | some tag =>
      rw [toJson, failureOf_map] at h ⊢
      cases tag <;> cases v <;> first | rfl | cases h
  | record type ih =>
    cases v with
    | record r =>
      obtain ⟨name, fields⟩ := type
      rw [toJson, failureOf_map, RecordType.toJson] at h ⊢
      split at h
      next hname =>
        rw [if_pos hname, failureOf_fieldsToJson, List.findSome?_eq_none_iff]
        rw [failureOf_fieldsToJson, List.findSome?_eq_none_iff] at h
        intro field hfield
        have hwire := h field hfield
        rw [Field.failureIn] at hwire ⊢
        cases hget : r.get? field.position with
        | none =>
          rw [hget] at hwire
          cases hwire
        | some v =>
          rw [hget] at hwire
          exact ih field hfield hwire
      next => cases h
    | _ => cases h
  | array items ih =>
    cases v with
    | array vs =>
      rw [toJson, failureOf_map, failureOf_renderItems, List.findSome?_eq_none_iff] at h ⊢
      exact fun v hv => ih (h v hv)
    | _ => cases h
  | map values ih =>
    cases v with
    | map es =>
      rw [toJson, failureOf_map, failureOf_renderEntries, List.findSome?_eq_none_iff] at h ⊢
      exact fun e he => ih (h e he)
    | _ => cases h
  | union members ih =>
    rw [toJson, failureOf_memberToJson] at h ⊢
    cases hfound : members.find? (·.accepts v) with
    | none =>
      rw [hfound] at h
      cases h
    | some s =>
      rw [hfound] at h
      dsimp only at h ⊢
      split at h
      next hnull => rw [if_pos hnull]
      next hnull =>
        rw [if_neg hnull]
        exact ih s (List.mem_of_find?_eq_some hfound) h
  | null | boolean | int | long | float | double | bytes | enum _ | fixed _ => exact h

/-- A plain document can be written of any value with the shape of one that went onto the wire. -/
theorem Schema.exists_toJson_plain {s : Schema} {v w : Value} {j : Json} (hshape : w.shape = v.shape)
    (h : s.toJson .wire w = .ok j) : ∃ k, s.toJson .plain v = .ok k := by
  apply failureOf_eq_none.mp
  have hw := failureOf_plain_of_wire (failureOf_eq_none.mpr ⟨j, h⟩)
  have hsame : failureOf (s.toJson .plain w.shape) = failureOf (s.toJson .plain v.shape) := by
    rw [hshape]
  rw [failureOf_mapTexts, failureOf_mapTexts] at hsame
  rw [← hsame]
  exact hw

end FieldSeal
