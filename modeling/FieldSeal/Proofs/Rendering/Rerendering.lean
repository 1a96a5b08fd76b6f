import FieldSeal.Proofs.Document
import FieldSeal.Proofs.Value.Branches
import FieldSeal.Proofs.Walk.Coverage
import Mathlib.Data.List.Nodup

/-!
# What was read from JSON can be written again, or is infinite

A document that has been read is not kept. What is written for the value has the members that the
record declares and no others, the branches that the writer takes, and numbers in the form of their
format; but it is read as the same value. For that the writer must not fail, and a value that fits
its schema gives it one reason only: a number without JSON (`Schema.Fits.failureOf_toJson`).

There are no such numbers in a document. A 64-bit place takes its numbers over, or rounds integers,
which are far from infinity (`Schema.isFinite_of_fromJson`). A 32-bit place rounds, and says nothing
when the result is infinite: `1e300` is read there, and cannot be written.
-/

set_option autoImplicit false

namespace FieldSeal

open FieldSeal.Ieee

variable {rendering : Rendering}

/-! ## Numbers of documents -/

@[simp] theorem Json.Number.isFinite_toBinary64 (n : Json.Number) :
    n.toBinary64.isFinite = true := by
  cases n with
  | integer n lower upper => exact Binary64.isFinite_ofInt (by omega)
  | double x finite => exact finite

namespace Schema

/-- **Where the schema has a 64-bit number, what was read is finite.** -/
theorem isFinite_of_fromJson {s : Schema} {j : Json} {v : Value} (hj : j.Ordered)
    (h : s.fromJson rendering j = .ok v) {x : Binary64} (hx : Value.double x ∈ v.parts) :
    x.isFinite = true := by
  induction s using Schema.induction generalizing j v with
  | double =>
    cases j with
    | number n =>
      cases h
      have hread : x = n.toBinary64 := by simpa using hx
      rw [hread]
      exact n.isFinite_toBinary64
    | _ => cases h
  | record type ih =>
    cases j with
    | object members =>
      obtain ⟨r, hr, rfl⟩ := map_eq_ok.mp h
      obtain ⟨name, fields⟩ := type
      obtain ⟨vs, hvs, hr⟩ := bind_eq_ok.mp hr
      cases hr
      obtain ⟨hlength, hfields⟩ := getElem?_of_fieldsFromJson hvs
      have hsame : vs.length = (RecordType.mk name fields).fields.length := hlength
      simp only [Value.parts, Record.parts, List.mem_cons, reduceCtorEq, mem_partsOfItems,
        false_or] at hx
      obtain ⟨v, hv, hx⟩ := hx
      obtain ⟨i, f, hmem, hf, hi⟩ := Fits.exists_field hsame hv
      obtain ⟨j, hget, hread⟩ := hfields i f v hf hi
      exact ih f hmem (hj.member hget) hread hx
    | _ => cases h
  | array items ih =>
    cases j with
    | array js =>
      obtain ⟨vs, hvs, rfl⟩ := map_eq_ok.mp h
      rw [Json.Ordered, Json.orderedItems_iff] at hj
      simp only [Value.parts, List.mem_cons, reduceCtorEq, mem_partsOfItems, false_or] at hx
      obtain ⟨v, hv, hx⟩ := hx
      obtain ⟨j, hmem, hread⟩ := mem_of_readItems hvs v hv
      exact ih (hj j hmem) hread hx
    | _ => cases h
  | map values ih =>
    cases j with
    | object members =>
      obtain ⟨es, hes, rfl⟩ := map_eq_ok.mp h
      rw [Json.Ordered, Json.orderedMembers_iff] at hj
      simp only [Value.parts, List.mem_cons, reduceCtorEq, mem_partsOfEntries, false_or] at hx
      obtain ⟨e, he, hx⟩ := hx
      obtain ⟨e', he', hread⟩ := (mem_of_readEntries hes).2 e he
      exact ih (hj.2 e' he') hread hx
    | _ => cases h
  | union members ih =>
    unfold Schema.fromJson at h
    split at h
    · split at h
      · cases h
        simp at hx
      · cases h
    next branch inner =>
      rw [Json.Ordered, Json.orderedMembers_iff] at hj
      obtain ⟨m, hm, hread⟩ := mem_of_memberFromJson h
      exact ih m hm (hj.2 _ List.mem_cons_self) hread hx
    next => cases h
  | _ =>
    -- Nothing that is read here is a 64-bit number.
    have hfits := fits_of_fromJson hj h
    rw [hfits.parts_eq (by cases v <;> rfl), List.mem_singleton] at hx
    rw [← hx] at hfits
    cases hfits

end Schema

/-! ## The one reason for a failure -/

/-- What the writer of documents has against a value by itself. -/
def Value.numberFailure : Value → Option Failure
  | .float x => failureOf (renderNumber x.widen)
  | .double x => failureOf (renderNumber x)
  | _ => none

theorem failureOf_renderNumber_eq_some {x : Binary64} {e : Failure} :
    failureOf (renderNumber x) = some e ↔
      x.isFinite = false ∧ e = .codec (.nonFinite (nonFiniteName x)) := by
  cases hx : x.isFinite with
  | true => simp [failureOf_renderNumber hx]
  | false =>
    rw [renderNumber, Json.Number.ofBinary64?, dif_neg (by simp [hx])]
    simp [eq_comm]

theorem Value.numberFailure_float {x : Binary32} {e : Failure} :
    (Value.float x).numberFailure = some e ↔
      x.isFinite = false ∧ e = .codec (.nonFinite (nonFiniteName x.widen)) := by
  have hwiden : x.widen.isFinite = x.isFinite :=
    Bool.eq_iff_iff.mpr ⟨Binary32.isFinite_of_widen, Binary32.isFinite_widen⟩
  rw [numberFailure, failureOf_renderNumber_eq_some, hwiden]

namespace Schema

/-- At a node that it does not look into, the writer takes all that fits but numbers that are not
finite. -/
theorem Fits.failureOf_toJson_leaf {s : Schema} {v : Value} (h : s.Fits rendering v)
    (hinto : s.looksInto v = false) : failureOf (s.toJson rendering v) = v.numberFailure := by
  cases h with
  | enum h => simp [toJson, h, Value.numberFailure]
  | fixed h => simp [toJson, h, Value.numberFailure]
  | inline | typed => cases rendering <;> rfl
  | record | array | map | member => cases hinto
  | _ => rfl

/-- **A value that fits fails for its first number that is not finite**, and otherwise not at all. -/
theorem Fits.failureOf_toJson {s : Schema} (hs : s.WellFormed) (hu : s.Unambiguous) {v : Value}
    (h : s.Fits rendering v) :
    failureOf (s.toJson rendering v) = v.parts.findSome? Value.numberFailure := by
  apply (looksInOrder_toJson rendering).eq_findSome? _ _ hs hu s.mem_nodes_self h
  · intro t x hx hinto
    exact hx.failureOf_toJson_leaf hinto
  · intro x hx
    cases x <;> first | rfl | cases hx

/-! ## Documents and documents again -/

/-- Of members with names of their own that are no unions, one at most takes arrays and one at most
takes maps. -/
theorem unambiguous_of_flat {s : Schema} (hn : s.NamesApart) (hf : s.Flat) : s.Unambiguous := by
  intro members hmembers v hv m hm m' hm' ha ha'
  have hname : ∀ m : Schema, m.isUnion = false → m.accepts v = true → m.typeName = v.kind := by
    intro m hm ha
    rcases hv with rfl | rfl
    · rw [accepts_array hm] at ha
      cases m <;> first | rfl | cases ha
    · rw [accepts_map hm] at ha
      cases m <;> first | rfl | cases ha
  have hflat := hf members hmembers
  apply List.inj_on_of_nodup_map (hn members hmembers) hm hm'
  rw [hname m (hflat m hm) ha, hname m' (hflat m' hm') ha']

/-- What the writer has something against in a value that was read is a 32-bit number. -/
theorem float_of_numberFailure {s : Schema} {j : Json} (hj : j.Ordered) {v : Value}
    (h : s.fromJson rendering j = .ok v) {u : Value} (hu : u ∈ v.parts) {e : Failure}
    (he : u.numberFailure = some e) : ∃ x, u = .float x ∧ x.isFinite = false ∧
      e = .codec (.nonFinite (nonFiniteName x.widen)) := by
  cases u with
  | float x => exact ⟨x, rfl, Value.numberFailure_float.mp he⟩
  | double x =>
    rw [Value.numberFailure, failureOf_renderNumber (isFinite_of_fromJson hj h hu)] at he
    cases he
  | _ => cases he

/-- **What was read is written again exactly when all 32-bit numbers in it are finite**, and what is
written is read as the same value. The members of each union have names of their own and are no
unions. A failure is for a 32-bit number that is not finite, and has its name. -/
theorem toJson_fromJson {s : Schema} (hs : s.Parsed) (hn : s.NamesApart) (hf : s.Flat) {j : Json}
    (hj : j.Ordered) {v : Value} (h : s.fromJson rendering j = .ok v) :
    ((∃ again, s.toJson rendering v = .ok again) ↔
      ∀ x, Value.float x ∈ v.parts → x.isFinite = true) ∧
    (∀ again, s.toJson rendering v = .ok again → s.fromJson rendering again = .ok v) ∧
    ∀ e, s.toJson rendering v = .error e → ∃ x, Value.float x ∈ v.parts ∧ x.isFinite = false ∧
      e = .codec (.nonFinite (nonFiniteName x.widen)) := by
  have hv := fits_of_fromJson hj h
  have hfailure := hv.failureOf_toJson hs.wellFormed (unambiguous_of_flat hn hf)
  refine ⟨?_, ?_, ?_⟩
  · rw [← failureOf_eq_none, hfailure, List.findSome?_eq_none_iff]
    constructor
    · intro hnone x hx
      cases hfinite : x.isFinite with
      | true => rfl
      | false =>
        have hfailed := Value.numberFailure_float.mpr ⟨hfinite, rfl⟩
        rw [hnone _ hx] at hfailed
        cases hfailed
    · intro hfinite u hu
      cases hfailed : u.numberFailure with
      | none => rfl
      | some e =>
        obtain ⟨x, rfl, hx, -⟩ := float_of_numberFailure hj h hu hfailed
        rw [hfinite x hu] at hx
        cases hx
  · intro again hagain
    rw [fromJson_toJson hs.wellFormed hn hv.regular hv.typesIn hagain, hv.remark_eq]
  · intro e he
    rw [← failureOf_eq_some, hfailure] at he
    obtain ⟨u, hu, he⟩ := List.exists_of_findSome?_eq_some he
    obtain ⟨x, rfl, hx, he⟩ := float_of_numberFailure hj h hu he
    exact ⟨x, hu, hx, he⟩

/-- An integer at a 64-bit place, a number that a 32-bit place rounds, a symbol under the second of
two enums that have it, and a member that the record does not declare. -/
theorem toJson_fromJson_sample :
    let type : RecordType := ⟨⟨"Sample", none⟩, [⟨"id", 0, .double⟩,
      ⟨"kind", 1, .union [.enum ⟨⟨"A", none⟩, ["x"]⟩, .enum ⟨⟨"B", none⟩, ["y", "x"]⟩]⟩,
      ⟨"weight", 2, .float⟩]⟩
    let v : Value := .record ⟨type, [.double ⟨0x4008000000000000⟩, .enum "x", .float ⟨0x3f800000⟩]⟩
    let j : Json := .object [("id", .number (.integer 3 (by decide) (by decide))),
      ("kind", .object [("B", .string "x")]), ("other", .null),
      ("weight", .number (.double ⟨0x3ff0000000000001⟩ (by decide)))]
    (Schema.record type).Parsed ∧ (Schema.record type).NamesApart ∧ (Schema.record type).Flat ∧
      j.Ordered ∧ (Schema.record type).fromJson .plain j = .ok v ∧
      (∀ x, Value.float x ∈ v.parts → x.isFinite = true) ∧
      ∃ again, (Schema.record type).toJson .plain v = .ok again ∧
        (Schema.record type).fromJson .plain again = .ok v := by
  intro type v j
  have hparsed : (Schema.record type).Parsed :=
    ⟨.object [("fields", .array [
        .object [("name", .string "id"), ("type", .string "double")],
        .object [("name", .string "kind"), ("type", .array [
          .object [("name", .string "A"), ("symbols", .array [.string "x"]),
            ("type", .string "enum")],
          .object [("name", .string "B"), ("symbols", .array [.string "y", .string "x"]),
            ("type", .string "enum")]])],
        .object [("name", .string "weight"), ("type", .string "float")]]),
      ("name", .string "Sample"), ("type", .string "record")], by rfl⟩
  have hmembers : ∀ members, Schema.union members ∈ (Schema.record type).nodes →
      members = [.enum ⟨⟨"A", none⟩, ["x"]⟩, .enum ⟨⟨"B", none⟩, ["y", "x"]⟩] := by
    intro members hm
    simpa [type] using hm
  have hn : (Schema.record type).NamesApart := by
    intro members hm
    rw [hmembers members hm]
    decide
  have hf : (Schema.record type).Flat := by
    intro members hm m hmem
    rw [hmembers members hm] at hmem
    rcases List.mem_pair.mp hmem with rfl | rfl <;> rfl
  have hkeys : ["id", "kind", "other", "weight"].Pairwise (· < ·) := by decide
  have hj : j.Ordered :=
    ⟨List.pairwise_map.mp hkeys, trivial, ⟨List.pairwise_singleton _ _, trivial, trivial⟩, trivial,
      trivial, trivial⟩
  have hid : Binary64.ofInt 3 = ⟨0x4008000000000000⟩ := by decide +kernel
  have hweight : Binary64.narrow ⟨0x3ff0000000000001⟩ = ⟨0x3f800000⟩ := by decide +kernel
  have hread : (Schema.record type).fromJson .plain j = .ok v := by
    show Except.ok (Value.record ⟨type, [.double (.ofInt 3), .enum "x",
      .float (Binary64.narrow ⟨0x3ff0000000000001⟩)]⟩) = _
    rw [hid, hweight]
  have hfinite : ∀ x, Value.float x ∈ v.parts → x.isFinite = true := by
    intro x hx
    obtain rfl : x = ⟨0x3f800000⟩ := by
      simpa [v] using hx
    decide
  obtain ⟨hiff, hagain, -⟩ := toJson_fromJson hparsed hn hf hj hread
  obtain ⟨again, hwritten⟩ := hiff.mpr hfinite
  exact ⟨hparsed, hn, hf, hj, hread, hfinite, again, hwritten, hagain again hwritten⟩

/-- A number in range of 64 bits at a 32-bit place: it is read as infinity, for which there is no
JSON. -/
theorem infinite_not_rerendered :
    let j : Json := .number (.double ⟨0x7e37e43c8800759c⟩ (by decide))
    Schema.float.Parsed ∧ Schema.float.NamesApart ∧ Schema.float.Flat ∧ j.Ordered ∧
      Schema.float.fromJson .plain j = .ok (.float ⟨0x7f800000⟩) ∧
      Schema.float.toJson .plain (.float ⟨0x7f800000⟩) = .error (.codec (.nonFinite "inf")) := by
  intro j
  have hnarrow : Binary64.narrow ⟨0x7e37e43c8800759c⟩ = ⟨0x7f800000⟩ := by decide +kernel
  have hread : Schema.float.fromJson .plain j = .ok (.float ⟨0x7f800000⟩) := by
    show Except.ok (Value.float (Binary64.narrow ⟨0x7e37e43c8800759c⟩)) = _
    rw [hnarrow]
  refine ⟨⟨.string "float", by rfl⟩, ?_, ?_, trivial, hread, by rfl⟩
  · intro members hm
    simp at hm
  · intro members hm
    simp at hm

end Schema

end FieldSeal
