import FieldSeal.Proofs.Ieee.Widening
import FieldSeal.Proofs.Rendering.Failures
import FieldSeal.Proofs.Value.Parts
import FieldSeal.Proofs.Wire.Emission

/-!
# What keeps a value from being written

There are two wires, bytes and JSON, and each has a writer that checks values while it writes them.
`Schema.faults` is that check without a writer: everything in a value that does not go with the
schema, in the order in which a writer comes to it, with the path to it and the error it is. At a
single node there is one question, `Schema.refusal?`, and `Schema.FaultsAt` are the rules that lead
to the nodes.

A writer that checks in order (`ChecksInOrder`) fails with the first fault and only then, and both
writers are of that kind (`checksInOrder_write`, `checksInOrder_toJson`). So neither lets anything
through that the other refuses, but for one thing: JSON has no way to write a number that is not
finite, and that is why `ChecksInOrder` asks about finite numbers only.
-/

set_option autoImplicit false

namespace FieldSeal

open FieldSeal.Wire

/-- Something in a value that keeps it from being written: where it is, and what is wrong. -/
structure Fault where
  path : Path
  cause : Failure
deriving DecidableEq, Repr

namespace Fault

/-- The fault in a part that stands at an index of its container. -/
def under (i : Nat) (fault : Fault) : Fault := { fault with path := i :: fault.path }

/-- The cause of the first fault of a list, which is the one that a writer reports. -/
def firstCause (faults : List Fault) : Option Failure := faults.head?.map cause

@[simp] theorem firstCause_append (a b : List Fault) :
    firstCause (a ++ b) = (firstCause a).or (firstCause b) := by
  cases a <;> simp [firstCause]

theorem firstCause_eq_some {faults : List Fault} {e : Failure} :
    firstCause faults = some e ↔ ∃ fault rest, faults = fault :: rest ∧ fault.cause = e := by
  cases faults <;> simp [firstCause]

@[simp] theorem firstCause_under (i : Nat) (faults : List Fault) :
    firstCause (faults.map (.under i)) = firstCause faults := by
  cases faults <;> rfl

end Fault

/-! ## The check -/

/-- What is wrong with a value at a node of the schema, by a look at the value and not into it. -/
def Schema.refusal? (s : Schema) (v : Value) : Option Failure :=
  match s, v with
  | .string (some tag), v =>
    match tag.toWire v with
    | .ok _ => none
    | .error e => some (.schema e)
  | .union members, v =>
    if membersAccept members v then none else some (.codec (.invalidUnionBranch v.kind))
  | .enum type, .enum symbol =>
    if type.symbols.contains symbol then none else some (.codec (.unknownSymbol symbol))
  | s, v => if s.accepts v then none else some (s.mismatch v)

/-- The fault that a value is at its node, if it is one. -/
def Schema.faultsHere (s : Schema) (v : Value) : List Fault :=
  ((s.refusal? v).map fun cause => Fault.mk [] cause).toList

/-- The faults of the parts of a container, each under its index. -/
def faultsOfAll {α : Type} (part : α → List Fault) (as : List α) : List Fault :=
  as.zipIdx.flatMap fun (a, i) => (part a).map (.under i)

mutual

/-- Everything that keeps a value from being written, in the order in which writers come to it. -/
def Schema.faults : Schema → Value → List Fault
  | .record type, .record r => (Schema.record type).faultsHere (.record r) ++ type.faults r
  | .array items, .array vs => faultsOfAll items.faults vs
  | .map values, .map es => faultsOfAll (fun e => values.faults e.2) es
  | .union members, v => (Schema.union members).faultsHere v ++ faultsOfMember members v
  | s, v => s.faultsHere v

def RecordType.faults : RecordType → Record → List Fault
  | ⟨_, fields⟩, r => faultsOfFields fields r

/-- The faults of the fields; a field that the record does not have is one. -/
def faultsOfFields : List Field → Record → List Fault
  | [], _ => []
  | ⟨name, position, schema⟩ :: rest, r =>
    (match r.get? position with
      | some v => (schema.faults v).map (.under position)
      | none => [⟨[position], .codec (.missingField name)⟩]) ++ faultsOfFields rest r

/-- The faults of a value under the first member that accepts it. -/
def faultsOfMember : List Schema → Value → List Fault
  | [], _ => []
  | s :: rest, v => if s.accepts v then s.faults v else faultsOfMember rest v

end

/-- Whether a writer for the schema goes on to the parts of the value, or to a member of a union. -/
def Schema.looksInto : Schema → Value → Bool
  | .record _, .record _ => true
  | .array _, .array _ => true
  | .map _, .map _ => true
  | .union _, _ => true
  | _, _ => false

theorem Schema.faults_of_looksInto {s : Schema} {v : Value} (h : s.looksInto v = false) :
    s.faults v = s.faultsHere v := by
  cases s with
  | record _ | array _ | map _ => cases v <;> simp [looksInto] at h <;> simp [faults]
  | union _ => simp [looksInto] at h
  | _ => rw [faults] <;> simp

/-! ## Rules for the way to a fault -/

/-- A writer of the value would find the fault, if it went on after the faults before. -/
inductive Schema.FaultsAt : Schema → Value → Fault → Prop
  | here {s : Schema} {v : Value} {cause : Failure} (h : s.refusal? v = some cause) :
      FaultsAt s v ⟨[], cause⟩
  | missing {type : RecordType} {r : Record} {f : Field} (hf : f ∈ type.fields)
      (hn : r.get? f.position = none) :
      FaultsAt (.record type) (.record r) ⟨[f.position], .codec (.missingField f.name)⟩
  | field {type : RecordType} {r : Record} {f : Field} {v : Value} {fault : Fault}
      (hf : f ∈ type.fields) (hv : r.get? f.position = some v) (h : FaultsAt f.schema v fault) :
      FaultsAt (.record type) (.record r) (fault.under f.position)
  | item {items : Schema} {vs : List Value} {i : Nat} {v : Value} {fault : Fault}
      (hv : vs[i]? = some v) (h : FaultsAt items v fault) :
      FaultsAt (.array items) (.array vs) (fault.under i)
  | entry {values : Schema} {es : List (String × Value)} {i : Nat} {e : String × Value}
      {fault : Fault} (he : es[i]? = some e) (h : FaultsAt values e.2 fault) :
      FaultsAt (.map values) (.map es) (fault.under i)
  | member {members : List Schema} {m : Schema} {v : Value} {fault : Fault}
      (hm : members.find? (·.accepts v) = some m) (h : FaultsAt m v fault) :
      FaultsAt (.union members) v fault

theorem Schema.mem_faultsHere {s : Schema} {v : Value} {fault : Fault} :
    fault ∈ s.faultsHere v ↔ ∃ cause, s.refusal? v = some cause ∧ ⟨[], cause⟩ = fault := by
  rw [faultsHere, Option.mem_toList, Option.map_eq_some_iff]

theorem Schema.FaultsAt.of_mem_here {s : Schema} {v : Value} {fault : Fault}
    (h : fault ∈ s.faultsHere v) : s.FaultsAt v fault := by
  obtain ⟨cause, hc, rfl⟩ := mem_faultsHere.mp h
  exact .here hc

/-- What is wrong with the value itself is among the faults. -/
theorem Schema.faultsHere_subset (s : Schema) (v : Value) : s.faultsHere v ⊆ s.faults v := by
  by_cases h : s.looksInto v = true
  · cases s with
    | record type =>
      cases v with
      | record r =>
        rw [faults]
        exact List.subset_append_left _ _
      | _ => simp [looksInto] at h
    | array items =>
      cases v with
      | array vs => simp [faultsHere, refusal?, accepts]
      | _ => simp [looksInto] at h
    | map values =>
      cases v with
      | map es => simp [faultsHere, refusal?, accepts]
      | _ => simp [looksInto] at h
    | union members =>
      rw [faults]
      exact List.subset_append_left _ _
    | _ => simp [looksInto] at h
  · rw [faults_of_looksInto (by simpa using h)]
    exact List.Subset.refl _

theorem mem_faultsOfAll {α : Type} {part : α → List Fault} {as : List α} {fault : Fault} :
    fault ∈ faultsOfAll part as ↔
      ∃ (i : Nat) (a : α), as[i]? = some a ∧ ∃ inner ∈ part a, fault = inner.under i := by
  rw [faultsOfAll, List.mem_flatMap]
  constructor
  · intro ⟨⟨a, i⟩, ha, hm⟩
    obtain ⟨inner, hi, he⟩ := List.mem_map.mp hm
    exact ⟨i, a, List.mem_zipIdx_iff_getElem?.mp ha, inner, hi, he.symm⟩
  · intro ⟨i, a, ha, inner, hi, he⟩
    exact ⟨(a, i), List.mem_zipIdx_iff_getElem?.mpr ha, List.mem_map.mpr ⟨inner, hi, he.symm⟩⟩

theorem mem_faultsOfFields {fields : List Field} {r : Record} {fault : Fault} :
    fault ∈ faultsOfFields fields r ↔ ∃ f ∈ fields,
      (r.get? f.position = none ∧ fault = ⟨[f.position], .codec (.missingField f.name)⟩) ∨
      ∃ v, r.get? f.position = some v ∧ ∃ inner ∈ f.schema.faults v,
        fault = inner.under f.position := by
  induction fields with
  | nil => simp [faultsOfFields]
  | cons f rest ih =>
    obtain ⟨name, position, schema⟩ := f
    rw [faultsOfFields, List.mem_append, ih]
    simp only [List.mem_cons, exists_eq_or_imp]
    refine or_congr ?_ Iff.rfl
    cases r.get? position with
    | none => simp
    | some v => simp [eq_comm]

theorem faultsOfMember_eq (members : List Schema) (v : Value) :
    faultsOfMember members v =
      match members.find? (·.accepts v) with
      | some s => s.faults v
      | none => [] := by
  induction members with
  | nil => simp [faultsOfMember]
  | cons s rest ih =>
    rw [faultsOfMember, List.find?_cons]
    cases s.accepts v with
    | false => exact ih
    | true => rfl

/-- **The faults are what the rules lead to.** -/
theorem Schema.mem_faults {s : Schema} {v : Value} {fault : Fault} :
    fault ∈ s.faults v ↔ s.FaultsAt v fault := by
  constructor
  · intro h
    induction s using Schema.induction generalizing v fault with
    | record type ih =>
      cases v with
      | record r =>
        obtain ⟨name, fields⟩ := type
        rw [faults, List.mem_append, RecordType.faults, mem_faultsOfFields] at h
        rcases h with h | ⟨f, hf, ⟨hn, rfl⟩ | ⟨v, hv, inner, hi, rfl⟩⟩
        · exact .of_mem_here h
        · exact .missing hf hn
        · exact .field hf hv (ih f hf hi)
      | _ => exact .of_mem_here (by rwa [faults_of_looksInto rfl] at h)
    | array items ih =>
      cases v with
      | array vs =>
        obtain ⟨i, v, hv, inner, hi, rfl⟩ := mem_faultsOfAll.mp h
        exact .item hv (ih hi)
      | _ => exact .of_mem_here (by rwa [faults_of_looksInto rfl] at h)
    | map values ih =>
      cases v with
      | map es =>
        obtain ⟨i, e, he, inner, hi, rfl⟩ := mem_faultsOfAll.mp h
        exact .entry he (ih hi)
      | _ => exact .of_mem_here (by rwa [faults_of_looksInto rfl] at h)
    | union members ih =>
      rw [faults, List.mem_append, faultsOfMember_eq] at h
      rcases h with h | h
      · exact .of_mem_here h
      · split at h
        next s hs => exact .member hs (ih s (List.mem_of_find?_eq_some hs) h)
        next => cases h
    | _ => exact .of_mem_here (by rwa [faults_of_looksInto (by cases v <;> rfl)] at h)
  · intro h
    induction h with
    | here h => exact faultsHere_subset _ _ (mem_faultsHere.mpr ⟨_, h, rfl⟩)
    | @missing type r f hf hn =>
      cases type
      rw [faults, List.mem_append, RecordType.faults, mem_faultsOfFields]
      exact .inr ⟨f, hf, .inl ⟨hn, rfl⟩⟩
    | @field type r f v inner hf hv _ ih =>
      cases type
      rw [faults, List.mem_append, RecordType.faults, mem_faultsOfFields]
      exact .inr ⟨f, hf, .inr ⟨v, hv, inner, ih, rfl⟩⟩
    | item hv _ ih => exact mem_faultsOfAll.mpr ⟨_, _, hv, _, ih, rfl⟩
    | entry he _ ih => exact mem_faultsOfAll.mpr ⟨_, _, he, _, ih, rfl⟩
    | member hm _ ih =>
      rw [faults, List.mem_append, faultsOfMember_eq, hm]
      exact .inr ih

/-! ## The first fault -/

section

open Fault

theorem firstCause_faultsHere (s : Schema) (v : Value) :
    firstCause (s.faultsHere v) = s.refusal? v := by
  cases h : s.refusal? v <;> simp [Schema.faultsHere, h, firstCause]

theorem firstCause_faultsOfAll {α : Type} (part : α → List Fault) (as : List α) :
    firstCause (faultsOfAll part as) = as.findSome? fun a => firstCause (part a) := by
  have hparts : as = as.zipIdx.map Prod.fst := by simp
  rw [faultsOfAll, firstCause, List.head?_flatMap, List.map_findSome?]
  conv_rhs => rw [hparts, List.findSome?_map]
  congr 1
  funext p
  exact firstCause_under p.2 (part p.1)

/-- The first fault of a record is that of the first field with one. -/
theorem firstCause_faultsOfFields (fields : List Field) (r : Record) :
    firstCause (faultsOfFields fields r) = fields.findSome? fun f =>
      match r.get? f.position with
      | some v => firstCause (f.schema.faults v)
      | none => some (.codec (.missingField f.name)) := by
  induction fields with
  | nil => simp [faultsOfFields, firstCause]
  | cons f rest ih =>
    obtain ⟨name, position, schema⟩ := f
    rw [faultsOfFields, firstCause_append, ih, List.findSome?_cons]
    dsimp only
    cases r.get? position with
    | none => rfl
    | some v =>
      dsimp only
      rw [firstCause_under]
      cases firstCause (schema.faults v) <;> rfl

end

/-! ## Writers that check in order -/

/-- A number, if the value is one, is neither infinite nor not a number. -/
def Value.isFinite : Value → Bool
  | .float x => x.isFinite
  | .double x => x.isFinite
  | _ => true

/-- There is no infinity in the value, and nothing that is not a number. -/
def Value.Finite (v : Value) : Prop := ∀ x ∈ v.parts, x.isFinite = true

theorem Value.Finite.get {r : Record} (h : (Value.record r).Finite) {i : Nat} {v : Value}
    (hv : r.get? i = some v) : v.Finite :=
  fun x hx => h x (parts_field (List.mem_of_getElem? hv) hx)

/-- What fails in a writer that goes through a value in order is the first of the parts with a
failure. A record has to have the right name before its fields are looked at. -/
structure LooksInOrder (failure : Schema → Value → Option Failure) : Prop where
  record : ∀ type r, failure (.record type) (.record r) =
    ((Schema.record type).refusal? (.record r)).or (type.fields.findSome? fun f =>
      match r.get? f.position with
      | some v => failure f.schema v
      | none => some (.codec (.missingField f.name)))
  array : ∀ items vs, failure (.array items) (.array vs) = vs.findSome? (failure items)
  map : ∀ values es, failure (.map values) (.map es) = es.findSome? fun e => failure values e.2
  union : ∀ members v, failure (.union members) v =
    match members.find? (·.accepts v) with
    | some s => failure s v
    | none => some (.codec (.invalidUnionBranch v.kind))

/-- What fails in a writer that checks a value in order is at a node that it does not look into what
is wrong there. -/
structure ChecksInOrder (failure : Schema → Value → Option Failure) : Prop
    extends LooksInOrder failure where
  leaf : ∀ s v, s.looksInto v = false → v.isFinite = true → failure s v = s.refusal? v

theorem Schema.refusal?_union (members : List Schema) (v : Value) :
    (Schema.union members).refusal? v =
      match members.find? (·.accepts v) with
      | some _ => none
      | none => some (.codec (.invalidUnionBranch v.kind)) := by
  rw [refusal?]
  cases hfound : members.find? (·.accepts v) with
  | none =>
    rw [List.find?_eq_none] at hfound
    refine if_neg fun h => ?_
    obtain ⟨m, hm, ha⟩ := membersAccept_eq_true.mp h
    exact hfound m hm ha
  | some s =>
    have haccepts : s.accepts v = true := by simpa using List.find?_some hfound
    exact if_pos (membersAccept_eq_true.mpr ⟨s, List.mem_of_find?_eq_some hfound, haccepts⟩)

/-- **A writer that checks in order fails with the first fault.** -/
theorem ChecksInOrder.eq_firstCause {failure : Schema → Value → Option Failure}
    (h : ChecksInOrder failure) {s : Schema} {v : Value} (hv : v.Finite) :
    failure s v = Fault.firstCause (s.faults v) := by
  have hleaf : ∀ s v, v.Finite → s.looksInto v = false →
      failure s v = Fault.firstCause (s.faults v) := by
    intro s v hv hinto
    rw [Schema.faults_of_looksInto hinto, firstCause_faultsHere]
    exact h.leaf s v hinto (hv v v.mem_parts_self)
  induction s using Schema.induction generalizing v with
  | record type ih =>
    cases v with
    | record r =>
      obtain ⟨name, fields⟩ := type
      rw [h.record, Schema.faults, RecordType.faults, Fault.firstCause_append,
        firstCause_faultsHere, firstCause_faultsOfFields]
      congr 1
      apply findSome?_congr
      intro f hf
      cases hget : r.get? f.position with
      | none => rfl
      | some v => exact ih f hf (hv.get hget)
    | _ => exact hleaf _ _ hv rfl
  | array items ih =>
    cases v with
    | array vs =>
      rw [h.array, Schema.faults, firstCause_faultsOfAll]
      exact findSome?_congr fun v hmem => ih fun x hx => hv x (Value.parts_item hmem hx)
    | _ => exact hleaf _ _ hv rfl
  | map values ih =>
    cases v with
    | map es =>
      rw [h.map, Schema.faults, firstCause_faultsOfAll]
      exact findSome?_congr fun e hmem => ih fun x hx => hv x (Value.parts_entry hmem hx)
    | _ => exact hleaf _ _ hv rfl
  | union members ih =>
    rw [h.union, Schema.faults, Fault.firstCause_append, firstCause_faultsHere,
      Schema.refusal?_union, faultsOfMember_eq]
    cases hfound : members.find? (·.accepts v) with
    | none => rfl
    | some s => exact ih s (List.mem_of_find?_eq_some hfound) hv
  | _ => exact hleaf _ _ hv (by cases v <;> rfl)

/-! ## The bytes -/

theorem Schema.failureOf_encode (s : Schema) (v : Value) :
    failureOf (s.encode v) = (s.write v).failure := by
  rw [encode, Emission.toExcept]
  cases (s.write v).failure <;> rfl

theorem failure_writeEntry (value : Value → Emission) (e : String × Value) :
    (writeEntry value e).failure = (value e.2).failure := by
  rw [writeEntry, failure_andThen]
  rfl

/-- The failure of a record is that of the first field with one. -/
theorem failure_writeFields (fields : List Field) (r : Record) :
    (writeFields fields r).failure = fields.findSome? fun f =>
      match r.get? f.position with
      | some v => (f.schema.write v).failure
      | none => some (.codec (.missingField f.name)) := by
  induction fields with
  | nil => rfl
  | cons f rest ih =>
    obtain ⟨name, position, schema⟩ := f
    rw [writeFields, List.findSome?_cons]
    dsimp only
    cases r.get? position with
    | none => rfl
    | some v =>
      dsimp only
      rw [failure_andThen, ih]
      cases (schema.write v).failure <;> rfl

theorem failure_writeMember (members : List Schema) (index : Nat) (v : Value) :
    (writeMember index members v).failure =
      match members.find? (·.accepts v) with
      | some s => (s.write v).failure
      | none => some (.codec (.invalidUnionBranch v.kind)) := by
  induction members generalizing index with
  | nil => rfl
  | cons s rest ih =>
    rw [writeMember, List.find?_cons]
    cases s.accepts v with
    | false => exact ih (index + 1)
    | true =>
      rw [if_pos rfl, failure_andThen]
      rfl

theorem Schema.failure_write_leaf {s : Schema} {v : Value} (h : s.looksInto v = false) :
    (s.write v).failure = s.refusal? v := by
  cases s with
  | string tag =>
    cases tag with
    | none =>
      cases v <;> simp [write, refusal?, accepts, writeText, writeBytes]
    | some tag =>
      rw [write, refusal?]
      cases tag.toWire v <;> rfl
  | enum type =>
    cases v with
    | enum symbol =>
      rw [write, refusal?]
      cases hi : type.symbols.idxOf? symbol with
      | none =>
        rw [if_neg (by simpa using List.idxOf?_eq_none_iff.mp hi)]
        rfl
      | some i =>
        have hmem : symbol ∈ type.symbols := by
          rw [← List.isSome_idxOf?, hi]
          rfl
        rw [if_pos (by simpa using hmem)]
        rfl
    | _ => simp [write, refusal?, accepts]
  | fixed type =>
    cases v with
    | fixed data =>
      by_cases hlength : data.length = type.size <;>
        simp [write, refusal?, accepts, hlength]
    | _ => simp [write, refusal?, accepts]
  | record _ | array _ | map _ =>
    cases v <;> simp [looksInto] at h <;> simp [write, refusal?, accepts]
  | union members => simp [looksInto] at h
  | null | boolean | int | long | float | double | bytes =>
    cases v <;> simp [write, refusal?, accepts, writeBytes]

theorem checksInOrder_write : ChecksInOrder fun s v => (s.write v).failure where
  leaf s v h _ := Schema.failure_write_leaf h
  record type r := by
    obtain ⟨name, fields⟩ := type
    rw [Schema.write, RecordType.write, Schema.refusal?, Schema.accepts]
    · by_cases hname : r.type.name.full = name.full
      · rw [if_pos hname, if_pos (by simpa using hname), failure_writeFields]
        rfl
      · rw [if_neg hname, if_neg (by simpa using hname)]
        rfl
    all_goals simp
  array items vs := by rw [Schema.write, failure_writeBlock]
  map values es := by
    rw [Schema.write, failure_writeBlock]
    exact findSome?_congr fun e _ => failure_writeEntry values.write e
  union members v := failure_writeMember members 0 v

/-! ## JSON -/

theorem failureOf_renderNumber {x : Ieee.Binary64} (h : x.isFinite = true) :
    failureOf (renderNumber x) = none := by
  rw [renderNumber, Json.Number.ofBinary64?, dif_pos h]
  rfl

theorem Schema.failureOf_toJson_leaf {s : Schema} {v : Value} (h : s.looksInto v = false)
    (hv : v.isFinite = true) : failureOf (s.toJson .wire v) = s.refusal? v := by
  cases s with
  | string tag =>
    cases tag with
    | none => cases v <;> simp [toJson, refusal?, accepts]
    | some tag =>
      rw [toJson, failureOf_map, refusal?, Rendering.toText]
      cases tag.toWire v <;> rfl
  | float =>
    cases v with
    | float x =>
      rw [toJson, failureOf_renderNumber (Ieee.Binary32.isFinite_widen hv)]
      simp [refusal?, accepts]
    | _ => simp [toJson, refusal?, accepts]
  | double =>
    cases v with
    | double x =>
      rw [toJson, failureOf_renderNumber hv]
      simp [refusal?, accepts]
    | _ => simp [toJson, refusal?, accepts]
  | enum type =>
    cases v with
    | enum symbol =>
      rw [toJson, refusal?]
      split <;> rfl
    | _ => simp [toJson, refusal?, accepts]
  | fixed type =>
    cases v with
    | fixed data =>
      by_cases hlength : data.length = type.size <;>
        simp [toJson, refusal?, accepts, hlength]
    | _ => simp [toJson, refusal?, accepts]
  | record _ | array _ | map _ =>
    cases v <;> simp [looksInto] at h <;> simp [toJson, refusal?, accepts]
  | union members => simp [looksInto] at h
  | null | boolean | int | long | bytes =>
    cases v <;> simp [toJson, refusal?, accepts]

theorem looksInOrder_toJson (rendering : Rendering) :
    LooksInOrder fun s v => failureOf (s.toJson rendering v) where
  record type r := by
    obtain ⟨name, fields⟩ := type
    rw [Schema.toJson, failureOf_map, RecordType.toJson, Schema.refusal?, Schema.accepts]
    · by_cases hname : r.type.name.full = name.full
      · rw [if_pos hname, if_pos (by simpa using hname), failureOf_fieldsToJson]
        rfl
      · rw [if_neg hname, if_neg (by simpa using hname)]
        rfl
    all_goals simp
  array items vs := by rw [Schema.toJson, failureOf_map, failureOf_renderItems]
  map values es := by rw [Schema.toJson, failureOf_map, failureOf_renderEntries]
  union members v := by
    rw [Schema.toJson, failureOf_memberToJson]
    cases hfound : members.find? (·.accepts v) with
    | none => rfl
    | some s =>
      dsimp only
      split
      next hnull =>
        -- The null member is written without a look at the value, which is null.
        have haccepts : s.accepts v = true := by simpa using List.find?_some hfound
        cases s with
        | null =>
          cases v with
          | null => rfl
          | _ => simp [Schema.accepts] at haccepts
        | _ => simp [Schema.isNull] at hnull
      next => rfl

theorem checksInOrder_toJson : ChecksInOrder fun s v => failureOf (s.toJson .wire v) where
  toLooksInOrder := looksInOrder_toJson .wire
  leaf _ _ h hv := Schema.failureOf_toJson_leaf h hv

/-! ## One gate -/

namespace Schema

variable {s : Schema} {v : Value}

/-- **The two wires let the same values through, and refuse the others for the same reason**, as long
as all numbers are finite. The reason is the first of the faults, which are those that the rules lead
to. -/
theorem encode_agrees_toJson (h : v.Finite) :
    ((∃ bytes, s.encode v = .ok bytes) ↔ ∃ j, s.toJson .wire v = .ok j) ∧
    (∀ e, s.encode v = .error e ↔ s.toJson .wire v = .error e) ∧
    (∀ e, s.encode v = .error e ↔
      ∃ fault rest, s.faults v = fault :: rest ∧ fault.cause = e) ∧
    ∀ fault, fault ∈ s.faults v ↔ s.FaultsAt v fault := by
  have hbytes : failureOf (s.encode v) = Fault.firstCause (s.faults v) := by
    rw [failureOf_encode]
    exact checksInOrder_write.eq_firstCause h
  have hjson : failureOf (s.toJson .wire v) = Fault.firstCause (s.faults v) :=
    checksInOrder_toJson.eq_firstCause h
  have hsame := hbytes.trans hjson.symm
  refine ⟨?_, fun e => ?_, fun e => ?_, fun _ => mem_faults⟩
  · rw [← failureOf_eq_none, ← failureOf_eq_none, hsame]
  · rw [← failureOf_eq_some, ← failureOf_eq_some, hsame]
  · rw [← failureOf_eq_some, hbytes, Fault.firstCause_eq_some]

/-- Two faults: a text that is still plain, and a symbol that the enum does not have. Both wires report
the first one. -/
theorem encode_agrees_toJson_plain :
    let type : RecordType := ⟨⟨"Note", none⟩, [⟨"weight", 0, .float⟩,
      ⟨"texts", 1, .array (.string (some .typed))⟩, ⟨"kind", 2, .enum ⟨⟨"Kind", none⟩, ["a"]⟩⟩]⟩
    let v : Value := .record ⟨type, [.float ⟨0x3f800000⟩,
      .array [.tagged (.encrypted "x"), .tagged (.plain "y")], .enum "b"]⟩
    v.Finite ∧ (Schema.record type).encode v = .error (.schema .plainOnWire) ∧
      (Schema.record type).toJson .wire v = .error (.schema .plainOnWire) ∧
      (Schema.record type).faults v =
        [⟨[1, 1], .schema .plainOnWire⟩, ⟨[2], .codec (.unknownSymbol "b")⟩] := by
  intro type v
  have hv : v.Finite := List.all_eq_true.mp (by rfl : v.parts.all Value.isFinite = true)
  have hfaults : (Schema.record type).faults v =
      [⟨[1, 1], .schema .plainOnWire⟩, ⟨[2], .codec (.unknownSymbol "b")⟩] := by rfl
  have hbytes := ((encode_agrees_toJson hv).2.2.1 _).mpr ⟨_, _, hfaults, rfl⟩
  exact ⟨hv, hbytes, ((encode_agrees_toJson hv).2.1 _).mp hbytes, hfaults⟩

end Schema

end FieldSeal
