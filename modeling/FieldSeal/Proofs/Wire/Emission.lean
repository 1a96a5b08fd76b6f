import FieldSeal.Wire.Encode

/-!
# Emissions one after the other

Emissions are put together by `Emission.andThen`, which stops at the first failure: it is
associative, the empty emission does nothing, and the whole fails as the first part does that fails.
Blocks and everything that is written in a row inherit this.
-/

set_option autoImplicit false

namespace FieldSeal.Wire

@[simp] theorem bytes_of (bytes : List UInt8) : (Emission.of bytes).bytes = bytes := rfl

@[simp] theorem failure_of (bytes : List UInt8) : (Emission.of bytes).failure = none := rfl

@[simp] theorem bytes_fail (e : Failure) : (Emission.fail e).bytes = [] := rfl

@[simp] theorem failure_fail (e : Failure) : (Emission.fail e).failure = some e := rfl

@[simp] theorem andThen_nil (e : Emission) : e.andThen (.of []) = e := by
  obtain ⟨bytes, failure⟩ := e
  cases failure <;> simp [Emission.andThen]

@[simp] theorem nil_andThen (e : Emission) : (Emission.of []).andThen e = e := by
  simp [Emission.andThen]

theorem andThen_assoc (a b c : Emission) : (a.andThen b).andThen c = a.andThen (b.andThen c) := by
  obtain ⟨bytes, failure⟩ := a
  cases failure with
  | some e => rfl
  | none =>
    obtain ⟨bytes', failure'⟩ := b
    cases failure' <;> simp [Emission.andThen]

@[simp] theorem failure_andThen (a b : Emission) :
    (a.andThen b).failure = a.failure.or b.failure := by
  cases ha : a.failure <;> simp [Emission.andThen, ha]

theorem andThen_failure {a b : Emission} :
    (a.andThen b).failure = none ↔ a.failure = none ∧ b.failure = none := by
  rw [failure_andThen, Option.or_eq_none_iff]

theorem andThen_bytes {a b : Emission} (h : a.failure = none) :
    (a.andThen b).bytes = a.bytes ++ b.bytes := by
  simp [Emission.andThen, h]

/-! ## Rows and blocks -/

section

variable {α β : Type}

theorem writeMany_append (item : α → Emission) (as bs : List α) :
    writeMany item (as ++ bs) = (writeMany item as).andThen (writeMany item bs) := by
  induction as with
  | nil => rw [List.nil_append, writeMany, nil_andThen]
  | cons a rest ih => rw [List.cons_append, writeMany, writeMany, ih, andThen_assoc]

@[simp] theorem writeMany_singleton (item : α → Emission) (a : α) : writeMany item [a] = item a := by
  rw [writeMany, writeMany, andThen_nil]

theorem writeMany_map (f : α → β) (item : β → Emission) (as : List α) :
    writeMany item (as.map f) = writeMany (item ∘ f) as := by
  induction as with
  | nil => rfl
  | cons a rest ih => rw [List.map_cons, writeMany, writeMany, ih, Function.comp_apply]

theorem writeBlock_map (f : α → β) (item : β → Emission) (as : List α) :
    writeBlock item (as.map f) = writeBlock (item ∘ f) as := by
  rw [writeBlock, writeBlock, writeMany_map, List.isEmpty_map, List.length_map]

/-- A row fails where the first of its items does. -/
@[simp] theorem failure_writeMany (item : α → Emission) (as : List α) :
    (writeMany item as).failure = as.findSome? fun a => (item a).failure := by
  induction as with
  | nil => rfl
  | cons a rest ih =>
    rw [writeMany, failure_andThen, ih, List.findSome?_cons]
    cases (item a).failure <;> rfl

@[simp] theorem failure_writeBlock (item : α → Emission) (as : List α) :
    (writeBlock item as).failure = as.findSome? fun a => (item a).failure := by
  cases as with
  | nil => rfl
  | cons a rest =>
    rw [writeBlock, if_neg (by simp)]
    simp

theorem writeMany_failure {item : α → Emission} {as : List α} :
    (writeMany item as).failure = none ↔ ∀ a ∈ as, (item a).failure = none := by
  rw [failure_writeMany, List.findSome?_eq_none_iff]

end

/-- A sink that has accepted an emission without failure has all of it. -/
theorem Sink.accept_eq_none {sink after : Sink} {e : Emission} (h : sink.accept e = (after, none)) :
    e.failure = none ∧ after.received = sink.received ++ e.bytes := by
  simp only [accept] at h
  split at h
  · obtain ⟨rfl, hf⟩ := Prod.mk.inj h
    exact ⟨hf, rfl⟩
  · split at h
    · obtain ⟨rfl, hf⟩ := Prod.mk.inj h
      exact ⟨hf, rfl⟩
    · simp at h

end FieldSeal.Wire

/-- A value is encoded as the bytes of an emission without failure. -/
theorem FieldSeal.Schema.encode_eq_ok_iff {s : Schema} {v : Value} {bytes : List UInt8} :
    s.encode v = .ok bytes ↔ (s.write v).failure = none ∧ (s.write v).bytes = bytes := by
  rw [encode, Wire.Emission.toExcept]
  cases (s.write v).failure <;> simp
