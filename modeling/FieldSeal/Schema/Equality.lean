import FieldSeal.Schema.Basic

/-!
# Schemas are equal when they look equal

`Schema`, `RecordType` and `Field` refer to each other, which is more than `deriving` covers: the
comparison is written out here, and `eq_of_same` and `same_self` say that it decides equality. The
field index looks a record type up by it, where two types that share a name are different keys.

The recursion is structural in the first of the two schemas, so that the comparison of closed
schemas computes.
-/

set_option autoImplicit false

namespace FieldSeal

mutual

/-- Two schemas are the same when they have one constructor, and the same below it. -/
def Schema.same : Schema → Schema → Bool
  | .null, .null => true
  | .boolean, .boolean => true
  | .int, .int => true
  | .long, .long => true
  | .float, .float => true
  | .double, .double => true
  | .bytes, .bytes => true
  | .string t, .string u => t == u
  | .record t, .record u => t.same u
  | .array s, .array t => s.same t
  | .map s, .map t => s.same t
  | .union ss, .union ts => sameMembers ss ts
  | .enum t, .enum u => t == u
  | .fixed t, .fixed u => t == u
  | _, _ => false
termination_by structural s => s

/-- The name of a record type is part of it, with its namespace. -/
def RecordType.same : RecordType → RecordType → Bool
  | ⟨n, fs⟩, ⟨m, gs⟩ => n == m && sameFields fs gs
termination_by structural t => t

/-- Fields are compared in order. A position is part of a field, though it follows from the order in
a schema that has been read from a document. -/
def sameFields : List Field → List Field → Bool
  | [], [] => true
  | ⟨n, p, s⟩ :: fs, ⟨m, q, t⟩ :: gs => n == m && p == q && s.same t && sameFields fs gs
  | _, _ => false
termination_by structural fs => fs

/-- Members are compared in order: the same members in another order are another union. -/
def sameMembers : List Schema → List Schema → Bool
  | [], [] => true
  | s :: ss, t :: ts => s.same t && sameMembers ss ts
  | _, _ => false
termination_by structural ss => ss

end

mutual

/-- The comparison finds every difference. -/
theorem Schema.eq_of_same : ∀ {s t : Schema}, s.same t = true → s = t
  | .string _, t, h => by cases t <;> simp_all [Schema.same]
  | .record a, t, h => by
    cases t <;> simp only [Schema.same, Bool.false_eq_true] at h
    exact congrArg _ (RecordType.eq_of_same h)
  | .array a, t, h => by
    cases t <;> simp only [Schema.same, Bool.false_eq_true] at h
    exact congrArg _ (Schema.eq_of_same h)
  | .map a, t, h => by
    cases t <;> simp only [Schema.same, Bool.false_eq_true] at h
    exact congrArg _ (Schema.eq_of_same h)
  | .union a, t, h => by
    cases t <;> simp only [Schema.same, Bool.false_eq_true] at h
    exact congrArg _ (eq_of_sameMembers h)
  | .enum _, t, h => by cases t <;> simp_all [Schema.same]
  | .fixed _, t, h => by cases t <;> simp_all [Schema.same]
  | .null, t, h => by cases t <;> simp_all [Schema.same]
  | .boolean, t, h => by cases t <;> simp_all [Schema.same]
  | .int, t, h => by cases t <;> simp_all [Schema.same]
  | .long, t, h => by cases t <;> simp_all [Schema.same]
  | .float, t, h => by cases t <;> simp_all [Schema.same]
  | .double, t, h => by cases t <;> simp_all [Schema.same]
  | .bytes, t, h => by cases t <;> simp_all [Schema.same]

/-- The part for record types, from that for fields. -/
theorem RecordType.eq_of_same : ∀ {t u : RecordType}, t.same u = true → t = u
  | ⟨n, fs⟩, ⟨m, gs⟩, h => by
    simp only [RecordType.same, Bool.and_eq_true, beq_iff_eq] at h
    rw [h.1, eq_of_sameFields h.2]

/-- Lists of different lengths are different, and otherwise the first fields that are not the same
tell them apart. -/
theorem eq_of_sameFields : ∀ {fs gs : List Field}, sameFields fs gs = true → fs = gs
  | [], [], _ => rfl
  | [], _ :: _, h => by simp [sameFields] at h
  | _ :: _, [], h => by simp [sameFields] at h
  | ⟨n, p, s⟩ :: fs, ⟨m, q, t⟩ :: gs, h => by
    simp only [sameFields, Bool.and_eq_true, beq_iff_eq] at h
    rw [h.1.1.1, h.1.1.2, Schema.eq_of_same h.1.2, eq_of_sameFields h.2]

/-- The part for the members of a union. -/
theorem eq_of_sameMembers : ∀ {ss ts : List Schema}, sameMembers ss ts = true → ss = ts
  | [], [], _ => rfl
  | [], _ :: _, h => by simp [sameMembers] at h
  | _ :: _, [], h => by simp [sameMembers] at h
  | s :: ss, t :: ts, h => by
    simp only [sameMembers, Bool.and_eq_true] at h
    rw [Schema.eq_of_same h.1, eq_of_sameMembers h.2]

end

mutual

/-- The comparison finds no difference where there is none. -/
@[simp] theorem Schema.same_self : ∀ s : Schema, s.same s = true
  | .string _ => by simp [Schema.same]
  | .record t => by simpa only [Schema.same] using RecordType.same_self t
  | .array s => by simpa only [Schema.same] using Schema.same_self s
  | .map s => by simpa only [Schema.same] using Schema.same_self s
  | .union ss => by simpa only [Schema.same] using sameMembers_self ss
  | .enum _ => by simp [Schema.same]
  | .fixed _ => by simp [Schema.same]
  | .null | .boolean | .int | .long | .float | .double | .bytes => by simp [Schema.same]

/-- The part for record types. -/
@[simp] theorem RecordType.same_self : ∀ t : RecordType, t.same t = true
  | ⟨_, fs⟩ => by simp only [RecordType.same, beq_self_eq_true, Bool.true_and, sameFields_self fs]

/-- The part for fields. -/
@[simp] theorem sameFields_self : ∀ fs : List Field, sameFields fs fs = true
  | [] => rfl
  | ⟨_, _, s⟩ :: fs => by
    simp only [sameFields, beq_self_eq_true, Bool.true_and, Schema.same_self s, sameFields_self fs]

/-- The part for the members of a union. -/
@[simp] theorem sameMembers_self : ∀ ss : List Schema, sameMembers ss ss = true
  | [] => rfl
  | s :: ss => by simp only [sameMembers, Bool.true_and, Schema.same_self s, sameMembers_self ss]

end

/-- Equality of schemas is decided by the comparison, so it can be run. -/
instance : DecidableEq Schema := fun s t =>
  if h : s.same t = true then .isTrue (Schema.eq_of_same h)
  else .isFalse fun e => h (e ▸ Schema.same_self s)

/-- Equality of record types, by the same comparison. -/
instance : DecidableEq RecordType := fun t u =>
  if h : t.same u = true then .isTrue (RecordType.eq_of_same h)
  else .isFalse fun e => h (e ▸ RecordType.same_self t)

end FieldSeal
