import FieldSeal.FieldIndex
import FieldSeal.Proofs.Schema.Nodes

/-!
# What a sound index answers

An index answers from memory, so what it says depends on what has been asked before.
`Schema.holdsTag` and `RecordType.tagPositions` are the answers without a memory: a recursion over
the schema and nothing else. An index is *sound* when each of its entries is the answer of that
recursion; asking a sound index gives the answer of the recursion and a sound index
(`sensitive_spec`).

That every index which can come about is sound is said where the walks are, in `Walk/Turns`
(`FieldIndex.Reachable.sound`): walks are what fills an index, those that fail half-way included.
-/

set_option autoImplicit false

namespace FieldSeal

/-! ## The answers without a memory -/

mutual

/-- Whether a tagged string stands anywhere in the schema. -/
def Schema.holdsTag : Schema → Bool
  | .string tag => tag.isSome
  | .record type => !type.tagPositions.isEmpty
  | .array items => items.holdsTag
  | .map values => values.holdsTag
  | .union members => anyHoldsTag members
  | _ => false

/-- The positions of the fields in which a tagged string stands. -/
def RecordType.tagPositions : RecordType → List Nat
  | ⟨_, fields⟩ => tagPositionsAmong fields

def tagPositionsAmong : List Field → List Nat
  | [] => []
  | ⟨_, position, schema⟩ :: rest =>
    if schema.holdsTag then position :: tagPositionsAmong rest else tagPositionsAmong rest

def anyHoldsTag : List Schema → Bool
  | [] => false
  | s :: rest => s.holdsTag || anyHoldsTag rest

end

theorem mem_tagPositionsAmong {p : Nat} {fields : List Field} :
    p ∈ tagPositionsAmong fields ↔ ∃ f ∈ fields, f.schema.holdsTag = true ∧ f.position = p := by
  induction fields with
  | nil => simp [tagPositionsAmong]
  | cons f rest ih =>
    obtain ⟨_, position, schema⟩ := f
    rw [tagPositionsAmong]
    split
    next hs =>
      rw [List.mem_cons, ih]
      simp [hs, @eq_comm _ p]
    next hs => simp [ih, hs]

theorem RecordType.mem_tagPositions {p : Nat} {type : RecordType} :
    p ∈ type.tagPositions ↔ ∃ f ∈ type.fields, f.schema.holdsTag = true ∧ f.position = p := by
  cases type
  exact mem_tagPositionsAmong

theorem Schema.holdsTag_of_mem_tagPositions {p : Nat} {type : RecordType}
    (h : p ∈ type.tagPositions) : (Schema.record type).holdsTag = true := by
  rw [Schema.holdsTag]
  cases hl : type.tagPositions with
  | nil => simp [hl] at h
  | cons => rfl

theorem anyHoldsTag_eq_true {members : List Schema} :
    anyHoldsTag members = true ↔ ∃ m ∈ members, m.holdsTag = true := by
  induction members with
  | nil => simp [anyHoldsTag]
  | cons m rest ih => simp [anyHoldsTag, ih]

/-- A schema holds a tag when one of its nodes is a tagged string. -/
theorem Schema.holdsTag_iff {s : Schema} :
    s.holdsTag = true ↔ ∃ tag, Schema.string (some tag) ∈ s.nodes := by
  induction s using Schema.induction with
  | string tag => cases tag <;> simp [holdsTag]
  | record type ih =>
    rw [holdsTag, Bool.not_eq_true', List.isEmpty_eq_false_iff_exists_mem]
    constructor
    · rintro ⟨p, hp⟩
      obtain ⟨f, hf, htag, -⟩ := RecordType.mem_tagPositions.mp hp
      obtain ⟨tag, hnode⟩ := (ih f hf).mp htag
      exact ⟨tag, nodes_trans hnode (mem_nodes_field hf)⟩
    · rintro ⟨tag, hnode⟩
      rw [nodes, List.mem_cons, RecordType.mem_nodes] at hnode
      obtain heq | ⟨f, hf, hnode⟩ := hnode
      · cases heq
      · exact ⟨f.position, RecordType.mem_tagPositions.mpr ⟨f, hf, (ih f hf).mpr ⟨tag, hnode⟩, rfl⟩⟩
  | array items ih => simpa [holdsTag] using ih
  | map values ih => simpa [holdsTag] using ih
  | union members ih =>
    rw [holdsTag, anyHoldsTag_eq_true]
    constructor
    · rintro ⟨m, hm, htag⟩
      obtain ⟨tag, hnode⟩ := (ih m hm).mp htag
      exact ⟨tag, nodes_trans hnode (mem_nodes_member hm)⟩
    · rintro ⟨tag, hnode⟩
      rw [nodes, List.mem_cons, mem_memberNodes] at hnode
      obtain heq | ⟨m, hm, hnode⟩ := hnode
      · cases heq
      · exact ⟨m, hm, (ih m hm).mpr ⟨tag, hnode⟩⟩
  | null | boolean | int | long | float | double | bytes | enum _ | fixed _ =>
    simp [holdsTag]

/-! In a record type whose fields stand at their indices, the positions go up and are those of the
fields with a tag in them. -/

theorem tagPositionsAmong_pairwise {first : Nat} {fields : List Field}
    (h : ∀ i f, fields[i]? = some f → f.position = first + i) :
    (tagPositionsAmong fields).Pairwise (· < ·) ∧ ∀ p ∈ tagPositionsAmong fields, first ≤ p := by
  induction fields generalizing first with
  | nil => exact ⟨List.Pairwise.nil, fun p hp => absurd hp List.not_mem_nil⟩
  | cons f rest ih =>
    obtain ⟨name, position, schema⟩ := f
    have hhead : position = first := h 0 _ rfl
    have hrest : ∀ i f, rest[i]? = some f → f.position = first + 1 + i := by
      intro i f hf
      rw [Nat.add_assoc, Nat.add_comm 1 i]
      exact h (i + 1) f hf
    obtain ⟨hpair, hlow⟩ := ih hrest
    rw [tagPositionsAmong]
    split
    · refine ⟨List.pairwise_cons.mpr ⟨fun p hp => ?_, hpair⟩, fun p hp => ?_⟩
      · have := hlow p hp
        omega
      · rcases List.mem_cons.mp hp with rfl | hp
        · omega
        · have := hlow p hp
          omega
    · refine ⟨hpair, fun p hp => ?_⟩
      have := hlow p hp
      omega

theorem RecordType.Positioned.tagPositions_pairwise {type : RecordType} (h : type.Positioned) :
    type.tagPositions.Pairwise (· < ·) := by
  obtain ⟨name, fields⟩ := type
  have hfrom : ∀ i f, fields[i]? = some f → f.position = 0 + i := by
    intro i f hf
    rw [Nat.zero_add]
    exact h i f hf
  exact (tagPositionsAmong_pairwise hfrom).1

theorem RecordType.Positioned.mem_tagPositions {type : RecordType} (h : type.Positioned) {i : Nat} :
    i ∈ type.tagPositions ↔
      ∃ f, type.fields[i]? = some f ∧ ∃ tag, Schema.string (some tag) ∈ f.schema.nodes := by
  rw [RecordType.mem_tagPositions]
  constructor
  · rintro ⟨f, hf, htag, rfl⟩
    obtain ⟨j, hj⟩ := List.mem_iff_getElem?.mp hf
    rw [h j f hj]
    exact ⟨f, hj, Schema.holdsTag_iff.mp htag⟩
  · rintro ⟨f, hf, htag⟩
    exact ⟨f, List.mem_of_getElem? hf, Schema.holdsTag_iff.mpr htag, h i f hf⟩

/-! ## Sound indices -/

namespace FieldIndex

/-- Every entry lists the positions that its record type has. -/
def Sound (index : FieldIndex) : Prop :=
  ∀ type positions, index.get? type = some positions → positions = type.tagPositions

@[simp] theorem sound_empty : empty.Sound := by
  intro type positions h
  simp [get?, empty] at h

theorem get?_append (index : FieldIndex) (type asked : RecordType) (positions : List Nat) :
    (FieldIndex.mk (index.entries ++ [(type, positions)])).get? asked
      = (index.get? asked).or (if asked = type then some positions else none) := by
  simp only [get?, List.lookup_append]
  congr 1
  by_cases h : asked = type
  · simp [h]
  · have hb : (asked == type) = false := by simpa using h
    simp [List.lookup_cons, h, hb]

/-- Recording the right positions gives them back and keeps the index sound. -/
theorem record_spec {index : FieldIndex} (h : index.Sound) (type : RecordType) :
    (index.record type type.tagPositions).1 = type.tagPositions ∧
      (index.record type type.tagPositions).2.Sound := by
  unfold record
  cases hg : index.get? type with
  | some known => exact ⟨h type known hg, h⟩
  | none =>
    refine ⟨rfl, ?_⟩
    intro asked positions ha
    rw [get?_append] at ha
    cases hk : index.get? asked with
    | some known =>
      rw [hk, Option.some_or, Option.some.injEq] at ha
      exact ha ▸ h asked known hk
    | none =>
      rw [hk, Option.none_or] at ha
      split at ha
      next he =>
        cases ha
        rw [he]
      next => cases ha

end FieldIndex

mutual

/-- **A sound index answers as the recursion does, and stays sound.** -/
theorem Schema.sensitive_spec {index : FieldIndex} (h : index.Sound) : ∀ (s : Schema),
    (s.sensitive index).1 = s.holdsTag ∧ (s.sensitive index).2.Sound
  | .string _ => by simp [Schema.sensitive, Schema.holdsTag, h]
  | .record type => by
    obtain ⟨hp, hi⟩ := RecordType.sensitivePositions_spec h type
    exact ⟨by simp [Schema.sensitive, Schema.holdsTag, hp], hi⟩
  | .array items => by
    simpa only [Schema.sensitive, Schema.holdsTag] using Schema.sensitive_spec h items
  | .map values => by
    simpa only [Schema.sensitive, Schema.holdsTag] using Schema.sensitive_spec h values
  | .union members => by
    simpa only [Schema.sensitive, Schema.holdsTag] using anySensitive_spec h members
  | .null | .boolean | .int | .long | .float | .double | .bytes | .enum _ | .fixed _ => by
    simp [Schema.sensitive, Schema.holdsTag, h]

theorem RecordType.sensitivePositions_spec {index : FieldIndex} (h : index.Sound) :
    ∀ (type : RecordType), (type.sensitivePositions index).1 = type.tagPositions ∧
      (type.sensitivePositions index).2.Sound
  | ⟨name, fields⟩ => by
    rw [RecordType.sensitivePositions]
    split
    next positions hg => exact ⟨h _ _ hg, h⟩
    next =>
      obtain ⟨hp, hi⟩ := sensitiveAmong_spec h fields
      have := FieldIndex.record_spec hi ⟨name, fields⟩
      rw [RecordType.tagPositions, ← hp] at this ⊢
      exact this

theorem sensitiveAmong_spec {index : FieldIndex} (h : index.Sound) : ∀ (fields : List Field),
    (sensitiveAmong fields index).1 = tagPositionsAmong fields ∧
      (sensitiveAmong fields index).2.Sound
  | [] => ⟨rfl, h⟩
  | ⟨_, _, schema⟩ :: rest => by
    obtain ⟨hs, hi⟩ := Schema.sensitive_spec h schema
    obtain ⟨hr, hj⟩ := sensitiveAmong_spec hi rest
    exact ⟨by simp only [sensitiveAmong, tagPositionsAmong, hs, hr], hj⟩

/-- The search stops at the first member that has a tag; the ones after it would not change the
answer. -/
theorem anySensitive_spec {index : FieldIndex} (h : index.Sound) : ∀ (members : List Schema),
    (anySensitive members index).1 = anyHoldsTag members ∧ (anySensitive members index).2.Sound
  | [] => ⟨rfl, h⟩
  | s :: rest => by
    obtain ⟨hs, hi⟩ := Schema.sensitive_spec h s
    rw [anySensitive, anyHoldsTag]
    split
    next index' he =>
      rw [he] at hs hi
      exact ⟨by simp [← hs], hi⟩
    next index' he =>
      rw [he] at hs hi
      obtain ⟨hr, hj⟩ := anySensitive_spec hi rest
      exact ⟨by simp [← hs, hr], hj⟩

end

end FieldSeal
