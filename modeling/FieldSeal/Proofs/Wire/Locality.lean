import FieldSeal.Proofs.Wire.Recognition

/-!
# Reading is local, and every cut is noticed

What a reader does with some bytes at the front of a source is one of three things, and which one
depends on no byte behind them:

* it takes some of them and gives a value, and each of those it took was called for: with any fewer
  it asks for more than there is (`Takes`);
* it asks for more than there is, so what it ends in is what lies behind the last byte (`Starves`);
* it finds something wrong in them, and no continuation mends that (`Refuses`).

A reader of which this is true of all bytes is `Local`. One local reader after another is local
(`Local.bind`), and that is where the order of checks matters: bytes that are cut starve the first
reader or the second, and in neither case does a later check get to see them.
-/

set_option autoImplicit false

namespace FieldSeal.Wire

section

variable {α β : Type}

/-- The reader asks for more than these bytes, and gets what lies behind them. -/
def Starves (reader : Reader α) (bytes : List UInt8) : Prop :=
  ∀ ending : Ending, reader ⟨bytes, ending⟩ = .error ending.error

/-- The reader finds these bytes wrong, whatever comes after them. -/
def Refuses (reader : Reader α) (bytes : List UInt8) (e : CodecError) : Prop :=
  ∀ more ending, reader ⟨bytes ++ more, ending⟩ = .error e

/-- The reader takes these bytes, whatever comes after them, and would not do with fewer. -/
structure Takes (reader : Reader α) (taken : List UInt8) (a : α) : Prop where
  whole : ∀ rest ending, reader ⟨taken ++ rest, ending⟩ = .ok (a, ⟨rest, ending⟩)
  cut : ∀ part b missing, taken = part ++ b :: missing → Starves reader part

/-- All bytes start with what the reader takes, are too few for it or are refused. -/
def Local (reader : Reader α) : Prop :=
  ∀ bytes, (∃ taken rest a, bytes = taken ++ rest ∧ Takes reader taken a) ∨
    Starves reader bytes ∨ ∃ e, Refuses reader bytes e

/-! ## One reader after another -/

theorem Starves.bind {reader : Reader α} {f : α → Reader β} {bytes : List UInt8}
    (h : Starves reader bytes) : Starves (reader >>= f) bytes := by
  intro ending
  show (reader _ >>= _) = _
  rw [h ending]
  rfl

theorem Refuses.bind {reader : Reader α} {f : α → Reader β} {bytes : List UInt8} {e : CodecError}
    (h : Refuses reader bytes e) : Refuses (reader >>= f) bytes e := by
  intro more ending
  show (reader _ >>= _) = _
  rw [h more ending]
  rfl

namespace Takes

variable {reader : Reader α} {f : α → Reader β} {taken : List UInt8} {a : α}

theorem pure (a : α) : Takes (Pure.pure a : Reader α) [] a where
  whole _ _ := rfl
  cut part b missing h := by simp at h

/-- Behind the bytes that the first reader takes, the second one has its way. -/
theorem run_bind (h : Takes reader taken a) (rest : List UInt8) (ending : Ending) :
    (reader >>= f) ⟨taken ++ rest, ending⟩ = f a ⟨rest, ending⟩ := by
  show (reader _ >>= _) = _
  rw [h.whole rest ending]
  rfl

theorem starves (h : Takes reader taken a) {rest : List UInt8} (hf : Starves (f a) rest) :
    Starves (reader >>= f) (taken ++ rest) := by
  intro ending
  rw [h.run_bind, hf ending]

theorem refuses (h : Takes reader taken a) {rest : List UInt8} {e : CodecError}
    (hf : Refuses (f a) rest e) : Refuses (reader >>= f) (taken ++ rest) e := by
  intro more ending
  rw [List.append_assoc, h.run_bind, hf more ending]

theorem bind {second : List UInt8} {b : β} (h : Takes reader taken a)
    (hf : Takes (f a) second b) : Takes (reader >>= f) (taken ++ second) b where
  whole rest ending := by rw [List.append_assoc, h.run_bind, hf.whole rest ending]
  cut part c missing hcut := by
    -- The cut is in what the first reader takes, or behind it.
    obtain ⟨others, rfl, hothers⟩ | ⟨others, rfl, hothers⟩ := List.append_eq_append_iff.mp hcut
    · exact h.starves (hf.cut others c missing hothers)
    · cases others with
      | nil =>
        have hstart := hf.cut [] c missing hothers.symm
        have hall := h.starves hstart
        rwa [List.append_nil, List.append_nil] at hall
      | cons d others => exact (h.cut part d others rfl).bind

end Takes

namespace Local

variable {reader reader' : Reader α}

theorem pure (a : α) : Local (Pure.pure a : Reader α) :=
  fun bytes => .inl ⟨[], bytes, a, rfl, .pure a⟩

theorem fail (e : CodecError) : Local (throw e : Reader α) :=
  fun _ => .inr (.inr ⟨e, fun _ _ => rfl⟩)

theorem ite {c : Prop} [Decidable c] (h : Local reader) (h' : Local reader') :
    Local (if c then reader else reader') := by
  by_cases hc : c
  · rwa [if_pos hc]
  · rwa [if_neg hc]

/-- What comes second need only be local behind what the first reader can take. -/
theorem bind {f : α → Reader β} (h : Local reader)
    (hf : ∀ a taken, Takes reader taken a → Local (f a)) : Local (reader >>= f) := by
  intro bytes
  obtain ⟨taken, others, a, rfl, ha⟩ | hstarves | ⟨e, hrefuses⟩ := h bytes
  · obtain ⟨second, rest, b, rfl, hb⟩ | hstarves | ⟨e, hrefuses⟩ := hf a taken ha others
    · exact .inl ⟨taken ++ second, rest, b, (List.append_assoc ..).symm, ha.bind hb⟩
    · exact .inr (.inl (ha.starves hstarves))
    · exact .inr (.inr ⟨e, ha.refuses hrefuses⟩)
  · exact .inr (.inl hstarves.bind)
  · exact .inr (.inr ⟨e, hrefuses.bind⟩)

theorem map {f : α → β} (h : Local reader) : Local (do return f (← reader)) :=
  h.bind fun a _ _ => .pure (f a)

end Local

end

/-! ## Bytes, numbers and texts -/

theorem local_next : Local Reader.next := by
  intro bytes
  cases bytes with
  | nil => exact .inr (.inl fun _ => rfl)
  | cons b rest =>
    refine .inl ⟨[b], rest, b, rfl, fun _ _ => rfl, ?_⟩
    intro part c missing h
    cases part with
    | nil => exact fun _ => rfl
    | cons d part => simp at h

theorem starves_take {n : Nat} {bytes : List UInt8} (h : bytes.length < n) :
    Starves (Reader.take n) bytes := by
  intro ending
  rw [Reader.take, if_neg (Nat.not_le.mpr h)]

theorem takes_take (taken : List UInt8) : Takes (Reader.take taken.length) taken taken where
  whole := (reads_take taken).eq_ok
  cut part b missing h := starves_take (by rw [h]; simp)

theorem local_take (n : Nat) : Local (Reader.take n) := by
  intro bytes
  by_cases hn : n ≤ bytes.length
  · have htakes := takes_take (bytes.take n)
    rw [List.length_take_of_le hn] at htakes
    exact .inl ⟨bytes.take n, bytes.drop n, _, (List.take_append_drop n bytes).symm, htakes⟩
  · exact .inr (.inl (starves_take (Nat.not_le.mp hn)))

theorem Varint.local_groups (room : Nat) : Local (readGroups room) := by
  induction room with
  | zero => exact local_next.bind fun b _ _ => .ite (.pure b.toNat) (.fail .invalidVarint)
  | succ room ih => exact local_next.bind fun b _ _ => .ite (.pure b.toNat) ih.map

theorem Varint.local_read : Local read :=
  (local_groups moreGroups).map

theorem local_demand {α : Type} (error : CodecError) (found : Option α) :
    Local (demand error found) := by
  cases found with
  | none => exact .fail error
  | some a => exact .pure a

theorem local_length : Local readLength :=
  Varint.local_read.bind fun n _ _ => .ite (.fail .invalidVarint) (.pure n.toInt.toNat)

theorem local_bytes : Local readBytes :=
  local_length.bind fun n _ _ => local_take n

theorem local_text : Local readText := by
  rw [readText_eq]
  exact local_bytes.bind fun data _ _ => local_demand .invalidText (Utf8.decode? data)

theorem local_boolean : Local readBoolean :=
  local_next.bind fun _ _ _ => .ite (.pure false) (.ite (.pure true) (.fail _))

theorem local_int : Local readInt := by
  rw [readInt_eq]
  exact Varint.local_read.bind fun n _ _ => local_demand .invalidVarint (int32? n)

theorem local_index {α : Type} (choices : List α) (error : String → CodecError) :
    Local (readIndex choices error) := by
  rw [readIndex_eq]
  exact Varint.local_read.bind fun n _ _ => local_demand _ _

/-! ## Blocks -/

theorem local_limit (seen count : Nat) : Local (limitCount seen count) := by
  rw [limitCount]
  by_cases h : 0 < count ∧ seen + count ≤ maxItems
  · rw [dif_pos h]
    exact .pure _
  · rw [dif_neg h]
    exact .fail _

theorem local_count (seen : Nat) : Local (readCount seen) := by
  rw [readCount_eq]
  refine Varint.local_read.bind fun n _ _ => .ite (.pure none) (.ite ?_ ?_)
  · exact Varint.local_read.bind fun _ _ _ => local_limit seen n.toInt.natAbs
  · exact local_limit seen n.toInt.natAbs

section

variable {α : Type} {item : Reader α}

theorem local_many (h : Local item) (n : Nat) (done : List α) : Local (readMany item n done) := by
  induction n generalizing done with
  | zero => exact .pure done
  | succ n ih =>
    rw [readMany_succ]
    exact h.bind fun a _ _ => ih (a :: done)

theorem local_blocks (h : Local item) (seen : Nat) (done : List α) :
    Local (readBlocks item seen done) := by
  rw [readBlocks_eq]
  refine (local_count seen).bind fun count _ _ => ?_
  cases count with
  | none => exact .pure done.reverse
  | some count =>
    exact (local_many h count done).bind fun all _ _ => local_blocks h (seen + count) all
termination_by maxItems - seen
decreasing_by have := count.2; omega

end

theorem local_entry {value : Reader Value} (h : Local value) : Local (readEntry value) :=
  local_text.bind fun _ _ _ => h.map

end FieldSeal.Wire

namespace FieldSeal

open FieldSeal.Wire

/-! ## Values -/

theorem local_readFields {fields : List Field} (h : ∀ f ∈ fields, Local f.schema.read) :
    Local (readFields fields) := by
  induction fields with
  | nil => exact .pure []
  | cons f rest ih =>
    obtain ⟨name, position, schema⟩ := f
    obtain ⟨hfirst, hrest⟩ := List.forall_mem_cons.mp h
    exact hfirst.bind fun v _ _ => (ih hrest).map (f := fun others => v :: others)

theorem Schema.local_read (s : Schema) : Local s.read := by
  induction s using Schema.induction with
  | null => exact .pure Value.null
  | boolean => exact local_boolean.map
  | int => exact local_int.map
  | long => exact Varint.local_read.map
  | float => exact (local_take 4).map
  | double => exact (local_take 8).map
  | bytes => exact local_bytes.map
  | string tag =>
    cases tag with
    | none => exact local_text.map
    | some tag => exact local_text.map
  | record type ih =>
    obtain ⟨name, fields⟩ := type
    exact ((local_readFields ih).map (f := Record.mk ⟨name, fields⟩)).map (f := Value.record)
  | array items ih => exact (local_blocks ih 0 []).map
  | map values ih => exact (local_blocks (local_entry ih) 0 []).map
  | union members ih =>
    -- The index is checked before the member reads, so the reader behind it is one of theirs.
    refine (local_index (readMembers members) .invalidUnionBranch).bind fun reader taken hr => ?_
    have hrun := hr.whole [] .ended
    obtain ⟨mark, _, -, ⟨_, _, -, -, hmember⟩, -⟩ :=
      (recognizes_index (readMembers members) .invalidUnionBranch _ _ _ _).mp hrun
    rw [readMembers_eq_map] at hmember
    obtain ⟨s, hs, rfl⟩ := List.mem_map.mp (List.mem_of_getElem? hmember)
    exact ih s hs
  | enum type => exact (local_index type.symbols .unknownSymbol).map
  | fixed type => exact (local_take type.size).map

/-- **Reading is local and every truncation is noticed.** What a value is read from is a part of the
bytes that stands for it in front of any others; no shorter part gives anything, and what is then
reported is what lies behind the last byte. Any other failure is one of the bytes that are there, and
more of them do not change it. -/
theorem Schema.read_local (s : Schema) (bytes : List UInt8) :
    (∀ v after, s.read (.ofBytes bytes) = .ok (v, after) →
      ∃ taken, bytes = taken ++ after.bytes ∧ after.ending = .ended ∧
        (∀ rest ending, s.read ⟨taken ++ rest, ending⟩ = .ok (v, ⟨rest, ending⟩)) ∧
        ∀ part, part <+: taken → part ≠ taken →
          s.read (.ofBytes part) = .error .unexpectedEnd ∧
            ∀ reason, s.read ⟨part, .broken reason⟩ = .error (.io reason)) ∧
      ∀ e, s.read (.ofBytes bytes) = .error e → e ≠ .unexpectedEnd →
        ∀ more, s.read (.ofBytes (bytes ++ more)) = .error e := by
  obtain ⟨taken, rest, a, rfl, ha⟩ | hstarves | ⟨e, hrefuses⟩ := s.local_read bytes
  · have hrun : s.read (.ofBytes (taken ++ rest)) = .ok (a, ⟨rest, .ended⟩) := ha.whole rest .ended
    constructor
    · intro v after h
      rw [hrun] at h
      obtain ⟨rfl, rfl⟩ := Prod.mk.inj (Except.ok.inj h)
      refine ⟨taken, rfl, rfl, ha.whole, ?_⟩
      rintro part ⟨missing, rfl⟩ hne
      cases missing with
      | nil => exact absurd (List.append_nil part).symm hne
      | cons b missing =>
        have hcut := ha.cut part b missing rfl
        exact ⟨hcut .ended, fun reason => hcut (.broken reason)⟩
    · intro e h
      rw [hrun] at h
      cases h
  · have hrun : s.read (.ofBytes bytes) = .error .unexpectedEnd := hstarves .ended
    constructor
    · intro v after h
      rw [hrun] at h
      cases h
    · intro e h hne
      rw [hrun] at h
      exact absurd (Except.error.inj h).symm hne
  · have hrun : s.read (.ofBytes bytes) = .error e := by
      have h := hrefuses [] .ended
      rwa [List.append_nil] at h
    constructor
    · intro v after h
      rw [hrun] at h
      cases h
    · intro e' h _ more
      rw [hrun] at h
      rw [← Except.error.inj h]
      exact hrefuses more .ended

/-- A value of the second member with a byte behind it, which none of the cuts gives, and a value of
the first member that is none. -/
theorem Schema.read_local_union :
    let s : Schema := .union [.boolean, .bytes]
    (s.read (.ofBytes [2, 4, 1, 2, 9]) = .ok (.bytes [1, 2], ⟨[9], .ended⟩) ∧
      ∃ taken, [2, 4, 1, 2, 9] = taken ++ [9] ∧
        ∀ part, part <+: taken → part ≠ taken →
          s.read (.ofBytes part) = .error .unexpectedEnd ∧
            ∀ reason, s.read ⟨part, .broken reason⟩ = .error (.io reason)) ∧
      s.read (.ofBytes [0, 7]) = .error (.typeMismatch "boolean" "byte 7") ∧
      ∀ more, s.read (.ofBytes ([0, 7] ++ more)) = .error (.typeMismatch "boolean" "byte 7") := by
  intro s
  have hok : s.read (.ofBytes [2, 4, 1, 2, 9]) = .ok (.bytes [1, 2], ⟨[9], .ended⟩) := by rfl
  have herror : s.read (.ofBytes [0, 7]) = .error (.typeMismatch "boolean" "byte 7") := by rfl
  obtain ⟨taken, htaken, -, -, hcut⟩ := (s.read_local [2, 4, 1, 2, 9]).1 _ _ hok
  exact ⟨⟨hok, taken, htaken, hcut⟩, herror,
    (s.read_local [0, 7]).2 _ herror fun h => CodecError.noConfusion h⟩

end FieldSeal
