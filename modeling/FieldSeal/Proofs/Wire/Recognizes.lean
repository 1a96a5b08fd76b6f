import FieldSeal.Proofs.Wire.Layout
import FieldSeal.Proofs.Wire.Reads

/-!
# Readers that take a form and nothing else

`Recognizes reader form` says all that a reader does when it succeeds: it takes bytes off the front
that have the form, and there are such bytes only if it succeeds. What comes after them is
quantified over, so readers with this property can be put one after the other
(`Recognizes.bind`), and a form that has a reader determines its value and where it ends
(`Recognizes.unique`).

`Reads` (in `Wire.Reads`) says of one written value how it is read, its failure for the item limit
included; here nothing is written, and the forms are those of `Wire.Layout`. This file has the
readers without parts of their own: integers, lengths, texts and choices.
-/

set_option autoImplicit false

namespace FieldSeal.Wire

/- A power of natural numbers is that of core here, whatever else is in scope. -/
attribute [local instance (high)] instPowNat

/-- The reader succeeds on the bytes that start with the form of a value, with that value, and takes
just the form. -/
def Recognizes {α : Type} (reader : Reader α) (form : α → List UInt8 → Prop) : Prop :=
  ∀ (bytes : List UInt8) (ending : Ending) (a : α) (after : Source),
    reader ⟨bytes, ending⟩ = .ok (a, after) ↔
      ∃ taken rest, bytes = taken ++ rest ∧ form a taken ∧ after = ⟨rest, ending⟩

namespace Recognizes

variable {α β : Type} {reader : Reader α} {form : α → List UInt8 → Prop}

theorem congr {form' : α → List UInt8 → Prop} (h : Recognizes reader form)
    (hf : ∀ a bytes, form a bytes ↔ form' a bytes) : Recognizes reader form' := by
  intro bytes ending a after
  rw [h bytes ending a after]
  exact exists₂_congr fun taken _ => and_congr_right fun _ => and_congr_left' (hf a taken)

/-- The value and the end of a form are determined by the bytes. -/
theorem unique (h : Recognizes reader form) {a b : α} {first second rest more : List UInt8}
    (ha : form a first) (hb : form b second) (heq : first ++ rest = second ++ more) :
    a = b ∧ first = second := by
  have hfirst := (h (first ++ rest) .ended a ⟨rest, .ended⟩).mpr ⟨first, rest, rfl, ha, rfl⟩
  have hsecond := (h (second ++ more) .ended b ⟨more, .ended⟩).mpr ⟨second, more, rfl, hb, rfl⟩
  rw [heq, hsecond] at hfirst
  injection hfirst with hpair
  injection hpair with hvalue hafter
  injection hafter with hrest
  rw [hrest] at heq
  exact ⟨hvalue.symm, List.append_cancel_right heq⟩

theorem pure (a : α) : Recognizes (Pure.pure a : Reader α) fun b bytes => b = a ∧ bytes = [] := by
  intro bytes ending b after
  show Except.ok (a, (⟨bytes, ending⟩ : Source)) = .ok (b, after) ↔ _
  constructor
  · intro h
    injection h with hpair
    injection hpair with ha hafter
    exact ⟨[], bytes, rfl, ⟨ha.symm, rfl⟩, hafter.symm⟩
  · rintro ⟨taken, rest, rfl, ⟨rfl, rfl⟩, rfl⟩
    rfl

theorem fail (e : CodecError) : Recognizes (throw e : Reader α) fun _ _ => False := by
  intro bytes ending a after
  show Except.error e = .ok (a, after) ↔ _
  constructor
  · intro h
    cases h
  · rintro ⟨_, _, _, h, _⟩
    exact h.elim

theorem bind {f : α → Reader β} {form' : α → β → List UInt8 → Prop} (h : Recognizes reader form)
    (hf : ∀ a first, form a first → Recognizes (f a) (form' a)) :
    Recognizes (reader >>= f) fun b bytes =>
      ∃ a first second, bytes = first ++ second ∧ form a first ∧ form' a b second := by
  intro bytes ending b after
  show (reader ⟨bytes, ending⟩ >>= fun p => f p.1 p.2) = .ok (b, after) ↔ _
  constructor
  · intro hrun
    cases hfirst : reader ⟨bytes, ending⟩ with
    | error e =>
      rw [hfirst] at hrun
      cases hrun
    | ok p =>
      obtain ⟨a, between⟩ := p
      rw [hfirst] at hrun
      obtain ⟨first, others, rfl, ha, rfl⟩ := (h bytes ending a between).mp hfirst
      obtain ⟨second, rest, rfl, hb, rfl⟩ := (hf a first ha others ending b after).mp hrun
      exact ⟨first ++ second, rest, (List.append_assoc ..).symm, ⟨a, first, second, rfl, ha, hb⟩,
        rfl⟩
  · rintro ⟨taken, rest, rfl, ⟨a, first, second, rfl, ha, hb⟩, rfl⟩
    have hfirst := (h (first ++ (second ++ rest)) ending a ⟨second ++ rest, ending⟩).mpr
      ⟨first, second ++ rest, rfl, ha, rfl⟩
    rw [List.append_assoc, hfirst]
    exact (hf a first ha (second ++ rest) ending b ⟨rest, ending⟩).mpr ⟨second, rest, rfl, hb, rfl⟩

/-- A step after the reader that takes no bytes, but may refuse the value. -/
theorem ends {f : α → Reader β} {allows : α → β → Prop} (h : Recognizes reader form)
    (hf : ∀ a, Recognizes (f a) fun b bytes => allows a b ∧ bytes = []) :
    Recognizes (reader >>= f) fun b bytes => ∃ a, form a bytes ∧ allows a b := by
  apply (h.bind fun a _ _ => hf a).congr
  intro b bytes
  constructor
  · rintro ⟨a, first, second, rfl, ha, hb, rfl⟩
    rw [List.append_nil]
    exact ⟨a, ha, hb⟩
  · rintro ⟨a, ha, hb⟩
    exact ⟨a, bytes, [], (List.append_nil bytes).symm, ha, hb, rfl⟩

theorem map {f : α → β} (h : Recognizes reader form) :
    Recognizes (do return f (← reader)) fun b bytes => ∃ a, b = f a ∧ form a bytes := by
  apply (h.ends fun a => .pure (f a)).congr
  intro b bytes
  exact exists_congr fun _ => and_comm

/-- A step that gives the value, if there is one. -/
theorem allowed {b : β} {allows : β → Prop} (h : ∀ c, allows c ↔ c = b) :
    Recognizes (Pure.pure b : Reader β) fun c bytes => allows c ∧ bytes = [] :=
  (Recognizes.pure b).congr fun c _ => and_congr_left' (h c).symm

theorem refused {e : CodecError} {allows : β → Prop} (h : ∀ c, ¬ allows c) :
    Recognizes (throw e : Reader β) fun c bytes => allows c ∧ bytes = [] :=
  (Recognizes.fail e).congr fun c _ => ⟨False.elim, fun hc => h c hc.1⟩

end Recognizes

theorem recognizes_next : Recognizes Reader.next fun b bytes => bytes = [b] := by
  intro bytes ending b after
  rw [Reader.next]
  constructor
  · intro h
    cases bytes with
    | nil => cases h
    | cons first rest =>
      injection h with hpair
      injection hpair with hfirst hafter
      exact ⟨[first], rest, rfl, by rw [hfirst], hafter.symm⟩
  · rintro ⟨taken, rest, rfl, rfl, rfl⟩
    rfl

theorem recognizes_take (n : Nat) :
    Recognizes (Reader.take n) fun data bytes => data = bytes ∧ bytes.length = n := by
  intro bytes ending data after
  rw [Reader.take]
  constructor
  · intro h
    by_cases hn : n ≤ bytes.length
    · rw [if_pos hn] at h
      injection h with hpair
      injection hpair with hdata hafter
      exact ⟨bytes.take n, bytes.drop n, (List.take_append_drop n bytes).symm,
        ⟨hdata.symm, List.length_take_of_le hn⟩, hafter.symm⟩
    · rw [if_neg hn] at h
      cases h
  · rintro ⟨taken, rest, rfl, ⟨rfl, rfl⟩, rfl⟩
    rw [if_pos (by simp), List.take_left, List.drop_left]

/-! ## Integers

The groups of a varint are taken one at a time, so its form is taken apart in the same way: one byte
without the high bit, or one with it and a form with room for one group less. -/

namespace Varint

theorem grouped_zero {z : Nat} {bytes : List UInt8} :
    Grouped 0 z bytes ↔ ∃ b, bytes = [b] ∧ b.toNat ≤ 1 ∧ z = b.toNat := by
  constructor
  · rintro ⟨hshort, ⟨before, last, rfl, -, hlast⟩, htop, hz⟩
    have hbefore : before = [] := by
      rw [List.length_append, List.length_singleton] at hshort
      exact List.eq_nil_of_length_eq_zero (by omega)
    subst hbefore
    rw [List.nil_append, number, number] at hz
    exact ⟨last, rfl, htop last rfl, by omega⟩
  · rintro ⟨b, rfl, hb, rfl⟩
    refine ⟨Nat.le_refl 1, ⟨[], b, rfl, fun _ h => absurd h List.not_mem_nil, by omega⟩, ?_, ?_⟩
    · intro b' h
      injection h with h
      rw [← h]
      exact hb
    · rw [number, number]
      omega

theorem grouped_succ {room z : Nat} {bytes : List UInt8} :
    Grouped (room + 1) z bytes ↔ ∃ b rest, bytes = b :: rest ∧
      (b.toNat < 128 ∧ rest = [] ∧ z = b.toNat ∨
        128 ≤ b.toNat ∧ ∃ m, Grouped room m rest ∧ z = b.toNat - 128 + 128 * m) := by
  constructor
  · rintro ⟨hshort, ⟨before, last, rfl, hbefore, hlast⟩, htop, hz⟩
    cases before with
    | nil =>
      rw [List.nil_append, number, number] at hz
      exact ⟨last, [], rfl, .inl ⟨hlast, rfl, by omega⟩⟩
    | cons b before =>
      have hb : 128 ≤ b.toNat := hbefore b List.mem_cons_self
      have hlt := b.toNat_lt
      rw [List.cons_append, number] at hz
      refine ⟨b, before ++ [last], rfl, .inr ⟨hb, number (before ++ [last]), ?_, by omega⟩⟩
      refine ⟨by simpa using hshort, ⟨before, last, rfl, ?_, hlast⟩, htop, rfl⟩
      exact fun c hc => hbefore c (List.mem_cons_of_mem _ hc)
  · rintro ⟨b, rest, rfl, ⟨hb, rfl, rfl⟩ | ⟨hb, m, hm, rfl⟩⟩
    · refine ⟨by simp, ⟨[], b, rfl, fun _ h => absurd h List.not_mem_nil, hb⟩, ?_, ?_⟩
      · intro c hc
        rw [List.getElem?_cons_succ] at hc
        cases hc
      · rw [number, number]
        omega
    · have hlt := b.toNat_lt
      obtain ⟨hshort, ⟨before, last, rfl, hbefore, hlast⟩, htop, rfl⟩ := hm
      refine ⟨by simpa using hshort, ⟨b :: before, last, rfl, ?_, hlast⟩, htop, ?_⟩
      · exact List.forall_mem_cons.mpr ⟨hb, hbefore⟩
      · rw [number]
        omega

theorem Grouped.lt {room z : Nat} {bytes : List UInt8} (h : Grouped room z bytes) :
    z < 2 * 128 ^ room := by
  induction room generalizing z bytes with
  | zero =>
    obtain ⟨b, -, hb, rfl⟩ := grouped_zero.mp h
    omega
  | succ room ih =>
    rw [Nat.pow_succ]
    have hpos : 0 < 128 ^ room := Nat.pow_pos (by omega)
    obtain ⟨b, rest, -, ⟨hb, -, rfl⟩ | ⟨-, m, hm, rfl⟩⟩ := grouped_succ.mp h
    · omega
    · have := ih hm
      have := b.toNat_lt
      omega

/-- The last group that there can be holds one bit. -/
theorem recognizes_bit (b : UInt8) :
    Recognizes (if b.toNat ≤ 1 then Pure.pure b.toNat else throw .invalidVarint : Reader Nat)
      fun z bytes => (b.toNat ≤ 1 ∧ z = b.toNat) ∧ bytes = [] := by
  by_cases hb : b.toNat ≤ 1
  · rw [if_pos hb]
    exact .allowed fun z => ⟨And.right, fun hz => ⟨hb, hz⟩⟩
  · rw [if_neg hb]
    exact .refused fun z hz => hb hz.1

/-- Behind any other group there is nothing, or as many as its high bit calls for. -/
theorem recognizes_group {room : Nat} (h : Recognizes (readGroups room) (Grouped room))
    (b : UInt8) :
    Recognizes (if b.toNat < 128 then Pure.pure b.toNat
        else do return b.toNat - 128 + 128 * (← readGroups room) : Reader Nat)
      fun z bytes => b.toNat < 128 ∧ bytes = [] ∧ z = b.toNat ∨
        128 ≤ b.toNat ∧ ∃ m, Grouped room m bytes ∧ z = b.toNat - 128 + 128 * m := by
  by_cases hb : b.toNat < 128
  · rw [if_pos hb]
    apply (Recognizes.pure b.toNat).congr
    intro z bytes
    constructor
    · rintro ⟨hz, hbytes⟩
      exact .inl ⟨hb, hbytes, hz⟩
    · rintro (⟨-, hbytes, hz⟩ | ⟨hge, -⟩)
      · exact ⟨hz, hbytes⟩
      · exact absurd hb (Nat.not_lt.mpr hge)
  · rw [if_neg hb]
    apply (h.map (f := fun m => b.toNat - 128 + 128 * m)).congr
    intro z bytes
    constructor
    · rintro ⟨m, hz, hm⟩
      exact .inr ⟨Nat.not_lt.mp hb, m, hm, hz⟩
    · rintro (⟨hlt, -⟩ | ⟨-, m, hm, hz⟩)
      · exact absurd hlt hb
      · exact ⟨m, hz, hm⟩

theorem recognizes_groups (room : Nat) : Recognizes (readGroups room) (Grouped room) := by
  induction room with
  | zero =>
    rw [readGroups]
    exact (recognizes_next.ends recognizes_bit).congr fun z bytes => grouped_zero.symm
  | succ room ih =>
    rw [readGroups]
    apply (recognizes_next.bind fun b _ _ => recognizes_group ih b).congr
    intro z bytes
    rw [grouped_succ]
    constructor
    · rintro ⟨b, first, rest, rfl, rfl, hcases⟩
      exact ⟨b, rest, rfl, hcases⟩
    · rintro ⟨b, rest, rfl, hcases⟩
      exact ⟨b, [b], rest, rfl, rfl, hcases⟩

@[simp] theorem zigzag_unzigzag {z : Nat} (h : z < 2 ^ (64 : Nat)) : zigzag (unzigzag z) = z := by
  rw [unzigzag, zigzag, Int64.toInt_ofInt_of_le]
  · split <;> split <;> omega
  · split <;> omega
  · split <;> omega

/-- A varint is read as the integer it spells, in the shortest form or not. -/
theorem recognizes_read : Recognizes read Spells := by
  apply ((recognizes_groups moreGroups).map (f := unzigzag)).congr
  intro n bytes
  constructor
  · rintro ⟨z, rfl, hz⟩
    rw [Spells, zigzag_unzigzag hz.lt]
    exact hz
  · intro h
    exact ⟨zigzag n, (unzigzag_zigzag n).symm, h⟩

example : readGroups moreGroups ⟨[0x81, 0x80, 0x00], .ended⟩ = .ok (1, ⟨[], .ended⟩) := rfl

end Varint

/-! ## What must be there -/

/-- What is there, or an error if there is nothing. -/
def demand {α : Type} (error : CodecError) : Option α → Reader α
  | some a => return a
  | none => throw error

theorem readText_eq : readText = (do demand .invalidText (Utf8.decode? (← readBytes))) := by
  apply congrArg (readBytes >>= ·)
  funext data
  cases Utf8.decode? data <;> rfl

theorem readInt_eq : readInt = (do demand .invalidVarint (int32? (← Varint.read))) := by
  apply congrArg (Varint.read >>= ·)
  funext n
  cases int32? n <;> rfl

theorem readIndex_eq {α : Type} (choices : List α) (error : String → CodecError) :
    readIndex choices error = (do
      let n ← Varint.read
      demand (error ("index " ++ toString n.toInt))
        (if n.toInt < 0 then none else choices[n.toInt.toNat]?)) := rfl

theorem recognizes_demand {α : Type} (error : CodecError) (found : Option α) :
    Recognizes (demand error found) fun a bytes => found = some a ∧ bytes = [] := by
  cases found with
  | none =>
    apply Recognizes.refused
    intro a h
    cases h
  | some a =>
    apply Recognizes.allowed
    intro b
    rw [Option.some.injEq, eq_comm]

/-! ## Lengths, texts and choices -/

theorem recognizes_length :
    Recognizes readLength fun m bytes => ∃ n : Int64, Varint.Spells n bytes ∧ n.toInt = m := by
  apply Varint.recognizes_read.ends
  intro n
  by_cases hn : n.toInt < 0
  · rw [if_pos hn]
    exact .refused fun m hm => by omega
  · rw [if_neg hn]
    exact .allowed fun m => by omega

theorem recognizes_bytes : Recognizes readBytes Counted := by
  apply (recognizes_length.bind fun m _ _ => recognizes_take m).congr
  intro data bytes
  constructor
  · rintro ⟨m, mark, taken, rfl, ⟨n, hspelled, hn⟩, rfl, rfl⟩
    exact ⟨n, mark, hspelled, hn, rfl⟩
  · rintro ⟨n, mark, hspelled, hn, rfl⟩
    exact ⟨data.length, mark, data, rfl, ⟨n, hspelled, hn⟩, rfl, rfl⟩

theorem recognizes_text : Recognizes readText Written := by
  rw [readText_eq]
  apply (recognizes_bytes.ends fun data => recognizes_demand .invalidText (Utf8.decode? data)).congr
  intro text bytes
  constructor
  · rintro ⟨data, hcounted, hdata⟩
    rw [Written, Utf8.encode_of_decode? hdata]
    exact hcounted
  · intro hwritten
    exact ⟨Utf8.encode text, hwritten, Utf8.decode?_encode text⟩

theorem recognizes_boolean :
    Recognizes readBoolean fun b bytes => b = false ∧ bytes = [0] ∨ b = true ∧ bytes = [1] := by
  have hbyte : ∀ b : UInt8, Recognizes
      (if b = 0 then Pure.pure false
        else if b = 1 then Pure.pure true
        else throw (.typeMismatch "boolean" ("byte " ++ toString b.toNat)) : Reader Bool)
      fun c bytes => (c = false ∧ b = 0 ∨ c = true ∧ b = 1) ∧ bytes = [] := by
    intro b
    by_cases hzero : b = 0
    · rw [if_pos hzero]
      exact .allowed fun c => by simp [hzero]
    · rw [if_neg hzero]
      by_cases hone : b = 1
      · rw [if_pos hone]
        exact .allowed fun c => by simp [hone]
      · rw [if_neg hone]
        exact .refused fun c => by simp [hzero, hone]
  apply (recognizes_next.ends hbyte).congr
  intro c bytes
  constructor
  · rintro ⟨b, rfl, ⟨rfl, rfl⟩ | ⟨rfl, rfl⟩⟩
    · exact .inl ⟨rfl, rfl⟩
    · exact .inr ⟨rfl, rfl⟩
  · rintro (⟨rfl, rfl⟩ | ⟨rfl, rfl⟩)
    · exact ⟨0, rfl, .inl ⟨rfl, rfl⟩⟩
    · exact ⟨1, rfl, .inr ⟨rfl, rfl⟩⟩

theorem int32?_eq_some {n : Int64} {m : Int32} : int32? n = some m ↔ n = m.toInt64 := by
  rw [int32?]
  constructor
  · intro h
    split at h
    next heq =>
      injection h with h
      rw [← h, heq]
    next => cases h
  · rintro rfl
    rw [Int32.toInt32_toInt64, if_pos rfl]

theorem recognizes_int : Recognizes readInt fun m bytes => Varint.Spells m.toInt64 bytes := by
  rw [readInt_eq]
  apply (Varint.recognizes_read.ends fun n => recognizes_demand .invalidVarint (int32? n)).congr
  intro m bytes
  constructor
  · rintro ⟨n, hspelled, hn⟩
    rw [← int32?_eq_some.mp hn]
    exact hspelled
  · intro hspelled
    exact ⟨m.toInt64, hspelled, int32?_eq_some.mpr rfl⟩

/-- A number chooses by its value, and a negative one nothing. -/
theorem choice_eq_some {α : Type} {choices : List α} {n : Int} {a : α} :
    (if n < 0 then none else choices[n.toNat]?) = some a ↔
      ∃ i : Nat, n = i ∧ choices[i]? = some a := by
  by_cases hn : n < 0
  · rw [if_pos hn]
    constructor
    · intro h
      cases h
    · rintro ⟨i, rfl, -⟩
      exact absurd hn (Int.not_lt.mpr (Int.natCast_nonneg i))
  · rw [if_neg hn]
    constructor
    · exact fun h => ⟨n.toNat, (Int.toNat_of_nonneg (Int.not_lt.mp hn)).symm, h⟩
    · rintro ⟨i, rfl, ha⟩
      rw [Int.toNat_natCast]
      exact ha

theorem recognizes_index {α : Type} (choices : List α) (error : String → CodecError) :
    Recognizes (readIndex choices error) (Chosen choices) := by
  rw [readIndex_eq]
  apply (Varint.recognizes_read.ends fun n => recognizes_demand _ _).congr
  intro a bytes
  constructor
  · rintro ⟨n, hspelled, ha⟩
    obtain ⟨i, hi, ha⟩ := choice_eq_some.mp ha
    exact ⟨n, i, hspelled, hi, ha⟩
  · rintro ⟨n, i, hspelled, hi, ha⟩
    exact ⟨n, hspelled, choice_eq_some.mpr ⟨i, hi, ha⟩⟩

theorem demand_map {α β : Type} (f : α → β) (error : CodecError) (found : Option α) :
    demand error (found.map f) = (do return f (← demand error found)) := by
  cases found <;> rfl

theorem readIndex_map {α β : Type} (f : α → β) (choices : List α) (error : String → CodecError) :
    readIndex (choices.map f) error = (do return f (← readIndex choices error)) := by
  have hchoice : ∀ n : Int, (if n < 0 then none else (choices.map f)[n.toNat]?)
      = (if n < 0 then none else choices[n.toNat]?).map f := by
    intro n
    rw [List.getElem?_map]
    by_cases hn : n < 0
    · rw [if_pos hn, if_pos hn, Option.map_none]
    · rw [if_neg hn, if_neg hn]
  funext source
  rw [readIndex_eq, readIndex_eq]
  show (Varint.read source >>= _) = ((Varint.read source >>= _) >>= _)
  cases Varint.read source with
  | error e => rfl
  | ok p =>
    show demand _ _ p.2 = _
    rw [hchoice, demand_map]
    rfl

end FieldSeal.Wire
