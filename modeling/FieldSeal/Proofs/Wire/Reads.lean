import FieldSeal.ByteOrder
import FieldSeal.Utf8
import FieldSeal.Wire.Decode
import FieldSeal.Wire.Encode

/-!
# Readers that take back what was written

`Reads reader bytes fits a` says what a reader does with certain bytes at the front of a source,
whatever comes after them: it gives `a` and leaves the rest, and where the item limit stands
against that (`¬ fits`), it ends in the error about the limit and in no other. The rest is
quantified over, so a reader with this property knows by itself where to stop, and readers with it
can be put one after the other (`Reads.bind`). That is all that a round trip needs of them.

The limit is part of the relation and not a hypothesis, because a value that is too large somewhere
is still written, and a reader meets everything before that place first.
-/

set_option autoImplicit false

namespace FieldSeal.Wire

/- A power of natural numbers is that of core here, whatever else is in scope. -/
attribute [local instance (high)] instPowNat

/-- In front of any other bytes, the reader takes these and gives the value, if that fits the item
limit; else it fails for the limit. -/
def Reads {α : Type} (reader : Reader α) (bytes : List UInt8) (fits : Prop) (a : α) : Prop :=
  ∀ (rest : List UInt8) (ending : Ending),
    (fits → reader ⟨bytes ++ rest, ending⟩ = .ok (a, ⟨rest, ending⟩)) ∧
      (¬ fits → ∃ count, reader ⟨bytes ++ rest, ending⟩ = .error (.collectionTooLarge count))

namespace Reads

variable {α β : Type} {reader : Reader α} {bytes : List UInt8} {fits : Prop} {a : α}

theorem intro (h : ∀ rest ending, reader ⟨bytes ++ rest, ending⟩ = .ok (a, ⟨rest, ending⟩)) :
    Reads reader bytes True a := by
  intro rest ending
  exact ⟨fun _ => h rest ending, fun hn => absurd trivial hn⟩

theorem eq_ok (h : Reads reader bytes True a) (rest : List UInt8) (ending : Ending) :
    reader ⟨bytes ++ rest, ending⟩ = .ok (a, ⟨rest, ending⟩) :=
  (h rest ending).1 trivial

theorem congr {fits' : Prop} (h : Reads reader bytes fits a) (hf : fits ↔ fits') :
    Reads reader bytes fits' a := by
  intro rest ending
  obtain ⟨hok, herror⟩ := h rest ending
  exact ⟨fun h' => hok (hf.mpr h'), fun hn => herror fun h' => hn (hf.mp h')⟩

theorem pure (a : α) : Reads (Pure.pure a : Reader α) [] True a :=
  .intro fun _ _ => rfl

theorem bind {f : α → Reader β} {bytes' : List UInt8} {fits' : Prop} {b : β}
    (h : Reads reader bytes fits a) (hf : Reads (f a) bytes' fits' b) :
    Reads (reader >>= f) (bytes ++ bytes') (fits ∧ fits') b := by
  intro rest ending
  rw [List.append_assoc]
  obtain ⟨hok, herror⟩ := h (bytes' ++ rest) ending
  constructor
  · intro hfits
    have hrun : (reader >>= f) ⟨bytes ++ (bytes' ++ rest), ending⟩
        = f a ⟨bytes' ++ rest, ending⟩ := by
      show (reader _ >>= _) = _
      rw [hok hfits.1]
      rfl
    rw [hrun]
    exact (hf rest ending).1 hfits.2
  · intro hn
    -- The first reader stops at the limit, or the second one does after it.
    by_cases hfits : fits
    · obtain ⟨count, hc⟩ := (hf rest ending).2 fun hfits' => hn ⟨hfits, hfits'⟩
      refine ⟨count, ?_⟩
      show (reader _ >>= _) = _
      rw [hok hfits]
      exact hc
    · obtain ⟨count, hc⟩ := herror hfits
      refine ⟨count, ?_⟩
      show (reader _ >>= _) = _
      rw [hc]
      rfl

/-- A first reader that meets no limit does not change whether the whole fits. -/
theorem followed {f : α → Reader β} {bytes' : List UInt8} {fits' : Prop} {b : β}
    (h : Reads reader bytes True a) (hf : Reads (f a) bytes' fits' b) :
    Reads (reader >>= f) (bytes ++ bytes') fits' b :=
  (h.bind hf).congr (iff_of_eq (true_and fits'))

/-- A step after the reader that takes no bytes of its own. -/
theorem ends {f : α → Reader β} {b : β} (h : Reads reader bytes fits a)
    (hf : Reads (f a) [] True b) : Reads (reader >>= f) bytes fits b := by
  have hb := h.bind hf
  rw [List.append_nil] at hb
  exact hb.congr (iff_of_eq (and_true fits))

theorem map {f : α → β} (h : Reads reader bytes fits a) :
    Reads (do return f (← reader)) bytes fits (f a) :=
  h.ends (.pure (f a))

end Reads

theorem reads_next (b : UInt8) : Reads Reader.next [b] True b :=
  .intro fun _ _ => rfl

theorem reads_take (bytes : List UInt8) : Reads (Reader.take bytes.length) bytes True bytes := by
  apply Reads.intro
  intro rest ending
  rw [Reader.take, if_pos (by simp), List.take_left, List.drop_left]

/-! ## Numbers of a fixed width -/

@[simp] theorem ofLittle_little (width n : Nat) (h : n < 256 ^ width) :
    ByteOrder.ofLittle (ByteOrder.little width n) = n := by
  induction width generalizing n with
  | zero =>
    rw [Nat.pow_zero] at h
    rw [ByteOrder.little, ByteOrder.ofLittle]
    omega
  | succ width ih =>
    rw [Nat.pow_succ] at h
    have hlow : (UInt8.ofNat (n % 256)).toNat = n % 256 :=
      UInt8.toNat_ofNat_of_lt' (show n % 256 < 256 by omega)
    rw [ByteOrder.little, ByteOrder.ofLittle, ih _ (by omega), hlow]
    omega

theorem reads_little {α : Type} {f : Nat → α} (width : Nat) {n : Nat} (h : n < 256 ^ width) :
    Reads (do return f (ByteOrder.ofLittle (← Reader.take width))) (ByteOrder.little width n) True
      (f n) := by
  have hr := (reads_take (ByteOrder.little width n)).map
    (f := fun data => f (ByteOrder.ofLittle data))
  rw [ByteOrder.length_little, ofLittle_little width n h] at hr
  exact hr

/-! ## Varints

The zig-zag numbers are those below `2^64`, and each group takes seven bits off, so a number that
has `room` groups left after the first is below `2 * 128^room`: at no room it is 0 or 1, which is
all that the last byte may hold. That bound is what the induction over the groups carries. -/

namespace Varint

theorem zigzag_lt (n : Int64) : zigzag n < 2 ^ (64 : Nat) := by
  have := n.le_toInt
  have := n.toInt_lt
  rw [zigzag]
  split <;> omega

@[simp] theorem unzigzag_zigzag (n : Int64) : unzigzag (zigzag n) = n := by
  have h : (if zigzag n % 2 = 0 then ((zigzag n / 2 : Nat) : Int) else -(zigzag n / 2 : Nat) - 1)
      = n.toInt := by
    rw [zigzag]
    by_cases hn : 0 ≤ n.toInt
    · rw [if_pos hn]
      split <;> omega
    · rw [if_neg hn]
      split <;> omega
  rw [unzigzag, h, Int64.ofInt_toInt]

theorem reads_groups {room z : Nat} (h : z < 2 * 128 ^ room) :
    Reads (readGroups room) (groups room z) True z := by
  induction room generalizing z with
  | zero =>
    have hb : (UInt8.ofNat z).toNat = z :=
      UInt8.toNat_ofNat_of_lt' (show z < 256 by omega)
    rw [groups, readGroups]
    refine (reads_next (UInt8.ofNat z)).ends ?_
    rw [hb, if_pos (by omega)]
    exact .pure z
  | succ room ih =>
    rw [groups, readGroups]
    split
    next hz =>
      have hb : (UInt8.ofNat z).toNat = z :=
        UInt8.toNat_ofNat_of_lt' (show z < 256 by omega)
      refine (reads_next (UInt8.ofNat z)).ends ?_
      rw [hb, if_pos hz]
      exact .pure z
    next hz =>
      have hb : (UInt8.ofNat (z % 128 + 128)).toNat = z % 128 + 128 :=
        UInt8.toNat_ofNat_of_lt' (show z % 128 + 128 < 256 by omega)
      have hrest := ih (z := z / 128) (by rw [Nat.pow_succ] at h; omega)
      refine (reads_next (UInt8.ofNat (z % 128 + 128))).followed ?_
      rw [hb, if_neg (by omega)]
      have hm := hrest.map (f := fun m => z % 128 + 128 - 128 + 128 * m)
      rwa [show z % 128 + 128 - 128 + 128 * (z / 128) = z by omega] at hm

/-- **An integer is read back from its varint**, in front of anything. -/
theorem reads (n : Int64) : Reads read (encode n) True n := by
  have hz : zigzag n < 2 * 128 ^ moreGroups := zigzag_lt n
  have h := (reads_groups hz).map (f := unzigzag)
  rwa [unzigzag_zigzag] at h

end Varint

end FieldSeal.Wire
