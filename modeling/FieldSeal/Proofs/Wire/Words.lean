import FieldSeal.Proofs.Wire.Recognizes

/-!
# Varints on a machine

`Wire.Varint` says what a varint is by arithmetic without bounds. A machine has words of 64 bits and
a buffer of ten bytes, and three things can go wrong on it that arithmetic does not show: a byte put
behind the end of the buffer, a shift by the width of the word or more, and a negation that leaves
the range. `Words.write` and `Words.read` are the loops on such a machine, with a `Fault` for each of
the three; that they never fault and come to what the arithmetic says is `Words.write_eq` and
`Words.read_eq`.

The loop that writes carries the part of the number that is left, below `2 * 128 ^ room`, so there is
room for one more byte as long as something is left. The loop that reads carries the part that has
been read, below `128 ^ i`, so the bits of the next group come above all of its bits.

What bytes are read at all, as what, and what is wrong with all others is `Varint.codec_exact`.
-/

set_option autoImplicit false

namespace FieldSeal.Wire

/- A power of natural numbers is that of core here, whatever else is in scope. -/
attribute [local instance (high)] instPowNat

namespace Varint

/-! ## One group at a time -/

theorem readGroups_zero (b : UInt8) (rest : List UInt8) (ending : Ending) :
    readGroups 0 ⟨b :: rest, ending⟩ =
      if b.toNat ≤ 1 then .ok (b.toNat, ⟨rest, ending⟩) else .error .invalidVarint := by
  rw [readGroups]
  show (if b.toNat ≤ 1 then _ else _ : Reader Nat) ⟨rest, ending⟩ = _
  split <;> rfl

theorem readGroups_succ (room : Nat) (b : UInt8) (rest : List UInt8) (ending : Ending) :
    readGroups (room + 1) ⟨b :: rest, ending⟩ =
      if b.toNat < 128 then .ok (b.toNat, ⟨rest, ending⟩)
      else (readGroups room ⟨rest, ending⟩).map fun read =>
        (b.toNat - 128 + 128 * read.1, read.2) := by
  rw [readGroups]
  show (if b.toNat < 128 then _ else _ : Reader Nat) ⟨rest, ending⟩ = _
  split
  · rfl
  · show (readGroups room ⟨rest, ending⟩ >>= _) = _
    cases readGroups room ⟨rest, ending⟩ <;> rfl

theorem read_eq_map (source : Source) :
    read source = (readGroups moreGroups source).map fun read => (unzigzag read.1, read.2) := by
  show (readGroups moreGroups source >>= _) = _
  cases readGroups moreGroups source <;> rfl

end Varint

namespace Words

/-! ## The loops -/

/-- What a machine cannot do. -/
inductive Fault where
  /-- A byte behind the end of a buffer. -/
  | index
  /-- A shift by the width of the word or more. -/
  | shift
  /-- A result out of range. -/
  | overflow
deriving DecidableEq, Repr

/-- A result, unless the machine stops. -/
abbrev Checked (α : Type) := Except Fault α

def store (buffer : List UInt8) (i : Nat) (b : UInt8) : Checked (List UInt8) :=
  if i < buffer.length then .ok (buffer.set i b) else .error .index

/-- Shifts by a constant are less than the width as they stand; this is for those by a number that the
loop computes. -/
def shiftLeft (x : UInt64) (n : Nat) : Checked UInt64 :=
  if n < 64 then .ok (x <<< UInt64.ofNat n) else .error .shift

def negate (n : Int64) : Checked Int64 :=
  if n = Int64.minValue then .error .overflow else .ok (-n)

/-- The zig-zag number of an integer, by its sign alone: all bits of a negative one are turned. -/
def zigzag (n : Int64) : UInt64 := (n.toUInt64 <<< 1) ^^^ (n >>> 63).toUInt64

def unzigzag (z : UInt64) : Checked Int64 := do
  return (z >>> 1).toInt64 ^^^ (← negate (z &&& 1).toInt64)

@[simp] theorem toNat_shiftRight (z : UInt64) : (z >>> 7).toNat = z.toNat / 128 := by
  rw [UInt64.toNat_shiftRight]
  exact Nat.shiftRight_eq_div_pow _ 7

def bufferLength : Nat := 10

/-- Puts the groups of a word into the buffer behind those that are there, and gives the part of the
buffer that is filled. -/
def writeLoop (z : UInt64) (buffer : List UInt8) (filled : Nat) : Checked (List UInt8) := do
  let low := (z &&& 0x7f).toUInt8
  if h : z >>> 7 = 0 then
    return (← store buffer filled low).take (filled + 1)
  else
    writeLoop (z >>> 7) (← store buffer filled (low ||| 0x80)) (filled + 1)
termination_by z.toNat
decreasing_by
  have hrest := toNat_shiftRight z
  have hpos : (z >>> 7).toNat ≠ 0 := fun he => h (UInt64.toNat_inj.mp he)
  omega

def write (n : Int64) : Checked (List UInt8) :=
  writeLoop (zigzag n) (List.replicate bufferLength 0) 0

/-- Reads so many groups at most, after `i` groups that make the word. -/
def readLoop : Nat → Nat → UInt64 → Source → Checked (Except CodecError (Int64 × Source))
  | 0, _, _, _ => .ok (.error .invalidVarint)
  | rounds + 1, i, z, source =>
    match Reader.next source with
    | .error e => .ok (.error e)
    | .ok (b, source) =>
      if i = bufferLength - 1 ∧ 1 < b then .ok (.error .invalidVarint)
      else do
        let z := z ||| (← shiftLeft (b &&& 0x7f).toUInt64 (7 * i))
        if b &&& 0x80 = 0 then return .ok (← unzigzag z, source)
        else readLoop rounds (i + 1) z source

def read (source : Source) : Checked (Except CodecError (Int64 × Source)) :=
  readLoop bufferLength 0 0 source

/-! ## Bits and numbers -/

@[simp] theorem toNat_low (z : UInt64) : (z &&& 0x7f).toUInt8.toNat = z.toNat % 128 := by
  have hand : z.toNat &&& 127 = z.toNat % 128 := Nat.and_two_pow_sub_one_eq_mod z.toNat 7
  rw [UInt64.toNat_toUInt8, UInt64.toNat_and]
  show (z.toNat &&& 127) % 256 = _
  omega

theorem toNat_or_high {b : UInt8} (h : b.toNat < 128) : (b ||| 0x80).toNat = b.toNat + 128 := by
  have hor : 128 + b.toNat = 128 ||| b.toNat := Nat.two_pow_add_eq_or_of_lt (i := 7) h 1
  rw [UInt8.toNat_or, Nat.or_comm]
  show 128 ||| b.toNat = _
  omega

theorem high_eq_zero (b : UInt8) : b &&& 0x80 = 0 ↔ b.toNat < 128 := by
  have hall : ∀ i : Fin 256, UInt8.ofNat i &&& 0x80 = 0 ↔ i.val < 128 := by decide +kernel
  have hb := hall ⟨b.toNat, b.toNat_lt⟩
  rwa [UInt8.ofNat_toNat] at hb

@[simp] theorem toNat_group (b : UInt8) : (b &&& 0x7f).toUInt64.toNat = b.toNat % 128 := by
  rw [UInt8.toNat_toUInt64, UInt8.toNat_and]
  exact Nat.and_two_pow_sub_one_eq_mod b.toNat 7

/-- The sign of an integer, over all bits. -/
theorem shiftRight_sign (n : Int64) : n >>> 63 = if n.toInt < 0 then -1 else 0 := by
  have hlow := n.le_toInt
  have hhigh := n.toInt_lt
  have hshift : (n >>> 63).toInt = n.toInt / 2 ^ 63 := by
    rw [← Int64.toInt_toBitVec, Int64.toBitVec_shiftRight, BitVec.sshiftRight',
      BitVec.toInt_sshiftRight]
    exact Int.shiftRight_eq_div_pow _ 63
  apply Int64.toInt_inj.mp
  rw [hshift]
  split
  · show _ = (-1 : Int)
    omega
  · show _ = (0 : Int)
    omega

theorem toNat_toUInt64 (n : Int64) :
    (n.toUInt64.toNat : Int) = if n.toInt < 0 then n.toInt + 0x10000000000000000 else n.toInt := by
  have hcond : n.toInt = if 2 * n.toUInt64.toNat < 2 ^ (64 : Nat) then (n.toUInt64.toNat : Int)
      else n.toUInt64.toNat - (2 ^ (64 : Nat) : Nat) := BitVec.toInt_eq_toNat_cond n.toBitVec
  have hlt := n.toUInt64.toNat_lt
  split at hcond <;> split <;> omega

@[simp] theorem toNat_zigzag (n : Int64) : (zigzag n).toNat = Varint.zigzag n := by
  have hn := toNat_toUInt64 n
  have hlow := n.le_toInt
  have hhigh := n.toInt_lt
  have hdouble : (n.toUInt64 <<< 1).toNat = n.toUInt64.toNat * 2 % 0x10000000000000000 := by
    rw [UInt64.toNat_shiftLeft]
    exact congrArg (· % _) (Nat.shiftLeft_eq _ 1)
  rw [zigzag, Varint.zigzag, shiftRight_sign]
  by_cases h : n.toInt < 0
  · rw [if_pos h] at hn ⊢
    rw [if_neg (by omega), show (-1 : Int64).toUInt64 = -1 from rfl, UInt64.xor_neg_one,
      UInt64.toNat_not, hdouble, UInt64.size]
    omega
  · rw [if_neg h] at hn ⊢
    rw [if_pos (by omega), show (0 : Int64).toUInt64 = 0 from rfl, UInt64.xor_zero, hdouble]
    omega

/-- The lowest bit is the sign, and its negation is in range. -/
theorem unzigzag_eq (z : UInt64) : unzigzag z = .ok (Varint.unzigzag z.toNat) := by
  have hhalf : (z >>> 1).toInt64 = Int64.ofInt (z.toNat / 2 : Nat) := by
    have hdiv : (z >>> 1).toNat = z.toNat / 2 := by
      rw [UInt64.toNat_shiftRight]
      exact Nat.shiftRight_eq_div_pow _ 1
    rw [← hdiv, Int64.ofInt_eq_ofNat, ← UInt64.toInt64_ofNat', UInt64.ofNat_toNat]
  have hbit : (z &&& 1).toNat = z.toNat % 2 := by
    rw [UInt64.toNat_and]
    exact Nat.and_two_pow_sub_one_eq_mod z.toNat 1
  rw [unzigzag, Varint.unzigzag]
  rcases Nat.mod_two_eq_zero_or_one z.toNat with heven | hodd
  · have hzero : z &&& 1 = 0 := UInt64.toNat_inj.mp (hbit.trans heven)
    have hnegate : negate (UInt64.toInt64 0) = .ok 0 := if_neg (by decide)
    rw [hzero, hnegate, if_pos heven, hhalf]
    exact congrArg _ Int64.xor_zero
  · have hone : z &&& 1 = 1 := UInt64.toNat_inj.mp (hbit.trans hodd)
    have hnegate : negate (UInt64.toInt64 1) = .ok (-1) := if_neg (by decide)
    rw [hone, hnegate, if_neg (by omega), hhalf, Int64.ofInt_sub, Int64.ofInt_neg]
    exact congrArg _ (Int64.xor_neg_one.trans (Int64.not_eq_neg_sub _))

/-! ## The loops and the arithmetic -/

theorem take_set {buffer : List UInt8} {i : Nat} (h : i < buffer.length) (b : UInt8) :
    (buffer.set i b).take (i + 1) = buffer.take i ++ [b] := by
  rw [List.take_succ_eq_append_getElem (by rwa [List.length_set]), List.getElem_set_self,
    List.take_set_of_le (Nat.le_refl i)]

theorem groups_of_lt {room z : Nat} (h : z < 128) : Varint.groups room z = [UInt8.ofNat z] := by
  cases room with
  | zero => rfl
  | succ room => rw [Varint.groups, if_pos h]

/-- **The buffer is large enough**: behind what is filled there is a place for every group that is
left. -/
theorem writeLoop_eq {room filled : Nat} {z : UInt64} {buffer : List UInt8}
    (hz : z.toNat < 2 * 128 ^ room) (hroom : filled + room < buffer.length) :
    writeLoop z buffer filled = .ok (buffer.take filled ++ Varint.groups room z.toNat) := by
  have hlow := toNat_low z
  have hrest := toNat_shiftRight z
  have hfilled : filled < buffer.length := by omega
  have hstore : ∀ b, store buffer filled b = .ok (buffer.set filled b) := fun _ => if_pos hfilled
  rw [writeLoop, hstore, hstore]
  by_cases hlast : z.toNat < 128
  · have hzero : z >>> 7 = 0 := UInt64.toNat_inj.mp (hrest.trans (Nat.div_eq_of_lt hlast))
    have hbyte : (z &&& 0x7f).toUInt8 = UInt8.ofNat z.toNat := by
      rw [← UInt8.ofNat_toNat (x := (z &&& 0x7f).toUInt8), hlow, Nat.mod_eq_of_lt hlast]
    rw [dif_pos hzero, groups_of_lt hlast, ← hbyte, ← take_set hfilled]
    rfl
  · have hmore : z >>> 7 ≠ 0 := by
      intro h
      rw [h] at hrest
      have : z.toNat / 128 = 0 := hrest.symm
      omega
    have hbyte : (z &&& 0x7f).toUInt8 ||| 0x80 = UInt8.ofNat (z.toNat % 128 + 128) := by
      rw [← UInt8.ofNat_toNat (x := (z &&& 0x7f).toUInt8 ||| 0x80),
        toNat_or_high (by rw [hlow]; omega), hlow]
    cases room with
    | zero =>
      -- At no room the number is 0 or 1.
      omega
    | succ room =>
      have hsmaller : (z >>> 7).toNat < 2 * 128 ^ room := by
        rw [hrest]
        rw [Nat.pow_succ] at hz
        omega
      have hplaces : filled + 1 + room
          < (buffer.set filled ((z &&& 0x7f).toUInt8 ||| 0x80)).length := by
        rw [List.length_set]
        omega
      have h := writeLoop_eq hsmaller hplaces
      rw [dif_neg hmore, Varint.groups, if_neg hlast, ← hrest, ← hbyte]
      rw [take_set hfilled, List.append_assoc] at h
      exact h
termination_by room

theorem write_eq (n : Int64) : write n = .ok (Varint.encode n) := by
  have hz : (zigzag n).toNat < 2 * 128 ^ Varint.moreGroups := by
    rw [toNat_zigzag]
    exact Varint.zigzag_lt n
  have hplaces : 0 + Varint.moreGroups < (List.replicate bufferLength (0 : UInt8)).length := by
    decide
  have h := writeLoop_eq hz hplaces
  rw [toNat_zigzag, List.take_zero, List.nil_append] at h
  exact h

/-- **No bit of a group is lost**: the bits of the tenth group that are above the word are zero. -/
theorem group_lt {i : Nat} {b : UInt8} (hi : i ≤ 9) (hb : i = 9 → b.toNat ≤ 1) :
    2 ^ (7 * i) * (b.toNat % 128) < 2 ^ (64 : Nat) := by
  by_cases hlast : i = 9
  · subst hlast
    have := hb rfl
    omega
  · have hpow : 2 ^ (7 * i) ≤ 2 ^ (56 : Nat) := Nat.pow_le_pow_right (by decide) (by omega)
    calc 2 ^ (7 * i) * (b.toNat % 128)
      _ ≤ 2 ^ (56 : Nat) * 128 := Nat.mul_le_mul hpow (by omega)
      _ < 2 ^ (64 : Nat) := by decide

/-- The bits of a group come above all those that have been read, so joining them is adding. -/
theorem join_group {i : Nat} {z : UInt64} {b : UInt8} (hi : i ≤ 9) (hb : i = 9 → b.toNat ≤ 1)
    (hz : z.toNat < 2 ^ (7 * i)) : ∃ y, shiftLeft (b &&& 0x7f).toUInt64 (7 * i) = .ok y ∧
      (z ||| y).toNat = z.toNat + 2 ^ (7 * i) * (b.toNat % 128) := by
  refine ⟨_, if_pos (by omega), ?_⟩
  have hshift : (UInt64.ofNat (7 * i)).toNat % 64 = 7 * i := by
    rw [UInt64.toNat_ofNat']
    omega
  rw [UInt64.toNat_or, UInt64.toNat_shiftLeft, toNat_group, hshift, Nat.shiftLeft_eq, Nat.mul_comm,
    Nat.mod_eq_of_lt (group_lt hi hb), Nat.or_comm, ← Nat.two_pow_add_eq_or_of_lt hz, Nat.add_comm]

/-- A round in which a group is taken: it is the last one, or the loop goes on with a longer word. -/
theorem readLoop_next (rounds : Nat) {i : Nat} {z : UInt64} {b : UInt8} (hi : i ≤ 9)
    (hb : i = 9 → b.toNat ≤ 1) (hz : z.toNat < 2 ^ (7 * i)) (rest : List UInt8) (ending : Ending) :
    ∃ joined : UInt64, joined.toNat = z.toNat + 2 ^ (7 * i) * (b.toNat % 128) ∧
      readLoop (rounds + 1) i z ⟨b :: rest, ending⟩ =
        if b.toNat < 128 then .ok (.ok (Varint.unzigzag joined.toNat, ⟨rest, ending⟩))
        else readLoop rounds (i + 1) joined ⟨rest, ending⟩ := by
  obtain ⟨y, hy, hjoined⟩ := join_group hi hb hz
  have htaken : ¬ (i = bufferLength - 1 ∧ 1 < b) := by
    rintro ⟨hlast, hlarge⟩
    exact Nat.not_lt.mpr (hb hlast) (UInt8.lt_iff_toNat_lt.mp hlarge)
  refine ⟨z ||| y, hjoined, ?_⟩
  show (if i = bufferLength - 1 ∧ 1 < b then _ else _) = _
  rw [if_neg htaken, hy]
  show (if b &&& 0x80 = 0 then _ else _) = _
  simp only [high_eq_zero, unzigzag_eq]
  rfl

/-- **Each round takes one group**, which is worth `2 ^ (7 * i)` times itself. -/
theorem readLoop_eq {room i : Nat} {z : UInt64} (hi : i + room = 9) (hz : z.toNat < 2 ^ (7 * i))
    (source : Source) :
    readLoop (room + 1) i z source = .ok ((Varint.readGroups room source).map fun read =>
      (Varint.unzigzag (z.toNat + 2 ^ (7 * i) * read.1), read.2)) := by
  obtain ⟨bytes, ending⟩ := source
  induction bytes generalizing room i z with
  | nil => cases room <;> rfl
  | cons b rest ih =>
    by_cases hrefused : i = 9 ∧ 1 < b.toNat
    · obtain ⟨rfl, hlarge⟩ := hrefused
      obtain rfl : room = 0 := by omega
      rw [Varint.readGroups_zero, if_neg (Nat.not_le.mpr hlarge)]
      show (if 9 = bufferLength - 1 ∧ 1 < b then _ else _) = _
      rw [if_pos ⟨rfl, UInt8.lt_iff_toNat_lt.mpr hlarge⟩]
      rfl
    · have hb : i = 9 → b.toNat ≤ 1 := fun h => Nat.not_lt.mp fun hlarge => hrefused ⟨h, hlarge⟩
      obtain ⟨joined, hjoined, hloop⟩ := readLoop_next room (by omega) hb hz rest ending
      rw [hloop]
      by_cases hlast : b.toNat < 128
      · have hread : Varint.readGroups room ⟨b :: rest, ending⟩ = .ok (b.toNat, ⟨rest, ending⟩) := by
          cases room with
          | zero => rw [Varint.readGroups_zero, if_pos (hb hi)]
          | succ room => rw [Varint.readGroups_succ, if_pos hlast]
        rw [if_pos hlast, hread, hjoined, Nat.mod_eq_of_lt hlast]
        rfl
      · obtain ⟨room, rfl⟩ : ∃ r, room = r + 1 := ⟨room - 1, by omega⟩
        have hpow : 2 ^ (7 * (i + 1)) = 2 ^ (7 * i) * 128 := by
          rw [Nat.mul_succ, Nat.pow_add]
        have hlonger : joined.toNat < 2 ^ (7 * (i + 1)) := by
          rw [hjoined, hpow]
          calc z.toNat + 2 ^ (7 * i) * (b.toNat % 128)
            _ < 2 ^ (7 * i) * (b.toNat % 128 + 1) := by rw [Nat.mul_succ]; omega
            _ ≤ 2 ^ (7 * i) * 128 := Nat.mul_le_mul_left _ (by omega)
        have hvalue : ∀ m, joined.toNat + 2 ^ (7 * (i + 1)) * m
            = z.toNat + 2 ^ (7 * i) * (b.toNat - 128 + 128 * m) := by
          intro m
          have hmod : b.toNat % 128 = b.toNat - 128 := by
            have := b.toNat_lt
            omega
          rw [hjoined, hpow, hmod, Nat.mul_add, Nat.mul_assoc, Nat.add_assoc]
        rw [if_neg hlast, ih (by omega) hlonger, Varint.readGroups_succ, if_neg hlast]
        simp only [hvalue]
        cases Varint.readGroups room ⟨rest, ending⟩ <;> rfl

theorem read_eq (source : Source) : read source = .ok (Varint.read source) := by
  have hstart : (0 : UInt64).toNat < 2 ^ (7 * 0) := by decide
  have h := readLoop_eq (show 0 + Varint.moreGroups = 9 from rfl) hstart source
  simp only [UInt64.toNat_zero, Nat.mul_zero, Nat.pow_zero, Nat.one_mul, Nat.zero_add] at h
  rw [Varint.read_eq_map]
  exact h

end Words

namespace Varint

/-! ## All bytes -/

theorem length_groups (room z : Nat) :
    1 ≤ (groups room z).length ∧ (groups room z).length ≤ room + 1 := by
  induction room generalizing z with
  | zero => exact ⟨Nat.le_refl 1, Nat.le_refl 1⟩
  | succ room ih =>
    rw [groups]
    split
    · exact ⟨Nat.le_refl 1, by simp⟩
    · have := ih (z / 128)
      rw [List.length_cons]
      omega

/-- What is written is the shortest form of a number. -/
theorem Grouped.length_groups_le {room z : Nat} {bytes : List UInt8} (h : Grouped room z bytes) :
    (groups room z).length ≤ bytes.length := by
  induction room generalizing z bytes with
  | zero =>
    obtain ⟨b, rfl, -, -⟩ := grouped_zero.mp h
    exact Nat.le_refl 1
  | succ room ih =>
    obtain ⟨b, rest, rfl, ⟨hb, rfl, rfl⟩ | ⟨hb, m, hm, rfl⟩⟩ := grouped_succ.mp h
    · rw [groups, if_pos hb]
      exact Nat.le_refl 1
    · have := b.toNat_lt
      rw [groups]
      split
      · simp
      next hlarge =>
        have hm' : (b.toNat - 128 + 128 * m) / 128 = m := by omega
        rw [hm', List.length_cons, List.length_cons]
        exact Nat.succ_le_succ (ih hm)

/-- The bytes of a varint, with the last one by itself. -/
theorem grouped_iff {room z : Nat} {bytes : List UInt8} :
    Grouped room z bytes ↔ ∃ before last, bytes = before ++ [last] ∧
      (∀ b ∈ before, 128 ≤ b.toNat) ∧ last.toNat < 128 ∧
      (before.length < room ∨ before.length = room ∧ last.toNat ≤ 1) ∧
      z = number (before ++ [last]) := by
  constructor
  · rintro ⟨hshort, ⟨before, last, rfl, hbefore, hlast⟩, htop, rfl⟩
    refine ⟨before, last, rfl, hbefore, hlast, ?_, rfl⟩
    rw [List.length_append, List.length_singleton] at hshort
    by_cases hfull : before.length = room
    · refine .inr ⟨hfull, htop last ?_⟩
      rw [← hfull, List.getElem?_concat_length]
    · exact .inl (by omega)
  · rintro ⟨before, last, rfl, hbefore, hlast, hroom, rfl⟩
    refine ⟨?_, ⟨before, last, rfl, hbefore, hlast⟩, ?_, rfl⟩
    · rw [List.length_append, List.length_singleton]
      omega
    · intro b hb
      obtain hroom | ⟨rfl, htop⟩ := hroom
      · rw [List.getElem?_eq_none (by simp; omega)] at hb
        cases hb
      · rw [List.getElem?_concat_length] at hb
        rwa [← Option.some.inj hb]

/-- The last group that there can be is wrong: the groups before it all call for another one, and it
does not fit. -/
def TooLarge (room : Nat) (bytes : List UInt8) : Prop :=
  ∃ before last rest, bytes = before ++ last :: rest ∧ before.length = room ∧
    (∀ b ∈ before, 128 ≤ b.toNat) ∧ 1 < last.toNat

@[simp] theorem tooLarge_zero {b : UInt8} {rest : List UInt8} :
    TooLarge 0 (b :: rest) ↔ 1 < b.toNat := by
  constructor
  · rintro ⟨before, last, others, heq, hlen, -, hlast⟩
    rw [List.length_eq_zero_iff] at hlen
    subst hlen
    injection heq with hb
    rwa [hb]
  · exact fun hb => ⟨[], b, rest, rfl, rfl, fun _ h => absurd h List.not_mem_nil, hb⟩

theorem tooLarge_succ {room : Nat} {b : UInt8} {rest : List UInt8} :
    TooLarge (room + 1) (b :: rest) ↔ 128 ≤ b.toNat ∧ TooLarge room rest := by
  constructor
  · rintro ⟨before, last, others, heq, hlen, hbefore, hlast⟩
    cases before with
    | nil => cases hlen
    | cons c before =>
      injection heq with hb hrest
      obtain ⟨hc, hbefore⟩ := List.forall_mem_cons.mp hbefore
      exact ⟨hb ▸ hc, before, last, others, hrest, Nat.succ.inj hlen, hbefore, hlast⟩
  · rintro ⟨hb, before, last, others, rfl, rfl, hbefore, hlast⟩
    exact ⟨b :: before, last, others, rfl, rfl, List.forall_mem_cons.mpr ⟨hb, hbefore⟩, hlast⟩

/-- Groups are refused for the last one that there can be, or they come to no end. -/
theorem readGroups_eq_error {room : Nat} {bytes : List UInt8} {ending : Ending} {e : CodecError} :
    readGroups room ⟨bytes, ending⟩ = .error e ↔ e = .invalidVarint ∧ TooLarge room bytes ∨
      e = ending.error ∧ bytes.length ≤ room ∧ ∀ b ∈ bytes, 128 ≤ b.toNat := by
  induction bytes generalizing room with
  | nil =>
    have hread : readGroups room ⟨[], ending⟩ = .error ending.error := by cases room <;> rfl
    rw [hread]
    simp [TooLarge, eq_comm]
  | cons b rest ih =>
    cases room with
    | zero =>
      rw [readGroups_zero, tooLarge_zero]
      by_cases hb : b.toNat ≤ 1
      · simp [hb]
      · simp [hb, Nat.not_le.mp hb, eq_comm]
    | succ room =>
      rw [readGroups_succ, tooLarge_succ, List.forall_mem_cons]
      by_cases hb : b.toNat < 128
      · simp [hb, Nat.not_le.mpr hb]
      · have hhigh := Nat.not_lt.mp hb
        have hmap : ∀ (r : Except CodecError (Nat × Source)) (f : Nat × Source → Nat × Source),
            r.map f = .error e ↔ r = .error e := by
          intro r f
          cases r <;> simp [Except.map]
        rw [if_neg hb, hmap, ih, List.length_cons, Nat.succ_le_succ_iff]
        simp only [hhigh, true_and]

theorem read_eq_error {bytes : List UInt8} {ending : Ending} {e : CodecError} :
    read ⟨bytes, ending⟩ = .error e ↔ readGroups moreGroups ⟨bytes, ending⟩ = .error e := by
  rw [read_eq_map]
  cases readGroups moreGroups ⟨bytes, ending⟩ <;> simp [Except.map]

theorem toInt_unzigzag {z : Nat} (h : z < 2 ^ (64 : Nat)) :
    (unzigzag z).toInt = if z % 2 = 0 then ((z / 2 : Nat) : Int) else -(z / 2 : Nat) - 1 := by
  rw [unzigzag, Int64.toInt_ofInt_of_le]
  · split <;> omega
  · split <;> omega

/-- **Varints are exact.** What is written for an integer is one to ten bytes; it is what a machine
with a buffer of ten bytes writes, without a fault; in front of anything it is read as the integer,
and no fewer bytes are. Of any bytes at all a machine reads, without a fault, what is said here: a
number below `2 ^ 64` and the integer that its zig-zag stands for, when one of the first ten bytes is
without the high bit and the tenth, if it is that one, is 0 or 1; an invalid varint, when nine bytes
have the high bit and the tenth is larger than 1; and the end of the source, when there are fewer than
ten bytes and all have the high bit. -/
theorem codec_exact :
    (∀ n : Int64, (1 ≤ (encode n).length ∧ (encode n).length ≤ 10) ∧
      Words.write n = .ok (encode n) ∧
      (∀ rest ending, read ⟨encode n ++ rest, ending⟩ = .ok (n, ⟨rest, ending⟩)) ∧
      ∀ bytes ending after, read ⟨bytes, ending⟩ = .ok (n, after) →
        (encode n).length + after.bytes.length ≤ bytes.length) ∧
    ∀ (bytes : List UInt8) (ending : Ending),
      Words.read ⟨bytes, ending⟩ = .ok (read ⟨bytes, ending⟩) ∧
      (∀ n after, read ⟨bytes, ending⟩ = .ok (n, after) ↔
        ∃ before last rest, bytes = before ++ last :: rest ∧ after = ⟨rest, ending⟩ ∧
          (∀ b ∈ before, 128 ≤ b.toNat) ∧ last.toNat < 128 ∧
          (before.length < 9 ∨ before.length = 9 ∧ last.toNat ≤ 1) ∧
          ∃ z, z = number (before ++ [last]) ∧ z < 2 ^ (64 : Nat) ∧
            n.toInt = if z % 2 = 0 then ((z / 2 : Nat) : Int) else -(z / 2 : Nat) - 1) ∧
      (read ⟨bytes, ending⟩ = .error .invalidVarint ↔ ∃ before last rest,
        bytes = before ++ last :: rest ∧ before.length = 9 ∧ (∀ b ∈ before, 128 ≤ b.toNat) ∧
          1 < last.toNat) ∧
      (read ⟨bytes, ending⟩ = .error ending.error ↔
        bytes.length < 10 ∧ ∀ b ∈ bytes, 128 ≤ b.toNat) := by
  refine ⟨fun n => ⟨length_groups moreGroups _, Words.write_eq n, (reads n).eq_ok, ?_⟩,
    fun bytes ending => ⟨Words.read_eq _, ?_, ?_, ?_⟩⟩
  · intro bytes ending after h
    obtain ⟨taken, rest, rfl, hspells, rfl⟩ := (recognizes_read bytes ending n after).mp h
    have hle := hspells.length_groups_le
    rw [List.length_append]
    exact Nat.add_le_add_right hle rest.length
  · intro n after
    rw [recognizes_read bytes ending n after]
    constructor
    · rintro ⟨taken, rest, rfl, hspells, rfl⟩
      have hlt := hspells.lt
      obtain ⟨before, last, rfl, hbefore, hlast, hroom, hz⟩ := grouped_iff.mp hspells
      refine ⟨before, last, rest, List.append_assoc .., rfl, hbefore, hlast, hroom, _, rfl, ?_, ?_⟩
      · rw [← hz]
        exact hlt
      · rw [← hz, ← toInt_unzigzag hlt, unzigzag_zigzag]
    · rintro ⟨before, last, rest, rfl, rfl, hbefore, hlast, hroom, z, hz, hlt, hn⟩
      refine ⟨before ++ [last], rest, by simp, ?_, rfl⟩
      rw [← toInt_unzigzag hlt] at hn
      rw [Int64.toInt_inj.mp hn, Spells, zigzag_unzigzag hlt]
      exact grouped_iff.mpr ⟨before, last, rfl, hbefore, hlast, hroom, hz⟩
  · rw [read_eq_error, readGroups_eq_error]
    constructor
    · rintro (⟨-, h⟩ | ⟨h, -⟩)
      · exact h
      · cases ending <;> cases h
    · exact fun h => .inl ⟨rfl, h⟩
  · rw [read_eq_error, readGroups_eq_error]
    constructor
    · rintro (⟨h, -⟩ | ⟨-, hlen, hall⟩)
      · cases ending <;> cases h
      · exact ⟨Nat.lt_succ_of_le hlen, hall⟩
    · rintro ⟨hlen, hall⟩
      exact .inr ⟨rfl, Nat.le_of_lt_succ hlen, hall⟩

/-- The lowest integer takes all ten bytes, and three bytes are read as an integer that is written in
two. -/
theorem codec_exact_lowest :
    encode Int64.minValue = [0xff, 0xff, 0xff, 0xff, 0xff, 0xff, 0xff, 0xff, 0xff, 1] ∧
      read (.ofBytes (encode Int64.minValue ++ [7])) = .ok (Int64.minValue, .ofBytes [7]) ∧
      read (.ofBytes [0x81, 0x81, 0]) = .ok (-65, .ofBytes []) ∧ (encode (-65)).length ≤ 3 ∧
      read (.ofBytes [0xff, 0xff, 0xff, 0xff, 0xff, 0xff, 0xff, 0xff, 0xff, 2, 0])
        = .error .invalidVarint ∧
      read (.ofBytes [0xff, 0x80]) = .error .unexpectedEnd := by
  have hread : read (.ofBytes [0x81, 0x81, 0]) = .ok (-65, .ofBytes []) := by
    have hgroups : readGroups moreGroups (.ofBytes [0x81, 0x81, 0]) = .ok (129, .ofBytes []) := rfl
    have hinteger : unzigzag 129 = -65 := by decide
    rw [read_eq_map, hgroups, ← hinteger]
    rfl
  obtain ⟨hintegers, hbytes⟩ := codec_exact
  obtain ⟨-, -, hwhole, -⟩ := hintegers Int64.minValue
  obtain ⟨-, -, -, hshortest⟩ := hintegers (-65)
  obtain ⟨-, -, hinvalid, -⟩ :=
    hbytes [0xff, 0xff, 0xff, 0xff, 0xff, 0xff, 0xff, 0xff, 0xff, 2, 0] .ended
  obtain ⟨-, -, -, hended⟩ := hbytes [0xff, 0x80] .ended
  refine ⟨by rfl, hwhole [7] .ended, hread, hshortest _ .ended _ hread, ?_, ?_⟩
  · exact hinvalid.mpr ⟨List.replicate 9 0xff, 2, [0], rfl, rfl, by simp, by decide⟩
  · exact hended.mpr ⟨by decide, by simp⟩

end Varint

end FieldSeal.Wire
