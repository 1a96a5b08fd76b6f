import FieldSeal.Proofs.Cipher.Opening
import Mathlib.Data.Nat.Digits.Defs

/-!
# Counter mode, byte by byte

The program makes a key stream block after block and lays it over the data as a whole. What one byte
of the result is can be said without a stream: it is the byte of the data combined with one byte of one
block, and which block that is follows from the place alone. `Gcm.Encrypts` says so, with the counter
block written as the bits of the nonce in front of a word of 32 bits, and it determines the encrypted
bytes (`Gcm.encrypts_iff`). With a stream of zeros, with blocks in another order or with a counter that
starts elsewhere it would be false.

Bits are counted as the mode counts them, from the highest of the first byte on (`bitOf`,
`BitVec.getMsbD`).
-/

set_option autoImplicit false

namespace FieldSeal

/- A power of natural numbers is that of core here, whatever else is in scope. -/
attribute [local instance (high)] instPowNat

/-! ## The bits of bytes -/

/-- Bit `i` of bytes, the highest of the first byte first. Behind the last byte there are zeros. -/
def bitOf (bytes : List UInt8) (i : Nat) : Bool :=
  (bytes.getD (i / 8) 0).toNat.testBit (7 - i % 8)

theorem bitOf_drop (bytes : List UInt8) (n i : Nat) :
    bitOf (bytes.drop n) i = bitOf bytes (8 * n + i) := by
  have hbyte : (8 * n + i) / 8 = n + i / 8 := by omega
  have hbit : (8 * n + i) % 8 = i % 8 := by omega
  rw [bitOf, bitOf, hbyte, hbit, List.getD_eq_getElem?_getD, List.getElem?_drop,
    ← List.getD_eq_getElem?_getD]

/-- Bytes of one length are the same when their bits are. -/
theorem eq_of_bitOf {a b : List UInt8} (hlen : a.length = b.length)
    (h : ∀ i < 8 * a.length, bitOf a i = bitOf b i) : a = b := by
  refine List.ext_getElem hlen fun j hj hj' => UInt8.toNat_inj.mp (Nat.eq_of_testBit_eq fun k => ?_)
  by_cases hk : k < 8
  · have hbit := h (8 * j + (7 - k)) (by omega)
    have hbyte : (8 * j + (7 - k)) / 8 = j := by omega
    have hplace : 7 - (8 * j + (7 - k)) % 8 = k := by omega
    rwa [bitOf, bitOf, hbyte, hplace, List.getD_eq_getElem?_getD, List.getD_eq_getElem?_getD,
      List.getElem?_eq_getElem hj, List.getElem?_eq_getElem hj', Option.getD_some, Option.getD_some]
      at hbit
  · have hle : 2 ^ 8 ≤ 2 ^ k := Nat.pow_le_pow_right (by decide) (Nat.not_lt.mp hk)
    rw [Nat.testBit_lt_two_pow (Nat.lt_of_lt_of_le a[j].toNat_lt hle),
      Nat.testBit_lt_two_pow (Nat.lt_of_lt_of_le b[j].toNat_lt hle)]

namespace ByteOrder

theorem testBit_ofLittle (bytes : List UInt8) (k : Nat) :
    (ofLittle bytes).testBit k = (bytes.getD (k / 8) 0).toNat.testBit (k % 8) := by
  induction bytes generalizing k with
  | nil => simp [ofLittle]
  | cons b rest ih =>
    rw [ofLittle, Nat.add_comm, Nat.testBit_two_pow_mul_add (i := 8) _ b.toNat_lt]
    by_cases hk : k < 8
    · rw [if_pos hk, Nat.div_eq_of_lt hk, Nat.mod_eq_of_lt hk, List.getD_cons_zero]
    · have hbyte : k / 8 = (k - 8) / 8 + 1 := by omega
      have hbit : k % 8 = (k - 8) % 8 := by omega
      rw [if_neg hk, ih, hbyte, hbit, List.getD_cons_succ]

/-- The highest bit of the number is the first bit of its bytes. -/
theorem testBit_ofBig (bytes : List UInt8) {i : Nat} (hi : i < 8 * bytes.length) :
    (ofBig bytes).testBit (8 * bytes.length - 1 - i) = bitOf bytes i := by
  have hplace : bytes.length - 1 - (8 * bytes.length - 1 - i) / 8 = i / 8 := by omega
  have hbit : (8 * bytes.length - 1 - i) % 8 = 7 - i % 8 := by omega
  rw [ofBig, testBit_ofLittle, bitOf, List.getD_eq_getElem?_getD, List.getElem?_reverse (by omega),
    hplace, hbit, ← List.getD_eq_getElem?_getD]

theorem getElem?_little {width n j : Nat} (hj : j < width) :
    (little width n)[j]? = some (UInt8.ofNat (n / 256 ^ j % 256)) := by
  induction width generalizing n j with
  | zero => exact absurd hj (Nat.not_lt_zero _)
  | succ width ih =>
    cases j with
    | zero => simp [little]
    | succ j =>
      rw [little, List.getElem?_cons_succ, ih (Nat.lt_of_succ_lt_succ hj), Nat.div_div_eq_div_mul,
        ← Nat.pow_succ']

theorem getElem?_big {width n j : Nat} (hj : j < width) :
    (big width n)[j]? = some (UInt8.ofNat (n / 256 ^ (width - 1 - j) % 256)) := by
  have hlen := length_little width n
  rw [big, List.getElem?_reverse (by omega), hlen, getElem?_little (by omega)]

theorem ofLittle_eq_ofDigits (bytes : List UInt8) :
    ofLittle bytes = Nat.ofDigits 256 (bytes.map (·.toNat)) := by
  induction bytes with
  | nil => rfl
  | cons b rest ih => rw [ofLittle, List.map_cons, Nat.ofDigits_cons, ih]

end ByteOrder

theorem bitOf_append_left {a b : List UInt8} {i : Nat} (hi : i < 8 * a.length) :
    bitOf (a ++ b) i = bitOf a i := by
  rw [bitOf, bitOf, List.getD_eq_getElem?_getD, List.getElem?_append_left (by omega),
    ← List.getD_eq_getElem?_getD]

theorem bitOf_append_right {a b : List UInt8} {i : Nat} (hi : 8 * a.length ≤ i) :
    bitOf (a ++ b) i = bitOf b (i - 8 * a.length) := by
  have hbyte : (i - 8 * a.length) / 8 = i / 8 - a.length := by omega
  have hbit : (i - 8 * a.length) % 8 = i % 8 := by omega
  rw [bitOf, bitOf, hbyte, hbit, List.getD_eq_getElem?_getD, List.getElem?_append_right (by omega),
    ← List.getD_eq_getElem?_getD]

theorem bitOf_big {width n i : Nat} (hi : i < 8 * width) :
    bitOf (ByteOrder.big width n) i = n.testBit (8 * width - 1 - i) := by
  have hplace : 8 * (width - 1 - i / 8) + (7 - i % 8) = 8 * width - 1 - i := by omega
  have hbyte : n / 256 ^ (width - 1 - i / 8) % 256 = n / 2 ^ (8 * (width - 1 - i / 8)) % 2 ^ 8 := by
    rw [Nat.pow_mul]
    rfl
  have hlow : 7 - i % 8 < 8 := by omega
  rw [bitOf, List.getD_eq_getElem?_getD, ByteOrder.getElem?_big (by omega), Option.getD_some,
    UInt8.toNat_ofNat_of_lt' (Nat.mod_lt _ (by decide)), hbyte, Nat.testBit_mod_two_pow,
    Nat.testBit_div_two_pow, decide_eq_true hlow, Bool.true_and, Nat.add_comm, hplace]

/-! ## The bytes of blocks -/

theorem getMsbD_ofNat {width i : Nat} (n : Nat) (hi : i < width) :
    (BitVec.ofNat width n).getMsbD i = n.testBit (width - 1 - i) := by
  have hplace : width - 1 - i < width := by omega
  rw [BitVec.getMsbD, BitVec.getLsbD_ofNat, decide_eq_true hi, Bool.true_and, decide_eq_true hplace,
    Bool.true_and]

namespace Block

/-- Byte `j` of a block, the highest first. -/
def byte (b : Block) (j : Nat) : UInt8 := ⟨b.extractLsb' (8 * (15 - j)) 8⟩

theorem getElem?_toBytes (b : Block) {j : Nat} (hj : j < 16) : b.toBytes[j]? = some (b.byte j) := by
  rw [toBytes, ByteOrder.getElem?_big hj, Option.some.injEq]
  apply UInt8.toNat_inj.mp
  rw [UInt8.toNat_ofNat_of_lt' (Nat.mod_lt _ (by decide)), byte]
  show _ = (b.extractLsb' (8 * (15 - j)) 8).toNat
  rw [BitVec.extractLsb'_toNat, Nat.shiftRight_eq_div_pow, Nat.pow_mul]

theorem bitOf_toBytes (b : Block) {i : Nat} (hi : i < 128) : bitOf b.toBytes i = b.getMsbD i := by
  rw [toBytes, bitOf_big hi, BitVec.getMsbD, decide_eq_true hi]
  rfl

/-- The zeros behind the bytes are those that `bitOf` finds there. -/
theorem getMsbD_ofBytes (bytes : List UInt8) {i : Nat} (hi : i < 128) :
    (ofBytes bytes).getMsbD i = bitOf bytes i := by
  have hlen : ((bytes ++ List.replicate (16 - bytes.length) 0).take 16).length = 16 := by
    rw [List.length_take, List.length_append, List.length_replicate]
    omega
  have hbit := ByteOrder.testBit_ofBig
    ((bytes ++ List.replicate (16 - bytes.length) 0).take 16) (i := i) (by omega)
  rw [hlen] at hbit
  rw [ofBytes, getMsbD_ofNat _ hi, hbit, bitOf, bitOf, List.getD_eq_getElem?_getD,
    List.getElem?_take_of_lt (by omega)]
  by_cases hin : i / 8 < bytes.length
  · rw [List.getElem?_append_left hin, List.getD_eq_getElem?_getD]
  · rw [List.getElem?_append_right (by omega), List.getElem?_replicate_of_lt (by omega),
      List.getD_eq_getElem?_getD, List.getElem?_eq_none (by omega)]
    rfl

end Block

/-! ## The counter -/

namespace Gcm

/-- The bits of a nonce, as one number. -/
def nonceBits (nonce : Nonce) : BitVec 96 :=
  BitVec.ofNat 96 (Nat.ofDigits 256 (nonce.toList.reverse.map (·.toNat)))

/-- The nonce with a number of 32 bits behind it. -/
def counterBlock (nonce : Nonce) (n : Nat) : Block := nonceBits nonce ++ BitVec.ofNat 32 n

theorem counter_eq (nonce : Nonce) (n : Nat) : counter nonce n = counterBlock nonce n := by
  have hnonce : nonce.toList.length = 12 := nonce.length_toList
  refine BitVec.eq_of_getMsbD_eq fun i hi => ?_
  rw [counter, Block.getMsbD_ofBytes _ hi, counterBlock, BitVec.getMsbD_append]
  by_cases hlow : i < 96
  · have hbit := ByteOrder.testBit_ofBig nonce.toList (i := i) (by omega)
    rw [hnonce, ByteOrder.ofBig, ByteOrder.ofLittle_eq_ofDigits] at hbit
    rw [bitOf_append_left (by omega), if_neg (Nat.not_le.mpr hlow), nonceBits,
      getMsbD_ofNat _ hlow, ← hbit]
  · rw [bitOf_append_right (by omega), if_pos (Nat.not_lt.mp hlow), hnonce, bitOf_big (by omega),
      getMsbD_ofNat _ (by omega)]

/-! ## Encrypted bytes -/

variable (block : Block → Block) (nonce : Nonce)

/-- Each byte is encrypted by itself, with the byte in its place of the block that the counter has
come to: it starts at 2, and goes on by one with every 16 bytes. -/
structure Encrypts (data encrypted : List UInt8) : Prop where
  length : encrypted.length = data.length
  byte : ∀ i a, data[i]? = some a →
    encrypted[i]? = some (a ^^^ (block (counterBlock nonce (2 + i / 16))).byte (i % 16))

theorem getElem?_keyStream {n blocks i : Nat} (hi : i < 16 * blocks) :
    (keyStream block nonce n blocks)[i]?
      = some ((block (counterBlock nonce (n + i / 16))).byte (i % 16)) := by
  induction blocks generalizing n i with
  | zero => exact absurd hi (Nat.not_lt_zero _)
  | succ blocks ih =>
    have hlen := Block.length_toBytes (block (counter nonce n))
    rw [keyStream]
    by_cases hfirst : i < 16
    · rw [List.getElem?_append_left (by omega), Block.getElem?_toBytes _ hfirst, counter_eq,
        Nat.div_eq_of_lt hfirst, Nat.mod_eq_of_lt hfirst, Nat.add_zero]
    · have hblock : n + 1 + (i - 16) / 16 = n + i / 16 := by omega
      have hbyte : (i - 16) % 16 = i % 16 := by omega
      rw [List.getElem?_append_right (by omega), hlen, ih (by omega), hblock, hbyte]

/-- What the program makes of the data is what the mode says. -/
theorem encrypts_combine (data : List UInt8) : Encrypts block nonce data (combine block nonce data) where
  length := length_combine block nonce data
  byte i a ha := by
    have hi : i < data.length := (List.getElem?_eq_some_iff.mp ha).1
    have hkey : i < 16 * Block.count data := by
      rw [Block.count]
      omega
    rw [combine, List.getElem?_zipWith, ha, getElem?_keyStream block nonce hkey]

variable {block nonce}

theorem encrypts_iff {data encrypted : List UInt8} :
    Encrypts block nonce data encrypted ↔ encrypted = combine block nonce data := by
  constructor
  · intro h
    have hcombine := encrypts_combine block nonce data
    refine List.ext_getElem? fun i => ?_
    cases hi : data[i]? with
    | some a => rw [h.byte i a hi, hcombine.byte i a hi]
    | none =>
      have hlen := List.getElem?_eq_none_iff.mp hi
      rw [List.getElem?_eq_none (h.length ▸ hlen), List.getElem?_eq_none (hcombine.length ▸ hlen)]
  · rintro rfl
    exact encrypts_combine block nonce data

/-- Encrypting once more gives the data back. -/
theorem Encrypts.symm {data encrypted : List UInt8} (h : Encrypts block nonce data encrypted) :
    Encrypts block nonce encrypted data := by
  rw [encrypts_iff] at h ⊢
  rw [h, combine_combine]

end Gcm

end FieldSeal
