import FieldSeal.Proofs.Cipher.Opening
import Mathlib.Tactic.Ring

/-!
# How bytes are spelled in base64

Base64 is a change of base: the bytes are the digits of one large number to the base 256, and the
characters are its digits to the base 64. Three bytes are four digits exactly; where the last digit
has bits to spare they are zero, and `=` fills the text up to a multiple of four characters.
`Base64.Spells` says that, and nothing of groups of three or of how a reader goes about it.

The bytes have one spelling (`Spells.unique`), which is what is written, and the reader accepts
spellings only (`decode?_eq_some`): a text with bits in the place of the spare ones, with the padding
left away or with another character in it spells nothing.
-/

set_option autoImplicit false

namespace FieldSeal.Base64

/- A power of natural numbers is that of core here, whatever else is in scope. -/
attribute [local instance (high)] instPowNat

/-! ## Numbers and their digits -/

/-- The number with the given digits, the highest first. -/
def number (base : Nat) : List Nat → Nat
  | [] => 0
  | d :: rest => d * base ^ rest.length + number base rest

theorem number_lt {base : Nat} {ds : List Nat} (h : ∀ d ∈ ds, d < base) :
    number base ds < base ^ ds.length := by
  induction ds with
  | nil => exact Nat.one_pos
  | cons d rest ih =>
    obtain ⟨hd, hrest⟩ := List.forall_mem_cons.mp h
    rw [number, List.length_cons, Nat.pow_succ']
    calc d * base ^ rest.length + number base rest
      _ < d * base ^ rest.length + base ^ rest.length := Nat.add_lt_add_left (ih hrest) _
      _ = (d + 1) * base ^ rest.length := (Nat.succ_mul ..).symm
      _ ≤ base * base ^ rest.length := Nat.mul_le_mul_right _ hd

/-- So many digits are determined by their number. -/
theorem digits_unique {base : Nat} {ds es : List Nat} (hds : ∀ d ∈ ds, d < base)
    (hes : ∀ e ∈ es, e < base) (hlen : ds.length = es.length)
    (hnumber : number base ds = number base es) : ds = es := by
  induction ds generalizing es with
  | nil => exact (List.eq_nil_of_length_eq_zero hlen.symm).symm
  | cons d rest ih =>
    cases es with
    | nil => cases hlen
    | cons e others =>
      obtain ⟨-, hrest⟩ := List.forall_mem_cons.mp hds
      obtain ⟨-, hothers⟩ := List.forall_mem_cons.mp hes
      have hlen' : rest.length = others.length := Nat.succ.inj hlen
      have hlow := number_lt hrest
      have hlow' := number_lt hothers
      rw [number, number, hlen'] at hnumber
      rw [hlen'] at hlow
      have hpos : 0 < base ^ others.length := Nat.lt_of_le_of_lt (Nat.zero_le _) hlow
      have hhigh : ∀ c low, low < base ^ others.length →
          (c * base ^ others.length + low) / base ^ others.length = c := by
        intro c low h
        rw [Nat.add_comm, Nat.add_mul_div_right _ _ hpos, Nat.div_eq_of_lt h, Nat.zero_add]
      obtain rfl : d = e := by
        rw [← hhigh d _ hlow, hnumber, hhigh e _ hlow']
      rw [ih hrest hothers hlen' (Nat.add_left_cancel hnumber)]

/-! ## Spellings -/

/-- The characters of the digits, in their order. -/
def alphabet : List Char :=
  "ABCDEFGHIJKLMNOPQRSTUVWXYZabcdefghijklmnopqrstuvwxyz0123456789+/".toList

/-- The text is the number of the bytes in digits to the base 64. Behind the number there are zero
bits, fewer than a digit has, to make whole digits, and behind the digits there is padding, to make
whole groups of four characters. -/
structure SpelledBy (bytes : List UInt8) (text : List Char) (digits : List Nat)
    (spare padding : Nat) : Prop where
  digits_lt : ∀ d ∈ digits, d < 64
  number_eq : number 64 digits = number 256 (bytes.map (·.toNat)) * 2 ^ spare
  bits : 6 * digits.length = 8 * bytes.length + spare
  spare_lt : spare < 6
  text_eq : text = digits.map (alphabet.getD · '=') ++ List.replicate padding '='
  whole : 4 ∣ text.length
  padding_lt : padding < 4

/-- The text is the canonical base64 of the bytes, with padding. -/
def Spells (bytes : List UInt8) (text : List Char) : Prop :=
  ∃ digits spare padding, SpelledBy bytes text digits spare padding

/-- Bytes have one spelling. -/
theorem Spells.unique {bytes : List UInt8} {text text' : List Char} (h : Spells bytes text)
    (h' : Spells bytes text') : text = text' := by
  obtain ⟨digits, spare, padding, h⟩ := h
  obtain ⟨digits', spare', padding', h'⟩ := h'
  have hbits := h.bits
  have hbits' := h'.bits
  have hspare := h.spare_lt
  have hspare' := h'.spare_lt
  have hlen : digits.length = digits'.length := by omega
  obtain rfl : spare = spare' := by omega
  obtain rfl : digits = digits' := by
    apply digits_unique h.digits_lt h'.digits_lt hlen
    rw [h.number_eq, h'.number_eq]
  have hwhole := h.whole
  have hwhole' := h'.whole
  have hpadding := h.padding_lt
  have hpadding' := h'.padding_lt
  rw [h.text_eq, List.length_append, List.length_map, List.length_replicate] at hwhole
  rw [h'.text_eq, List.length_append, List.length_map, List.length_replicate] at hwhole'
  obtain rfl : padding = padding' := by omega
  rw [h.text_eq, h'.text_eq]

theorem digit_eq : ∀ n, n < 64 → digit n = alphabet.getD n '=' := by decide

/-- Three bytes are four digits, whatever comes after them. -/
theorem SpelledBy.group {a b c : Nat} {rest : List UInt8} {text : List Char} {digits : List Nat}
    {spare padding : Nat} (h : SpelledBy rest text digits spare padding) :
    number 64 (a / 4 :: (a % 4 * 16 + b / 16) :: (b % 16 * 4 + c / 64) :: c % 64 :: digits)
      = number 256 (a :: b :: c :: rest.map (·.toNat)) * 2 ^ spare := by
  have hpow : 64 ^ digits.length = 256 ^ rest.length * 2 ^ spare := by
    rw [show 64 = 2 ^ (6 : Nat) from rfl, show 256 = 2 ^ (8 : Nat) from rfl, ← Nat.pow_mul,
      ← Nat.pow_mul, ← Nat.pow_add, h.bits]
  have hgroup : a / 4 * 262144 + (a % 4 * 16 + b / 16) * 4096 + (b % 16 * 4 + c / 64) * 64 + c % 64
      = a * 65536 + b * 256 + c := by omega
  simp only [number, List.length_cons, List.length_map, h.number_eq, Nat.pow_succ]
  generalize 64 ^ digits.length = p at hpow
  generalize 256 ^ rest.length = q at hpow
  generalize 2 ^ spare = t at hpow
  generalize number 256 (rest.map (·.toNat)) = low
  calc _ = (a / 4 * 262144 + (a % 4 * 16 + b / 16) * 4096 + (b % 16 * 4 + c / 64) * 64 + c % 64) * p
        + low * t := by ring
    _ = (a * 65536 + b * 256 + c) * (q * t) + low * t := by rw [hgroup, hpow]
    _ = _ := by ring

/-- **What is written is the spelling.** -/
theorem spells_encodeChars (data : List UInt8) : Spells data (encodeChars data) := by
  induction data using encodeChars.induct with
  | case1 => exact ⟨[], 0, 0, by simp, rfl, rfl, by decide, rfl, ⟨0, rfl⟩, by decide⟩
  | case2 a =>
    have ha := a.toNat_lt
    refine ⟨[a.toNat / 4, a.toNat % 4 * 16], 4, 2, ?_, ?_, rfl, by decide, ?_, ⟨1, rfl⟩, by decide⟩
    · simp; omega
    · simp [number]; omega
    · simp only [encodeChars, digit_eq _ (show a.toNat / 4 < 64 by omega),
        digit_eq _ (show a.toNat % 4 * 16 < 64 by omega)]
      rfl
  | case3 a b =>
    have ha := a.toNat_lt
    have hb := b.toNat_lt
    refine ⟨[a.toNat / 4, a.toNat % 4 * 16 + b.toNat / 16, b.toNat % 16 * 4], 2, 1, ?_, ?_, rfl,
      by decide, ?_, ⟨1, rfl⟩, by decide⟩
    · simp; omega
    · simp [number]; omega
    · simp only [encodeChars, digit_eq _ (show a.toNat / 4 < 64 by omega),
        digit_eq _ (show a.toNat % 4 * 16 + b.toNat / 16 < 64 by omega),
        digit_eq _ (show b.toNat % 16 * 4 < 64 by omega)]
      rfl
  | case4 a b c rest ih =>
    have ha := a.toNat_lt
    have hb := b.toNat_lt
    have hc := c.toNat_lt
    obtain ⟨digits, spare, padding, h⟩ := ih
    refine ⟨_, spare, padding, ?_, h.group, ?_, h.spare_lt, ?_, ?_, h.padding_lt⟩
    · simp only [List.forall_mem_cons]
      exact ⟨by omega, by omega, by omega, by omega, h.digits_lt⟩
    · have := h.bits
      simp only [List.length_cons]
      omega
    · simp only [encodeChars, digit_eq _ (show a.toNat / 4 < 64 by omega),
        digit_eq _ (show a.toNat % 4 * 16 + b.toNat / 16 < 64 by omega),
        digit_eq _ (show b.toNat % 16 * 4 + c.toNat / 64 < 64 by omega),
        digit_eq _ (show c.toNat % 64 < 64 by omega), h.text_eq]
      rfl
    · have := h.whole
      simp only [encodeChars, List.length_cons]
      omega

/-! ## Reading -/

theorem value?_eq_some {c : Char} {n : Nat} (h : value? c = some n) : n < 64 ∧ digit n = c := by
  have hback : ∀ low k, low ≤ c.toNat → k = c.toNat - low → Char.ofNat (low + k) = c := by
    rintro low k hlow rfl
    rw [Nat.add_sub_cancel' hlow, Char.ofNat_toNat]
  have hrange : ∀ low : Char, low ≤ c ↔ low.toNat ≤ c.toNat := fun low => UInt32.le_iff_toNat_le
  have hrange' : ∀ high : Char, c ≤ high ↔ c.toNat ≤ high.toNat := fun high => UInt32.le_iff_toNat_le
  have hA : 'A'.toNat = 65 := rfl
  have hZ : 'Z'.toNat = 90 := rfl
  have ha : 'a'.toNat = 97 := rfl
  have hz : 'z'.toNat = 122 := rfl
  have h0 : '0'.toNat = 48 := rfl
  have h9 : '9'.toNat = 57 := rfl
  rw [value?] at h
  simp only [hrange, hrange', hA, hZ, ha, hz, h0, h9] at h
  split at h
  next hupper =>
    obtain rfl := Option.some.inj h
    rw [digit, if_pos (by omega), hA]
    exact ⟨by omega, hback 65 _ hupper.1 rfl⟩
  next =>
  split at h
  next hlower =>
    obtain rfl := Option.some.inj h
    rw [digit, if_neg (by omega), if_pos (by omega), ha]
    exact ⟨by omega, hback 97 _ hlower.1 (by omega)⟩
  next =>
  split at h
  next hdigit =>
    obtain rfl := Option.some.inj h
    rw [digit, if_neg (by omega), if_neg (by omega), if_pos (by omega), h0]
    exact ⟨by omega, hback 48 _ hdigit.1 (by omega)⟩
  next =>
  split at h
  next hplus =>
    obtain rfl := Option.some.inj h
    exact ⟨by decide, hplus.symm⟩
  next =>
  split at h
  next hslash =>
    obtain rfl := Option.some.inj h
    exact ⟨by decide, hslash.symm⟩
  next => cases h

theorem toNat_ofNat {n : Nat} (h : n < 256) : (UInt8.ofNat n).toNat = n :=
  UInt8.toNat_ofNat_of_lt' h

/-- The last four characters, when they are padded: the bits to spare are zero. -/
theorem encodeChars_of_decodePadded? {a b c : Char} {bytes : List UInt8}
    (h : decodePadded? a b c = some bytes) : encodeChars bytes = [a, b, c, '='] := by
  rw [decodePadded?] at h
  obtain ⟨x, hx, h⟩ := Option.bind_eq_some_iff.mp h
  obtain ⟨y, hy, h⟩ := Option.bind_eq_some_iff.mp h
  obtain ⟨hxlt, hxa⟩ := value?_eq_some hx
  obtain ⟨hylt, hyb⟩ := value?_eq_some hy
  have hfirst : (UInt8.ofNat (x * 4 + y / 16)).toNat = x * 4 + y / 16 := toNat_ofNat (by omega)
  have hx' : (x * 4 + y / 16) / 4 = x := by omega
  by_cases hc : c = '='
  · rw [if_pos hc] at h
    by_cases hspare : y % 16 = 0
    · rw [if_pos hspare] at h
      obtain rfl := Option.some.inj h
      have hy' : (x * 4 + y / 16) % 4 * 16 = y := by omega
      rw [encodeChars, hfirst, hx', hy', hxa, hyb, hc]
    · rw [if_neg hspare] at h
      cases h
  · rw [if_neg hc] at h
    obtain ⟨z, hz, h⟩ := Option.bind_eq_some_iff.mp h
    obtain ⟨hzlt, hzc⟩ := value?_eq_some hz
    by_cases hspare : z % 4 = 0
    · rw [if_pos hspare] at h
      obtain rfl := Option.some.inj h
      have hsecond : (UInt8.ofNat (y % 16 * 16 + z / 4)).toNat = y % 16 * 16 + z / 4 :=
        toNat_ofNat (by omega)
      have hy' : (x * 4 + y / 16) % 4 * 16 + (y % 16 * 16 + z / 4) / 16 = y := by omega
      have hz' : (y % 16 * 16 + z / 4) % 16 * 4 = z := by omega
      rw [encodeChars, hfirst, hsecond, hx', hy', hz', hxa, hyb, hzc]
    · rw [if_neg hspare] at h
      cases h

/-- What has been read is written as it was. -/
theorem encodeChars_of_decodeChars? : ∀ {text : List Char} {bytes : List UInt8},
    decodeChars? text = some bytes → encodeChars bytes = text
  | [], _, h => by
    obtain rfl := Option.some.inj h
    rfl
  | [_], _, h | [_, _], _, h | [_, _, _], _, h => by cases h
  | a :: b :: c :: d :: rest, bytes, h => by
    rw [decodeChars?] at h
    by_cases hd : d = '='
    · rw [if_pos hd] at h
      by_cases hrest : rest.isEmpty = true
      · rw [if_pos hrest] at h
        rw [encodeChars_of_decodePadded? h, List.isEmpty_iff.mp hrest, hd]
      · rw [if_neg hrest] at h
        cases h
    · rw [if_neg hd] at h
      obtain ⟨x, hx, h⟩ := Option.bind_eq_some_iff.mp h
      obtain ⟨y, hy, h⟩ := Option.bind_eq_some_iff.mp h
      obtain ⟨z, hz, h⟩ := Option.bind_eq_some_iff.mp h
      obtain ⟨w, hw, h⟩ := Option.bind_eq_some_iff.mp h
      obtain ⟨others, hothers, h⟩ := Option.bind_eq_some_iff.mp h
      obtain rfl := Option.some.inj h
      obtain ⟨hxlt, hxa⟩ := value?_eq_some hx
      obtain ⟨hylt, hyb⟩ := value?_eq_some hy
      obtain ⟨hzlt, hzc⟩ := value?_eq_some hz
      obtain ⟨hwlt, hwd⟩ := value?_eq_some hw
      have hfirst : (UInt8.ofNat (x * 4 + y / 16)).toNat = x * 4 + y / 16 := toNat_ofNat (by omega)
      have hsecond : (UInt8.ofNat (y % 16 * 16 + z / 4)).toNat = y % 16 * 16 + z / 4 :=
        toNat_ofNat (by omega)
      have hthird : (UInt8.ofNat (z % 4 * 64 + w)).toNat = z % 4 * 64 + w := toNat_ofNat (by omega)
      have hx' : (x * 4 + y / 16) / 4 = x := by omega
      have hy' : (x * 4 + y / 16) % 4 * 16 + (y % 16 * 16 + z / 4) / 16 = y := by omega
      have hz' : (y % 16 * 16 + z / 4) % 16 * 4 + (z % 4 * 64 + w) / 64 = z := by omega
      have hw' : (z % 4 * 64 + w) % 64 = w := by omega
      rw [encodeChars, hfirst, hsecond, hthird, hx', hy', hz', hw',
        hxa, hyb, hzc, hwd, encodeChars_of_decodeChars? hothers]

/-- **A text is read exactly when it is a spelling.** -/
theorem decode?_eq_some {text : String} {bytes : List UInt8} :
    decode? text = some bytes ↔ Spells bytes text.toList := by
  constructor
  · intro h
    rw [← encodeChars_of_decodeChars? h]
    exact spells_encodeChars bytes
  · intro h
    rw [decode?, h.unique (spells_encodeChars bytes), decodeChars?_encodeChars]

/-- A text spells one list of bytes. -/
theorem Spells.bytes_unique {bytes bytes' : List UInt8} {text : List Char} (h : Spells bytes text)
    (h' : Spells bytes' text) : bytes = bytes' := by
  rw [← String.toList_ofList (l := text)] at h h'
  exact Option.some.inj ((decode?_eq_some.mpr h).symm.trans (decode?_eq_some.mpr h'))

theorem Spells.length_eq {bytes : List UInt8} {text : List Char} (h : Spells bytes text) :
    text.length = 4 * ((bytes.length + 2) / 3) := by
  rw [h.unique (spells_encodeChars bytes), length_encodeChars]

end FieldSeal.Base64
