import FieldSeal.Cipher.Text

/-!
# What has been sealed opens

Three layers lie over a text that has been sealed, and each of them has an inverse: the key stream,
which is its own (`Gcm.combine_combine`), the frame of nonce, bytes and tag, which is cut where it was
put together (`Gcm.open?_of_seal?`), and base64 (`Base64.decode?_encode`). So `openText` undoes
`sealText` for every block function, whatever it does (`TextCipher.openText_of_sealText`).

The second half is about lengths. A sealed text is longer than the text in it, so it is never the
text itself, and there is a limit to it since there is one to what the mode takes.
-/

set_option autoImplicit false

namespace FieldSeal

/- A power of natural numbers is that of core here, whatever else is in scope. -/
attribute [local instance (high)] instPowNat

/-! ## Counter mode -/

namespace Gcm

variable (cipher : Block → Block) (nonce : Nonce)

@[simp] theorem length_keyStream (n blocks : Nat) :
    (keyStream cipher nonce n blocks).length = 16 * blocks := by
  induction blocks generalizing n with
  | zero => rfl
  | succ blocks ih =>
    rw [keyStream, List.length_append, Block.length_toBytes, ih]
    omega

@[simp] theorem length_combine (data : List UInt8) :
    (combine cipher nonce data).length = data.length := by
  rw [combine, List.length_zipWith, length_keyStream, Block.count]
  omega

theorem xor_xor_cancel : ∀ {data key : List UInt8}, data.length ≤ key.length →
    List.zipWith (· ^^^ ·) (List.zipWith (· ^^^ ·) data key) key = data
  | [], _, _ => rfl
  | a :: rest, [], h => by simp at h
  | a :: rest, k :: key, h => by
    rw [List.zipWith_cons_cons, List.zipWith_cons_cons, UInt8.xor_assoc, UInt8.xor_self,
      UInt8.xor_zero, xor_xor_cancel (by simpa using h)]

/-- The key stream depends on the length of the data only, so it is the same one both times. -/
@[simp] theorem combine_combine (data : List UInt8) :
    combine cipher nonce (combine cipher nonce data) = data := by
  have hcount : Block.count (combine cipher nonce data) = Block.count data := by
    rw [Block.count, Block.count, length_combine]
  rw [combine, hcount]
  refine xor_xor_cancel ?_
  rw [length_keyStream, Block.count]
  omega

@[simp] theorem length_tag (data : List UInt8) : (tag cipher nonce data).length = tagLength :=
  Block.length_toBytes _

theorem seal?_eq_some {data bytes : List UInt8} (h : seal? cipher nonce data = some bytes) :
    data.length ≤ maxLength ∧
      bytes = combine cipher nonce data ++ tag cipher nonce (combine cipher nonce data) := by
  rw [seal?] at h
  split at h
  next hlen => exact ⟨hlen, (Option.some.inj h).symm⟩
  next => cases h

theorem open?_eq_some {bytes data : List UInt8} :
    open? cipher nonce bytes = some data ↔
      ∃ encrypted, encrypted.length ≤ maxLength + tagLength ∧
        bytes = encrypted ++ tag cipher nonce encrypted ∧ data = combine cipher nonce encrypted := by
  constructor
  · intro h
    rw [open?] at h
    by_cases hshort : bytes.length < tagLength
    · rw [if_pos hshort] at h
      cases h
    · rw [if_neg hshort] at h
      obtain ⟨⟨hlen, htag⟩, hdata⟩ := Option.ite_none_right_eq_some.mp h
      refine ⟨_, hlen, ?_, (Option.some.inj hdata).symm⟩
      rw [← htag, List.take_append_drop]
  · rintro ⟨encrypted, hlen, rfl, rfl⟩
    have hcut : (encrypted ++ tag cipher nonce encrypted).length - tagLength = encrypted.length := by
      rw [List.length_append, length_tag, Nat.add_sub_cancel]
    have hshort : ¬ (encrypted ++ tag cipher nonce encrypted).length < tagLength := by
      rw [List.length_append, length_tag]
      omega
    rw [open?, if_neg hshort, hcut, List.take_left, List.drop_left, if_pos ⟨hlen, rfl⟩]

theorem open?_of_seal? {data bytes : List UInt8} (h : seal? cipher nonce data = some bytes) :
    open? cipher nonce bytes = some data := by
  obtain ⟨hlen, rfl⟩ := seal?_eq_some cipher nonce h
  refine (open?_eq_some cipher nonce).mpr ⟨_, ?_, rfl, (combine_combine cipher nonce data).symm⟩
  rw [length_combine]
  exact Nat.le_add_right_of_le hlen

end Gcm

/-! ## Base64 -/

namespace Base64

theorem value?_digit : ∀ n, n < 64 → value? (digit n) = some n ∧ digit n ≠ '=' := by decide

@[simp] theorem decodeChars?_encodeChars (data : List UInt8) :
    decodeChars? (encodeChars data) = some data := by
  induction data using encodeChars.induct with
  | case1 => rfl
  | case2 a =>
    have ha := a.toNat_lt
    obtain ⟨h1, -⟩ := value?_digit (a.toNat / 4) (by omega)
    obtain ⟨h2, -⟩ := value?_digit (a.toNat % 4 * 16) (by omega)
    have hlow : a.toNat % 4 * 16 % 16 = 0 := by omega
    have hbyte : a.toNat / 4 * 4 + a.toNat % 4 * 16 / 16 = a.toNat := by omega
    simp only [encodeChars, decodeChars?, decodePadded?, h1, h2, hlow, hbyte, if_true,
      List.isEmpty_nil, Option.bind_eq_bind, Option.bind_some, UInt8.ofNat_toNat]
    rfl
  | case3 a b =>
    have ha := a.toNat_lt
    have hb := b.toNat_lt
    obtain ⟨h1, -⟩ := value?_digit (a.toNat / 4) (by omega)
    obtain ⟨h2, -⟩ := value?_digit (a.toNat % 4 * 16 + b.toNat / 16) (by omega)
    obtain ⟨h3, hne⟩ := value?_digit (b.toNat % 16 * 4) (by omega)
    have hlow : b.toNat % 16 * 4 % 4 = 0 := by omega
    have hfirst : a.toNat / 4 * 4 + (a.toNat % 4 * 16 + b.toNat / 16) / 16 = a.toNat := by omega
    have hsecond : (a.toNat % 4 * 16 + b.toNat / 16) % 16 * 16 + b.toNat % 16 * 4 / 4 = b.toNat := by
      omega
    simp only [encodeChars, decodeChars?, decodePadded?, h1, h2, h3, hne, hlow, hfirst, hsecond,
      if_true, if_false, List.isEmpty_nil, Option.bind_eq_bind, Option.bind_some, UInt8.ofNat_toNat]
    rfl
  | case4 a b c rest ih =>
    have ha := a.toNat_lt
    have hb := b.toNat_lt
    have hc := c.toNat_lt
    obtain ⟨h1, -⟩ := value?_digit (a.toNat / 4) (by omega)
    obtain ⟨h2, -⟩ := value?_digit (a.toNat % 4 * 16 + b.toNat / 16) (by omega)
    obtain ⟨h3, -⟩ := value?_digit (b.toNat % 16 * 4 + c.toNat / 64) (by omega)
    obtain ⟨h4, hne⟩ := value?_digit (c.toNat % 64) (by omega)
    have hfirst : a.toNat / 4 * 4 + (a.toNat % 4 * 16 + b.toNat / 16) / 16 = a.toNat := by omega
    have hsecond : (a.toNat % 4 * 16 + b.toNat / 16) % 16 * 16 + (b.toNat % 16 * 4 + c.toNat / 64) / 4
        = b.toNat := by omega
    have hthird : (b.toNat % 16 * 4 + c.toNat / 64) % 4 * 64 + c.toNat % 64 = c.toNat := by omega
    simp only [encodeChars, decodeChars?, h1, h2, h3, h4, hne, hfirst, hsecond, hthird, ih, if_false,
      Option.bind_eq_bind, Option.bind_some, UInt8.ofNat_toNat]
    rfl

@[simp] theorem decode?_encode (data : List UInt8) : decode? (encode data) = some data := by
  rw [decode?, encode, String.toList_ofList, decodeChars?_encodeChars]

@[simp] theorem length_encodeChars (data : List UInt8) :
    (encodeChars data).length = 4 * ((data.length + 2) / 3) := by
  induction data using encodeChars.induct with
  | case1 | case2 | case3 => simp [encodeChars]
  | case4 a b c rest ih =>
    simp only [encodeChars, List.length_cons, ih]
    omega

end Base64

/-! ## The frame -/

@[simp] theorem Nonce.split?_append (nonce : Nonce) (bytes : List UInt8) :
    Nonce.split? (nonce.toList ++ bytes) = some (nonce, bytes) := by
  have hlen : nonce.toList.length = Nonce.length := nonce.length_toList
  have hle : Nonce.length ≤ (nonce.toList ++ bytes).length := by
    rw [List.length_append, hlen]
    omega
  rw [split?, dif_pos hle, Option.some.injEq, Prod.mk.injEq]
  refine ⟨?_, ?_⟩
  · apply Vector.toList_inj.mp
    simp [← hlen]
  · rw [← hlen, List.drop_left]

namespace TextCipher

variable (c : TextCipher)

theorem sealText_eq_ok {nonce : Nonce} {text answer : String} (h : c.sealText nonce text = .ok answer) :
    ∃ bytes, Gcm.seal? c.block nonce (Utf8.encode text) = some bytes ∧
      answer = Base64.encode (nonce.toList ++ bytes) := by
  rw [sealText] at h
  split at h
  next bytes hbytes => exact ⟨bytes, hbytes, (Except.ok.inj h).symm⟩
  next => cases h

theorem exists_sealText {text : String} (h : (Utf8.encode text).length ≤ Gcm.maxLength)
    (nonce : Nonce) : ∃ answer, c.sealText nonce text = .ok answer := by
  rw [sealText, Gcm.seal?, if_pos h]
  exact ⟨_, rfl⟩

/-- **What has been sealed opens**, for every block function. -/
theorem openText_of_sealText {nonce : Nonce} {text answer : String}
    (h : c.sealText nonce text = .ok answer) : c.openText answer = .ok text := by
  obtain ⟨bytes, hbytes, rfl⟩ := c.sealText_eq_ok h
  rw [openText, Base64.decode?_encode]
  simp only [Nonce.split?_append, Gcm.open?_of_seal? c.block nonce hbytes, Utf8.decode?_encode]

end TextCipher

/-! ## Lengths -/

theorem Utf8.encode_ofList (chars : List Char) :
    encode (String.ofList chars) = chars.flatMap String.utf8EncodeChar := by
  simp [encode, List.utf8Encode]

/-- A character takes one to four bytes. -/
theorem Utf8.length_encode_ofList (chars : List Char) :
    chars.length ≤ (encode (String.ofList chars)).length ∧
      (encode (String.ofList chars)).length ≤ 4 * chars.length := by
  rw [encode_ofList]
  induction chars with
  | nil => simp
  | cons c rest ih =>
    have hpos := c.utf8Size_pos
    have hle := c.utf8Size_le_four
    simp only [List.flatMap_cons, List.length_append, List.length_cons,
      String.length_utf8EncodeChar] at ih ⊢
    omega

namespace TextCipher

variable (c : TextCipher)

/-- A sealed text has more bytes than the text in it, and not without a limit. -/
theorem length_sealText {nonce : Nonce} {text answer : String}
    (h : c.sealText nonce text = .ok answer) :
    (Utf8.encode text).length < (Utf8.encode answer).length ∧
      (Utf8.encode answer).length < 2 ^ (63 : Nat) := by
  obtain ⟨bytes, hbytes, rfl⟩ := c.sealText_eq_ok h
  obtain ⟨hmax, rfl⟩ := Gcm.seal?_eq_some c.block nonce hbytes
  obtain ⟨hlow, hhigh⟩ := Utf8.length_encode_ofList (Base64.encodeChars (nonce.toList ++
    (Gcm.combine c.block nonce (Utf8.encode text) ++
      Gcm.tag c.block nonce (Gcm.combine c.block nonce (Utf8.encode text)))))
  have hnonce : nonce.toList.length = 12 := nonce.length_toList
  simp only [Base64.length_encodeChars, List.length_append, Gcm.length_combine, Gcm.length_tag,
    hnonce, Gcm.tagLength] at hlow hhigh
  rw [Gcm.maxLength] at hmax
  rw [Base64.encode]
  omega

theorem ne_of_sealText {nonce : Nonce} {text answer : String}
    (h : c.sealText nonce text = .ok answer) : answer ≠ text := by
  intro he
  have hlen := (c.length_sealText h).1
  rw [he] at hlen
  exact Nat.lt_irrefl _ hlen

end TextCipher

end FieldSeal
