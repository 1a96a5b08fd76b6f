import FieldSeal.Proofs.Cipher.Spelling
import FieldSeal.Proofs.Cipher.Tag

/-!
# The frame of a sealed text

What a text is to a cipher is settled by the bytes it spells (`Base64.Spells`): there are none, there
are too few for a nonce, the bytes behind the nonce do not carry their tag, or they do
(`TextCipher.Framed`), and then what was sealed is a text or it is not. `TextCipher.Answers` has a case
for each of them, with the answer that belongs to it, and it is `openText` exactly (`openText_eq_iff`).

What the encrypted bytes and the tag are is said by the mode (`Gcm.Encrypts`, `Gcm.Tags`) and not by the
functions that make them. Nothing here asks what the block function does.
-/

set_option autoImplicit false

namespace FieldSeal

/-! ## Frames -/

theorem Nonce.split?_eq_some {frame bytes : List UInt8} {nonce : Nonce} :
    split? frame = some (nonce, bytes) ↔ frame = nonce.toList ++ bytes := by
  constructor
  · intro h
    rw [split?] at h
    split at h
    next hlen =>
      obtain ⟨rfl, rfl⟩ := Prod.mk.inj (Option.some.inj h)
      simp
    next => cases h
  · rintro rfl
    exact split?_append nonce bytes

theorem Nonce.split?_eq_none {frame : List UInt8} :
    split? frame = none ↔ frame.length < length := by
  rw [split?]
  split
  next hlen => exact iff_of_false (Option.some_ne_none _) (Nat.not_lt.mpr hlen)
  next hlen => exact iff_of_true rfl (Nat.not_le.mp hlen)

theorem Utf8.decode?_eq_none {bytes : List UInt8} :
    decode? bytes = none ↔ ∀ text, encode text ≠ bytes := by
  rw [Option.eq_none_iff_forall_ne_some]
  constructor
  · rintro h text rfl
    exact h text (decode?_encode text)
  · intro h text htext
    exact h text (encode_of_decode? htext)

open Base64 (Spells)

theorem Gcm.limit_eq : maxLength + tagLength = 2 ^ 36 + 16 := by
  rw [maxLength, tagLength]
  norm_num

namespace TextCipher

/-- The text is a frame that is authentic under the cipher: it spells a nonce, encrypted bytes and
their tag, and there are not more of them than the mode takes. -/
structure Framed (c : TextCipher) (nonce : Nonce) (encrypted tag : List UInt8) (text : String) :
    Prop where
  spells : Spells (nonce.toList ++ (encrypted ++ tag)) text.toList
  tags : Gcm.Tags c.block nonce encrypted tag
  length_le : encrypted.length ≤ 2 ^ 36 + 16

variable (c : TextCipher)

/-- What a text is to a cipher, and the answer to it. -/
inductive Answers (text : String) : Except CipherError String → Prop
  | notBase64 (h : ∀ frame, ¬ Spells frame text.toList) :
    Answers text (.error (.malformed .notBase64))
  | shortFrame {frame : List UInt8} (h : Spells frame text.toList)
      (hshort : frame.length < Nonce.length) :
    Answers text (.error (.malformed (.shortFrame frame.length)))
  | unauthentic {frame : List UInt8} (h : Spells frame text.toList)
      (hlong : Nonce.length ≤ frame.length)
      (hforged : ∀ nonce encrypted tag, ¬ c.Framed nonce encrypted tag text) :
    Answers text (.error .unauthentic)
  | notText {nonce : Nonce} {encrypted tag data : List UInt8}
      (h : c.Framed nonce encrypted tag text) (hdata : Gcm.Encrypts c.block nonce data encrypted)
      (hbytes : ∀ opened, Utf8.encode opened ≠ data) :
    Answers text (.error .notText)
  | text {nonce : Nonce} {encrypted tag : List UInt8} {opened : String}
      (h : c.Framed nonce encrypted tag text)
      (hdata : Gcm.Encrypts c.block nonce (Utf8.encode opened) encrypted) :
    Answers text (.ok opened)

variable {c} {text : String} {nonce : Nonce} {encrypted tag data : List UInt8}

/-- So short is what the mode takes that its length in bits has a word of 64 bits. -/
theorem Framed.bits_lt (h : c.Framed nonce encrypted tag text) : 8 * encrypted.length < 2 ^ 64 := by
  have hlen := h.length_le
  norm_num at hlen ⊢
  omega

/-- Authentic bytes open. -/
theorem Framed.open?_eq (h : c.Framed nonce encrypted tag text)
    (hdata : Gcm.Encrypts c.block nonce data encrypted) :
    Gcm.open? c.block nonce (encrypted ++ tag) = some data := by
  obtain rfl := (Gcm.tags_iff h.bits_lt).mp h.tags
  exact (Gcm.open?_eq_some c.block nonce).mpr
    ⟨encrypted, Gcm.limit_eq ▸ h.length_le, rfl, Gcm.encrypts_iff.mp hdata.symm⟩

/-- No others do. -/
theorem framed_of_open? {bytes : List UInt8} (hspells : Spells (nonce.toList ++ bytes) text.toList)
    (h : Gcm.open? c.block nonce bytes = some data) :
    ∃ encrypted tag, c.Framed nonce encrypted tag text ∧
      Gcm.Encrypts c.block nonce data encrypted := by
  obtain ⟨encrypted, hlen, rfl, rfl⟩ := (Gcm.open?_eq_some c.block nonce).mp h
  rw [Gcm.limit_eq] at hlen
  have hbits : 8 * encrypted.length < 2 ^ 64 := by
    norm_num at hlen ⊢
    omega
  exact ⟨encrypted, _, ⟨hspells, Gcm.tags_tag c.block nonce hbits, hlen⟩,
    (Gcm.encrypts_combine c.block nonce encrypted).symm⟩

/-- The cases leave nothing out. -/
theorem exists_answers (text : String) : ∃ answer, c.Answers text answer := by
  cases hframe : Base64.decode? text with
  | none =>
    refine ⟨_, .notBase64 fun frame h => ?_⟩
    rw [Base64.decode?_eq_some.mpr h] at hframe
    cases hframe
  | some frame =>
    have hspells := Base64.decode?_eq_some.mp hframe
    by_cases hlong : Nonce.length ≤ frame.length
    · by_cases hframed : ∃ nonce encrypted tag, c.Framed nonce encrypted tag text
      · obtain ⟨nonce, encrypted, tag, h⟩ := hframed
        have hdata := (Gcm.encrypts_combine c.block nonce encrypted).symm
        cases hopened : Utf8.decode? (Gcm.combine c.block nonce encrypted) with
        | none => exact ⟨_, .notText h hdata (Utf8.decode?_eq_none.mp hopened)⟩
        | some opened =>
          rw [← Utf8.encode_of_decode? hopened] at hdata
          exact ⟨_, .text h hdata⟩
      · refine ⟨_, .unauthentic hspells hlong fun nonce encrypted tag h => hframed ⟨_, _, _, h⟩⟩
    · exact ⟨_, .shortFrame hspells (Nat.not_le.mp hlong)⟩

theorem Answers.openText_eq {answer : Except CipherError String} (h : c.Answers text answer) :
    c.openText text = answer := by
  -- In every case but the first the bytes are the ones that are read.
  cases h with
  | notBase64 h =>
    have hnone : Base64.decode? text = none :=
      Option.eq_none_iff_forall_ne_some.mpr fun frame hframe =>
        h frame (Base64.decode?_eq_some.mp hframe)
    rw [openText, hnone]
  | shortFrame h hshort =>
    rw [openText, Base64.decode?_eq_some.mpr h]
    simp only [Nonce.split?_eq_none.mpr hshort]
  | unauthentic h hlong hforged =>
    obtain ⟨⟨nonce, bytes⟩, hsplit⟩ := Option.ne_none_iff_exists'.mp
      (mt Nonce.split?_eq_none.mp (Nat.not_lt.mpr hlong))
    obtain rfl := Nonce.split?_eq_some.mp hsplit
    have hnone : Gcm.open? c.block nonce bytes = none :=
      Option.eq_none_iff_forall_ne_some.mpr fun data hdata => by
        obtain ⟨encrypted, tag, hframed, -⟩ := framed_of_open? h hdata
        exact hforged nonce encrypted tag hframed
    rw [openText, Base64.decode?_eq_some.mpr h]
    simp only [hsplit, hnone]
  | notText h hdata hbytes =>
    rw [openText, Base64.decode?_eq_some.mpr h.spells]
    simp only [Nonce.split?_append, h.open?_eq hdata, Utf8.decode?_eq_none.mpr hbytes]
  | text h hdata =>
    rw [openText, Base64.decode?_eq_some.mpr h.spells]
    simp only [Nonce.split?_append, h.open?_eq hdata, Utf8.decode?_encode]

theorem openText_eq_iff {answer : Except CipherError String} :
    c.openText text = answer ↔ c.Answers text answer := by
  refine ⟨?_, Answers.openText_eq⟩
  rintro rfl
  obtain ⟨answer, h⟩ := exists_answers (c := c) text
  rwa [h.openText_eq]

/-! ## Each answer of opening -/

/-- What spells no bytes is refused as no base64, and nothing else is. -/
theorem openText_eq_notBase64 :
    c.openText text = .error (.malformed .notBase64) ↔ ∀ frame, ¬ Spells frame text.toList := by
  rw [openText_eq_iff]
  constructor
  · intro h
    cases h with
    | notBase64 h => exact h
  · exact .notBase64

/-- The count that is reported is that of the bytes that are spelled. -/
theorem openText_eq_shortFrame {n : Nat} :
    c.openText text = .error (.malformed (.shortFrame n)) ↔
      n < 12 ∧ ∃ frame, Spells frame text.toList ∧ frame.length = n := by
  rw [openText_eq_iff]
  constructor
  · rintro (_ | ⟨h, hshort⟩)
    exact ⟨hshort, _, h, rfl⟩
  · rintro ⟨hshort, frame, h, rfl⟩
    exact .shortFrame h hshort

/-- What has a nonce in it but no frame is refused as not authentic, and nothing else is. -/
theorem openText_eq_unauthentic :
    c.openText text = .error .unauthentic ↔
      (∃ frame, Spells frame text.toList ∧ 12 ≤ frame.length) ∧
        ∀ nonce encrypted tag, ¬ c.Framed nonce encrypted tag text := by
  rw [openText_eq_iff]
  constructor
  · intro h
    cases h with
    | unauthentic h hlong hforged => exact ⟨⟨_, h, hlong⟩, hforged⟩
  · rintro ⟨⟨frame, h, hlong⟩, hforged⟩
    exact .unauthentic h hlong hforged

/-- Only a frame around data that are no text is refused for its data. -/
theorem openText_eq_notText :
    c.openText text = .error .notText ↔
      ∃ nonce encrypted tag data, c.Framed nonce encrypted tag text ∧
        Gcm.Encrypts c.block nonce data encrypted ∧ ∀ opened, Utf8.encode opened ≠ data := by
  rw [openText_eq_iff]
  constructor
  · intro h
    cases h with
    | notText h hdata hbytes => exact ⟨_, _, _, _, h, hdata, hbytes⟩
  · rintro ⟨nonce, encrypted, tag, data, h, hdata, hbytes⟩
    exact .notText h hdata hbytes

/-- What opens is the frame around the text. -/
theorem openText_eq_ok {opened : String} :
    c.openText text = .ok opened ↔
      ∃ nonce encrypted tag, c.Framed nonce encrypted tag text ∧
        Gcm.Encrypts c.block nonce (Utf8.encode opened) encrypted := by
  rw [openText_eq_iff]
  constructor
  · intro h
    cases h with
    | text h hdata => exact ⟨_, _, _, h, hdata⟩
  · rintro ⟨nonce, encrypted, tag, h, hdata⟩
    exact .text h hdata

/-- A frame that has no room for a tag is not authentic. -/
theorem openText_of_no_tag {frame : List UInt8} (h : Spells frame text.toList)
    (hlow : Nonce.length ≤ frame.length) (hhigh : frame.length < Nonce.length + Gcm.tagLength) :
    c.openText text = .error .unauthentic := by
  refine (Answers.unauthentic h hlow fun nonce encrypted tag hframed => ?_).openText_eq
  have hnonce : nonce.toList.length = Nonce.length := nonce.length_toList
  rw [h.bytes_unique hframed.spells, List.length_append, List.length_append, hnonce,
    hframed.tags.length, Gcm.tagLength] at hhigh
  omega

/-- What has no nonce in it is malformed, and nothing else. -/
theorem openText_eq_malformed : (∃ why, c.openText text = .error (.malformed why)) ↔
    ∀ frame, Spells frame text.toList → frame.length < Nonce.length := by
  constructor
  · rintro ⟨why, h⟩ frame hspells
    cases openText_eq_iff.mp h with
    | notBase64 hnone => exact absurd hspells (hnone frame)
    | shortFrame hshorter hshort => rwa [hspells.bytes_unique hshorter]
  · intro h
    by_cases hspelled : ∃ frame, Spells frame text.toList
    · obtain ⟨frame, hspells⟩ := hspelled
      exact ⟨_, (Answers.shortFrame hspells (h frame hspells)).openText_eq⟩
    · exact ⟨_, (Answers.notBase64 (not_exists.mp hspelled)).openText_eq⟩

/-! ## The frame is exact -/

/-- A text is sealed unless it is too long, whatever the nonce. -/
theorem exists_sealText_iff {nonce : Nonce} {text : String} :
    (∃ answer, c.sealText nonce text = .ok answer) ↔ (Utf8.encode text).length ≤ 2 ^ 36 := by
  constructor
  · rintro ⟨answer, h⟩
    obtain ⟨bytes, hbytes, -⟩ := c.sealText_eq_ok h
    exact (Gcm.seal?_eq_some c.block nonce hbytes).1
  · intro h
    exact c.exists_sealText h nonce

/-- What is sealed is the frame of the mode: the data encrypted, and the tag of that. -/
theorem framed_of_sealText {answer : String} (h : c.sealText nonce text = .ok answer) :
    ∃ encrypted tag, Gcm.Encrypts c.block nonce (Utf8.encode text) encrypted ∧
      c.Framed nonce encrypted tag answer := by
  obtain ⟨bytes, hbytes, rfl⟩ := c.sealText_eq_ok h
  obtain ⟨hlen, rfl⟩ := Gcm.seal?_eq_some c.block nonce hbytes
  have hencrypts := Gcm.encrypts_combine c.block nonce (Utf8.encode text)
  have hle : (Gcm.combine c.block nonce (Utf8.encode text)).length ≤ 2 ^ 36 + 16 := by
    rw [hencrypts.length, ← Gcm.limit_eq]
    exact Nat.le_add_right_of_le hlen
  have hbits : 8 * (Gcm.combine c.block nonce (Utf8.encode text)).length < 2 ^ 64 := by
    norm_num at hle ⊢
    omega
  refine ⟨_, _, hencrypts, ?_, Gcm.tags_tag c.block nonce hbits, hle⟩
  rw [Base64.encode, String.toList_ofList]
  exact Base64.spells_encodeChars _

/-- A sealed text has four characters for every three bytes of the frame. -/
theorem Framed.length_eq (h : c.Framed nonce encrypted tag text) :
    text.length = 4 * ((28 + encrypted.length + 2) / 3) := by
  have hnonce : nonce.toList.length = 12 := nonce.length_toList
  have hlen := h.spells.length_eq
  rw [List.length_append, List.length_append, h.tags.length, hnonce, String.length_toList] at hlen
  rw [hlen]
  omega

/-- **The frame is exact**, for every block function and so under every passphrase. The first half is
what sealing yields, for all texts that are sealed at all: the canonical base64 of the nonce, of the
text in counter mode and of the tag of that, of a length that the text alone determines, and it opens
again. The second half is about every text there is: each answer of opening is given exactly where it
belongs. -/
theorem frame_exact (c : TextCipher) :
    (∀ (nonce : Nonce) (text : String),
      ((∃ answer, c.sealText nonce text = .ok answer) ↔ (Utf8.encode text).length ≤ 2 ^ 36) ∧
      ∀ answer, c.sealText nonce text = .ok answer →
        ∃ encrypted tag, Gcm.Encrypts c.block nonce (Utf8.encode text) encrypted ∧
          Gcm.Tags c.block nonce encrypted tag ∧
          encrypted.length = (Utf8.encode text).length ∧ tag.length = 16 ∧
          Spells (nonce.toList ++ (encrypted ++ tag)) answer.toList ∧
          answer.length = 4 * ((28 + (Utf8.encode text).length + 2) / 3) ∧
          c.openText answer = .ok text) ∧
    ∀ text : String,
      ((∃ why, c.openText text = .error (.malformed why)) ↔
        ∀ frame, Spells frame text.toList → frame.length < 12) ∧
      (c.openText text = .error (.malformed .notBase64) ↔
        ∀ frame, ¬ Spells frame text.toList) ∧
      (∀ n, c.openText text = .error (.malformed (.shortFrame n)) ↔
        n < 12 ∧ ∃ frame, Spells frame text.toList ∧ frame.length = n) ∧
      (c.openText text = .error .unauthentic ↔
        (∃ frame, Spells frame text.toList ∧ 12 ≤ frame.length) ∧
          ∀ nonce encrypted tag, ¬ c.Framed nonce encrypted tag text) ∧
      (∀ frame, Spells frame text.toList → 12 ≤ frame.length → frame.length < 28 →
        c.openText text = .error .unauthentic) ∧
      (c.openText text = .error .notText ↔
        ∃ nonce encrypted tag data, c.Framed nonce encrypted tag text ∧
          Gcm.Encrypts c.block nonce data encrypted ∧ ∀ opened, Utf8.encode opened ≠ data) ∧
      ∀ opened, c.openText text = .ok opened ↔
        ∃ nonce encrypted tag, c.Framed nonce encrypted tag text ∧
          Gcm.Encrypts c.block nonce (Utf8.encode opened) encrypted := by
  refine ⟨fun nonce text => ⟨exists_sealText_iff, fun answer h => ?_⟩, fun text =>
    ⟨openText_eq_malformed, openText_eq_notBase64, fun _ => openText_eq_shortFrame,
      openText_eq_unauthentic, fun _ => openText_of_no_tag, openText_eq_notText,
      fun _ => openText_eq_ok⟩⟩
  obtain ⟨encrypted, tag, hencrypts, hframed⟩ := framed_of_sealText h
  exact ⟨encrypted, tag, hencrypts, hframed.tags, hencrypts.length, hframed.tags.length,
    hframed.spells, hencrypts.length ▸ hframed.length_eq, c.openText_of_sealText h⟩

/-- A text of seventeen bytes: the last one is encrypted with the first byte of a second block, which is
that of counter 3. A nonce alone is no sealed text. -/
theorem frame_exact_email : ∃ answer encrypted tag,
    (ofPassphrase "k1").sealText (Vector.replicate 12 0) "alice@example.com" = .ok answer ∧
      answer.length = 60 ∧
      Spells (List.replicate 12 0 ++ (encrypted ++ tag)) answer.toList ∧
      encrypted[0]? = some (0x61 ^^^ ((ofPassphrase "k1").block 2).byte 0) ∧
      encrypted[15]? = some (0x6f ^^^ ((ofPassphrase "k1").block 2).byte 15) ∧
      encrypted[16]? = some (0x6d ^^^ ((ofPassphrase "k1").block 3).byte 0) ∧
      (ofPassphrase "k1").openText answer = .ok "alice@example.com" ∧
      (ofPassphrase "k1").openText "AAAAAAAAAAAAAAAA" = .error .unauthentic := by
  obtain ⟨hsealing, hopening⟩ := frame_exact (ofPassphrase "k1")
  have hlen : (Utf8.encode "alice@example.com").length = 17 := by rfl
  obtain ⟨hsealed, hframe⟩ := hsealing (Vector.replicate 12 0) "alice@example.com"
  obtain ⟨answer, h⟩ := hsealed.mpr (by rw [hlen]; norm_num)
  obtain ⟨encrypted, tag, hencrypts, -, -, -, hspells, hanswer, hopened⟩ := hframe answer h
  obtain ⟨-, -, -, -, hshort, -⟩ := hopening "AAAAAAAAAAAAAAAA"
  have hnonce : Spells (List.replicate 12 0) "AAAAAAAAAAAAAAAA".toList :=
    Base64.spells_encodeChars (List.replicate 12 0)
  have hfirst : Gcm.counterBlock (Vector.replicate 12 0) 2 = 2 := by rfl
  have hsecond : Gcm.counterBlock (Vector.replicate 12 0) 3 = 3 := by rfl
  refine ⟨answer, encrypted, tag, h, ?_, hspells, ?_, ?_, ?_, hopened,
    hshort _ hnonce (by decide) (by decide)⟩
  · rw [hanswer, hlen]
  · rw [← hfirst]
    exact hencrypts.byte 0 0x61 (by rfl)
  · rw [← hfirst]
    exact hencrypts.byte 15 0x6f (by rfl)
  · rw [← hsecond]
    exact hencrypts.byte 16 0x6d (by rfl)

end TextCipher

end FieldSeal
