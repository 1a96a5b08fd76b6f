import FieldSeal.Document
import FieldSeal.Proofs.Message.RoundTrip
import FieldSeal.Proofs.Rendering.Failures
import FieldSeal.Proofs.Rendering.Reading
import FieldSeal.Proofs.Rendering.RoundTrip

/-!
# A sealed document opens to what was sealed

Sealing and opening a document go through a value each, and use opposite renderings: what is read as
plain is written on the wire, and what is read off the wire is written as plain. The value in the
middle of sealing is the one that opening reads, because what is rendered is read back
(`Rendering/RoundTrip`); opening turns it into the one that sealing started with, because a walk
takes off what a walk has put on (`TextCipher.run_decrypt_of_run_encrypt`).

Both of these ask something of a value that was read a moment ago, and all of it is that the value
fits (`Rendering/Reading`). That the opened value can be written at all is not for the cipher to
say: no text keeps a value from being written as a plain document (`Rendering/Failures`).
-/

set_option autoImplicit false

namespace FieldSeal

/-! ## The passes of sealing a document -/

theorem Schema.sealDocument_eq_ok {s : Schema} {cipher : Cipher} {direction : Direction}
    {document result : Json} {index learned : FieldIndex} :
    s.sealDocument cipher direction document index = .ok (result, learned) ↔
      ∃ v, s.fromJson direction.source document = .ok v ∧
        let outcome := (cipher.walk direction).run s v index
        outcome.failure = none ∧ s.toJson direction.target outcome.value = .ok result ∧
          outcome.trace.index = learned := by
  rw [sealDocument]
  constructor
  · intro h
    cases hread : s.fromJson direction.source document with
    | error e =>
      rw [hread] at h
      cases h
    | ok v =>
      rw [hread] at h
      dsimp only at h
      cases hf : ((cipher.walk direction).run s v index).failure with
      | some e =>
        rw [hf] at h
        cases h
      | none =>
        rw [hf] at h
        obtain ⟨j, hj, he⟩ := map_eq_ok.mp h
        cases he
        exact ⟨v, rfl, hf, hj, rfl⟩
  · rintro ⟨v, hread, hf, hj, rfl⟩
    rw [hread]
    dsimp only at hf hj ⊢
    rw [hf, hj]
    rfl

/-! ## Values that have been read -/

/-- A walk changes texts only. -/
theorem Walk.shape_run {w : Walk} {index : FieldIndex} (hi : index.Sound) (s : Schema) (v : Value) :
    (w.run s v index).value.shape = v.shape :=
  Schema.shape_eq_of_blank_eq (w.run_follows hi s v).blank_eq

namespace Schema.Fits

variable {s : Schema} {v : Value}

/-- In a plain document nothing is encrypted. -/
theorem unencrypted (h : s.Fits .plain v) : v.Unencrypted := by
  intro text hmem
  obtain ⟨t, -, hfits⟩ := h.part hmem
  cases hfits.mark_eq

theorem remark_eq {rendering : Rendering} (h : s.Fits rendering v) : v.remark rendering = v := by
  apply Value.mapTexts_eq_self
  intro t hmem
  obtain ⟨_, -, hfits⟩ := h.part hmem
  rw [hfits.mark_eq]
  cases rendering <;> rfl

end Schema.Fits

/-- What has been read and walked through is written and read again as it is, on the wire. -/
theorem Schema.read_wire_of_walked {s : Schema} (hs : s.Parsed) (hn : s.NamesApart) {v w : Value}
    {j : Json} {rendering : Rendering} (hv : s.Fits rendering v) (hw : w.shape = v.shape)
    (hj : s.toJson .wire w = .ok j) : s.fromJson .wire j = .ok w := by
  have hread := fromJson_toJson hs.wellFormed hn (hv.regular.congr hw) (hv.typesIn.congr hw) hj
  rw [hread]
  exact congrArg Except.ok w.mapTexts_id

/-- A plain document of a value that was read from one is read as the same value. -/
theorem Schema.read_plain_of_fits {s : Schema} (hs : s.Parsed) (hn : s.NamesApart) {v : Value}
    {j : Json} (hv : s.Fits .plain v) (hj : s.toJson .plain v = .ok j) :
    s.fromJson .plain j = .ok v := by
  have hread := fromJson_toJson hs.wellFormed hn hv.regular hv.typesIn hj
  rw [hread, hv.remark_eq]

/-! ## There and back -/

/-- What was sealed out of a value from a plain document opens to the plain document of this value,
whatever nonces and indices the two directions work with. -/
theorem Schema.Fits.open_sealed {s : Schema} (hs : s.Parsed) (hn : s.NamesApart) {v : Value}
    (hv : s.Fits .plain v) {cipher : TextCipher} {nonces : Nat → Nonce} (nonces' : Nat → Nonce)
    {index index' : FieldIndex} (hi : index.Sound) (hi' : index'.Sound) {sealed restored : Json}
    (hsealed : (((cipher.withNonces nonces).walk .encrypt).run s v index).failure = none)
    (hwritten : s.toJson .wire (((cipher.withNonces nonces).walk .encrypt).run s v index).value
      = .ok sealed) (hrestored : s.toJson .plain v = .ok restored) :
    ∃ learned, s.sealDocument (cipher.withNonces nonces') .decrypt sealed index'
      = .ok (restored, learned) := by
  have hreread := read_wire_of_walked hs hn hv (Walk.shape_run hi s v) hwritten
  obtain ⟨hopened, hvalue⟩ := TextCipher.run_decrypt_of_run_encrypt _ hv.unencrypted nonces nonces'
    hi hi' hsealed
  refine ⟨_, sealDocument_eq_ok.mpr ⟨_, hreread, hopened, ?_, rfl⟩⟩
  rw [hvalue]
  exact hrestored

/-- **A sealed document opens to what was sealed.** If the members of each union of the schema have
names of their own and a plain document could be sealed under a passphrase, then what came out opens
under the same passphrase, to the plain document of the value that was read at first; and that
document is read as this value again. Neither the nonces nor the indices need be the same. That the
document is in order says that it is a tree at all (`Json.ordered_of_ofText?`). -/
theorem Schema.open_sealed_document {s : Schema} (hs : s.Parsed) (hn : s.NamesApart)
    {document sealed : Json} (ho : document.Ordered) (passphrase : String)
    (nonces nonces' : Nat → Nonce) {index index' learned : FieldIndex} (hi : index.Reachable)
    (hi' : index'.Reachable)
    (h : s.sealDocument ((TextCipher.ofPassphrase passphrase).withNonces nonces) .encrypt document
      index = .ok (sealed, learned)) :
    ∃ v restored learned', s.fromJson .plain document = .ok v ∧ s.toJson .plain v = .ok restored ∧
      s.sealDocument ((TextCipher.ofPassphrase passphrase).withNonces nonces') .decrypt sealed index'
        = .ok (restored, learned') ∧
      s.fromJson .plain restored = .ok v := by
  obtain ⟨v, hread, hsealed, hwritten, -⟩ := sealDocument_eq_ok.mp h
  have hv := fits_of_fromJson ho hread
  obtain ⟨restored, hrestored⟩ := exists_toJson_plain (Walk.shape_run hi.sound s v) hwritten
  obtain ⟨learned', hopened⟩ :=
    hv.open_sealed hs hn nonces' hi.sound hi'.sound hsealed hwritten hrestored
  exact ⟨v, restored, learned', hread, hrestored, hopened, read_plain_of_fits hs hn hv hrestored⟩

/-- A document with a text at a member of a union, a marked text, and a key that no field has: it is
restored but for the key. -/
theorem Schema.open_sealed_document_user :
    let type : RecordType := ⟨⟨"User", none⟩, [
      ⟨"email", 0, .union [.null, .string (some .inline)]⟩, ⟨"id", 1, .string none⟩,
      ⟨"phone", 2, .string (some .typed)⟩]⟩
    let document : Json := .object [("email", .object [("string", .string "a@b.com")]),
      ("id", .string "u1"), ("note", .null), ("phone", .string "555")]
    let restored : Json := .object [("email", .object [("string", .string "a@b.com")]),
      ("id", .string "u1"), ("phone", .string "555")]
    let nonces : Nat → Nonce := fun n => Vector.replicate 12 (UInt8.ofNat n)
    let cipher := (TextCipher.ofPassphrase "k1").withNonces nonces
    ∃ email phone learned learned',
      let sealed : Json := .object [("email", .object [("string", .string email)]),
        ("id", .string "u1"), ("phone", .string phone)]
      (Schema.record type).sealDocument cipher .encrypt document .empty = .ok (sealed, learned) ∧
        (Schema.record type).sealDocument cipher .decrypt sealed .empty
          = .ok (restored, learned') := by
  intro type document restored nonces cipher
  have hs : (Schema.record type).Parsed :=
    ⟨.object [("fields", .array [
        .object [("name", .string "email"), ("type", .array [.string "null", .object [
          ("logicalType", .string "inline-encrypted-string"), ("type", .string "string")]])],
        .object [("name", .string "id"), ("type", .string "string")],
        .object [("name", .string "phone"), ("type", .object [
          ("logicalType", .string "encrypted-string"), ("type", .string "string")])]]),
      ("name", .string "User"), ("type", .string "record")], by rfl⟩
  have hn : (Schema.record type).NamesApart := by
    intro members hm
    have hmembers : members = [.null, .string (some .inline)] := by
      simpa [type] using hm
    rw [hmembers]
    decide
  have ho : document.Ordered := by
    simp only [document, Json.Ordered, Json.OrderedMembers, Table.Ascending, and_true]
    exact ⟨by decide, by decide⟩
  obtain ⟨email, hemail⟩ := (TextCipher.ofPassphrase "k1").exists_sealText
    (show (Utf8.encode "a@b.com").length ≤ Gcm.maxLength by decide) (nonces 0)
  obtain ⟨phone, hphone⟩ := (TextCipher.ofPassphrase "k1").exists_sealText
    (show (Utf8.encode "555").length ≤ Gcm.maxLength by decide) (nonces 1)
  let v : Value := .record ⟨type, [.string "a@b.com", .string "u1", .tagged (.plain "555")]⟩
  let u : Value := .record ⟨type, [.string email, .string "u1", .tagged (.encrypted phone)]⟩
  have hturns : (cipher.walk .encrypt).turnAll ((Schema.record type).slots v) []
      = ⟨(Schema.record type).slots u, ["a@b.com", "555"], none⟩ := by
    generalize hw : cipher.walk .encrypt = w
    have hslots : (Schema.record type).slots v = [.inline "a@b.com", .typed (.plain "555")] := by
      rfl
    have hsealed : (Schema.record type).slots u = [.inline email, .typed (.encrypted phone)] := by
      rfl
    have hdirection : w.direction = .encrypt := hw ▸ rfl
    have hfirst : w.leaf 0 "a@b.com" = .ok email := hw ▸ hemail
    have hsecond : w.leaf 1 "555" = .ok phone := hw ▸ hphone
    rw [hslots, hsealed]
    simp [Walk.turnAll, Walk.turn, Slot.handed?, Slot.answered, hdirection, hfirst, hsecond]
  have hvalue : ((cipher.walk .encrypt).run (.record type) v .empty).value = u :=
    Walk.run_value_eq FieldIndex.sound_empty (by rfl) (by rw [hturns])
  have hf : ((cipher.walk .encrypt).run (.record type) v .empty).failure = none := by
    rw [((cipher.walk .encrypt).run_follows FieldIndex.sound_empty _ _).failure_eq, hturns]
  have hread : (Schema.record type).fromJson .plain document = .ok v := by rfl
  let sealed : Table Json := [("email", .object [("string", .string email)]), ("id", .string "u1"),
    ("phone", .string phone)]
  have hascending : Table.Ascending sealed := by
    have hkeys : ["email", "id", "phone"].Pairwise (· < ·) := by decide
    exact List.pairwise_map.mp (show (sealed.map Prod.fst).Pairwise (· < ·) from hkeys)
  have hwritten : (Schema.record type).toJson .wire u = .ok (.object sealed) := by
    rw [← Table.ofList_ascending hascending]
    rfl
  obtain ⟨learned, hsealed⟩ : ∃ learned, (Schema.record type).sealDocument cipher .encrypt document
      .empty = .ok (.object sealed, learned) :=
    ⟨_, sealDocument_eq_ok.mpr ⟨v, hread, hf, hvalue.symm ▸ hwritten, rfl⟩⟩
  obtain ⟨v', restored', learned', hread', hrestored, hopened, -⟩ :=
    open_sealed_document hs hn ho "k1" nonces nonces .empty .empty hsealed
  obtain rfl : v = v' := Except.ok.inj (hread.symm.trans hread')
  obtain rfl : restored = restored' := Except.ok.inj
    ((show (Schema.record type).toJson .plain v = .ok restored by rfl).symm.trans hrestored)
  exact ⟨email, phone, learned, learned', hsealed, hopened⟩

end FieldSeal
