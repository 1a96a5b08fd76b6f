import FieldSeal.Proofs.Message.Producing
import FieldSeal.Proofs.Wire.RoundTrip

/-!
# What a producer sends a consumer gets

Between the two lie four passes, and three of the joints between them have been shown elsewhere: what
is sealed opens (`Cipher/Opening`), a walk takes off what a walk has put on (`Walk/Layers`), and what
is written is read back (`Wire/RoundTrip`). The one that is missing is that what is written is fit to
be read: reading back asks of a value that it belongs to the schema, and the value that is written
is not the one that was sent but what encrypting has made of it. It has the shape of that value, and
sealed texts are longer, but not without a limit (`Schema.Suits.run`).

A message without the header goes through the same four passes, of which two then do nothing. So
`Message.suits_produced` and `Message.consume_produced` are each said of both kinds of messages, and
`Message.decode_of_encode` does not tell them apart any more.
-/

set_option autoImplicit false

namespace FieldSeal

open FieldSeal.Wire

/- A power of natural numbers is that of core here, whatever else is in scope. -/
attribute [local instance (high)] instPowNat

/-! ## What encrypting leaves is fit to be written -/

/-- The answers of a cipher have lengths of things that can be in memory. -/
def Leaf.Bounded (leaf : Leaf) : Prop :=
  ∀ n text answer, leaf n text = .ok answer → (Utf8.encode answer).length < 2 ^ (63 : Nat)

section

variable {s : Schema} {v : Value} {leaf : Leaf} {index : FieldIndex}

theorem Slot.Sealed.length_lt (hleaf : leaf.Bounded) {calls : List String} {c d : Slot}
    (h : Sealed leaf calls c d) (hc : ∀ n ∈ c.value.lengths, n < 2 ^ (63 : Nat)) :
    ∀ n ∈ d.value.lengths, n < 2 ^ (63 : Nat) := by
  cases h with
  | inline _ ha | typed _ ha =>
    intro n hn
    rw [Slot.value, Value.lengths, List.mem_singleton] at hn
    exact hn ▸ hleaf _ _ _ ha
  | passed text => exact hc

theorem Value.Addressable.run (hv : v.Addressable) (hleaf : leaf.Bounded) (hi : index.Sound)
    (hf : (Walk.run ⟨.encrypt, leaf⟩ s v index).failure = none) :
    (Walk.run ⟨.encrypt, leaf⟩ s v index).value.Addressable := by
  have hrun := Walk.run_follows (w := ⟨.encrypt, leaf⟩) hi s v
  refine hv.congr (Schema.shape_eq_of_blank_eq hrun.blank_eq) fun x hx ht => ?_
  obtain ⟨d, rfl⟩ := Slot.exists_of_isText ht
  obtain hd | hd := Schema.mem_slots_or_mem_parts hrun.blank_eq hx
  · obtain ⟨-, hslots⟩ := Walk.turnAll_sealed (hrun.failure_eq ▸ hf)
    rw [← hrun.slots_eq, ← hrun.calls_eq] at hslots
    obtain ⟨c, hc, hsealed⟩ := exists_of_forall₂ hslots.flip hd
    exact hsealed.length_lt hleaf (hv _ (Schema.part_of_mem_slots hc))
  · exact hv _ hd

/-- What a value had to have for the wire, it has after it was encrypted. -/
theorem Schema.Suits.run (h : s.Suits v) (hleaf : leaf.Bounded) (hi : index.Sound)
    (hf : (Walk.run ⟨.encrypt, leaf⟩ s v index).failure = none) :
    s.Suits (Walk.run ⟨.encrypt, leaf⟩ s v index).value := by
  have hrun := Walk.run_follows (w := ⟨.encrypt, leaf⟩) hi s v
  have hshape := Schema.shape_eq_of_blank_eq hrun.blank_eq
  exact ⟨h.parsed, h.addressable, h.belongs.regular.congr hshape, h.belongs.types.congr hshape,
    h.belongs.addressable.run hleaf hi hf⟩

theorem Value.Within.run {limit : Nat} {w : Walk} (hv : v.Within limit) (hi : index.Sound) :
    (w.run s v index).value.Within limit :=
  hv.congr (Schema.shape_eq_of_blank_eq (w.run_follows hi s v).blank_eq)

end

/-- A record that has been walked through is one of its type. -/
theorem Walk.exists_record_run {w : Walk} (r : Record) (index : FieldIndex) :
    ∃ r', (w.run (.record r.type) (.record r) index).value = .record r' ∧ r'.type = r.type := by
  rw [w.run_record]
  exact ⟨_, rfl, rfl⟩

/-! ## The cipher of a passphrase -/

namespace TextCipher

variable (c : TextCipher)

theorem bounded (nonces : Nat → Nonce) : ((c.withNonces nonces).walk .encrypt).leaf.Bounded :=
  fun _ _ _ h => (c.length_sealText h).2

/-- A walk that opens takes off the one layer that a walk that seals has put on. -/
theorem run_decrypt_of_run_encrypt {s : Schema} {v : Value} (hplain : v.Unencrypted)
    (nonces nonces' : Nat → Nonce) {index index' : FieldIndex} (hi : index.Sound)
    (hi' : index'.Sound) (hf : (((c.withNonces nonces).walk .encrypt).run s v index).failure = none) :
    let u := (((c.withNonces nonces).walk .encrypt).run s v index).value
    let o := ((c.withNonces nonces').walk .decrypt).run s u index'
    o.failure = none ∧ o.value = v := by
  intro u o
  have hlayer : s.Under c.openText 1 v u :=
    (Schema.Under.refl hplain).run_encrypt (fun _ _ _ h => c.openText_of_sealText h) hi
      (Outcome.result_eq_ok.mpr ⟨hf, rfl⟩)
  obtain ⟨x, hx, hbare⟩ := hlayer.run_decrypt hi'
  rw [hbare.eq_of_zero] at hx
  exact Outcome.result_eq_ok.mp hx

end TextCipher

/-! ## There and back -/

namespace Message

section

variable {m : Message} {r : Record} {producer consumer : KeyPolicy} {nonces nonces' : Nat → Nonce}
  {index index' : FieldIndex} {produced : Processed}

/-- What has been produced is fit to be written and to be read, as it was before. -/
theorem suits_produced (hv : m.value = .record r) (hsuits : (Schema.record r.type).Suits m.value)
    (hwithin : m.value.Within maxItems) (hi : index.Sound)
    (hp : m.process .encrypt producer nonces index = produced) (hf : produced.failure = none) :
    (Schema.record r.type).Suits produced.message.value ∧
      produced.message.value.Within maxItems := by
  obtain ⟨-, rfl⟩ | ⟨id, passphrase, -, -, hsealed, rfl⟩ := process_cases hv hp hf
  · exact ⟨hsuits, hwithin⟩
  · rw [hv] at hsuits hwithin
    exact ⟨hsuits.run (TextCipher.bounded _ nonces) hi hsealed, hwithin.run hi⟩

/-- What has been produced is as it was when it has been consumed. -/
theorem consume_produced (hv : m.value = .record r) (hplain : m.value.Unencrypted)
    (hheader : consumer.header = producer.header)
    (hkey : ∀ id, Table.get? producer.header m.headers = some id →
      consumer.source.key id = producer.source.key id)
    (hi : index.Sound) (hi' : index'.Sound)
    (hp : m.process .encrypt producer nonces index = produced) (hf : produced.failure = none) :
    let consumed := process .decrypt consumer nonces' ⟨m.headers, produced.message.value⟩ index'
    consumed.failure = none ∧ consumed.message = m := by
  intro consumed
  obtain ⟨hid, rfl⟩ | ⟨id, passphrase, hid, hfound, hsealed, rfl⟩ := process_cases hv hp hf
  · have hconsumed : consumed = ⟨m, index', none⟩ := process_of_no_header (hheader ▸ hid)
    rw [hconsumed]
    exact ⟨rfl, rfl⟩
  · rw [hv] at hplain
    obtain ⟨hopened, hvalue⟩ := TextCipher.run_decrypt_of_run_encrypt _ hplain nonces nonces' hi hi'
      hsealed
    have hid' : Table.get? consumer.header m.headers = some id := hheader ▸ hid
    have hkey' : consumer.source.key id = .ok passphrase := (hkey id hid).trans hfound
    -- The record with sealed texts has the type of the record, so it is walked through the same way.
    obtain ⟨r', hr', ht⟩ := Walk.exists_record_run
      (w := ((TextCipher.ofPassphrase passphrase).withNonces nonces).walk .encrypt) r index
    rw [hr'] at hopened hvalue
    dsimp only [consumed]
    rw [hr', process_of_key (m := ⟨m.headers, .record r'⟩) rfl hid' hkey', ht]
    refine ⟨Option.map_eq_none_iff.mpr hopened, ?_⟩
    obtain ⟨headers, v⟩ := m
    exact congrArg (Message.mk headers) (hvalue.trans hv.symm)

end

/-- What has been read is consumed, and comes out if that goes well. -/
theorem decode_eq_ok {policy : KeyPolicy} {nonces : Nat → Nonce} {index : FieldIndex} {s : Schema}
    {headers : Table String} {payload : List UInt8} {v : Value} (hread : s.decode payload = .ok v)
    (hf : (process .decrypt policy nonces ⟨headers, v⟩ index).failure = none) :
    (decode s policy nonces headers payload index).2
      = .ok (process .decrypt policy nonces ⟨headers, v⟩ index).message := by
  simp only [decode, consume, hread, hf]

/-- **What a producer sends a consumer gets.** Let a message with a record that fits in memory and in
which nothing is marked as encrypted be encoded along the type of the record. A consumer that looks
at the same header, and finds the passphrase there that the producer found, decodes the payload, and
gets the message with the headers and the value that it had. Without the header, both leave the
value as it is, and it arrives all the same. The two need not share nonces or an index. -/
theorem decode_of_encode {m : Message} {r : Record} (hv : m.value = .record r)
    (hsuits : (Schema.record r.type).Suits m.value) (hplain : m.value.Unencrypted)
    (hwithin : m.value.Within maxItems) {producer consumer : KeyPolicy}
    (hheader : consumer.header = producer.header)
    (hkey : ∀ id, Table.get? producer.header m.headers = some id →
      consumer.source.key id = producer.source.key id)
    (nonces nonces' : Nat → Nonce) {index index' : FieldIndex} (hi : index.Reachable)
    (hi' : index'.Reachable) {processed : Processed} {payload : List UInt8}
    (h : m.encode (.record r.type) producer nonces index = (processed, .ok payload)) :
    (decode (.record r.type) consumer nonces' m.headers payload index').2 = .ok m := by
  obtain ⟨hproduced, hf, hwritten⟩ := encode_eq_ok_iff.mp h
  obtain ⟨hfit, hsmall⟩ := suits_produced hv hsuits hwithin hi.sound hproduced hf
  obtain ⟨hopened, hmessage⟩ := consume_produced hv hplain hheader hkey hi.sound hi'.sound
    hproduced hf
  rw [decode_eq_ok (hfit.decode_eq hsmall hwritten) hopened, hmessage]

/-- A bare text in a union and a marked one, sealed with two nonces under the id itself, and opened
by a consumer that has the passphrase of the id from a table. -/
theorem decode_of_encode_user :
    let type : RecordType := ⟨⟨"User", none⟩, [⟨"id", 0, .string none⟩,
      ⟨"email", 1, .union [.null, .string (some .inline)]⟩, ⟨"phone", 2, .string (some .typed)⟩]⟩
    let r : Record := ⟨type, [.string "u1", .string "a@b.com", .tagged (.plain "555")]⟩
    let m : Message := ⟨[("crypto-shredding-key", "k1")], .record r⟩
    let producer : KeyPolicy := ⟨"crypto-shredding-key", .identity⟩
    let consumer : KeyPolicy := ⟨"crypto-shredding-key", .table [("k1", "k1")]⟩
    let nonces : Nat → Nonce := fun n => Vector.replicate 12 (UInt8.ofNat n)
    ∃ email phone processed payload,
      m.encode (.record type) producer nonces .empty = (processed, .ok payload) ∧
        processed.message.value
          = .record ⟨type, [.string "u1", .string email, .tagged (.encrypted phone)]⟩ ∧
        (decode (.record type) consumer nonces m.headers payload processed.index).2 = .ok m := by
  intro type r m producer consumer nonces
  have hparsed : (Schema.record type).Parsed :=
    ⟨.object [("fields", .array [
        .object [("name", .string "id"), ("type", .string "string")],
        .object [("name", .string "email"), ("type", .array [.string "null", .object [
          ("logicalType", .string "inline-encrypted-string"), ("type", .string "string")]])],
        .object [("name", .string "phone"), ("type", .object [
          ("logicalType", .string "encrypted-string"), ("type", .string "string")])]]),
      ("name", .string "User"), ("type", .string "record")], by rfl⟩
  have hsuits : (Schema.record type).Suits (.record r) := by
    refine ⟨hparsed, ?_, ?_, ?_, ?_⟩
    · simp [Schema.Addressable, type, Schema.lengths]
    · simp [r, type, Value.Regular, Value.RegularItems]
    · intro r' hr'
      have he : r' = r := by
        simpa [r] using hr'
      rw [he]
      exact Schema.mem_nodes_self _
    · simp [Value.Addressable, r, Value.lengths]
      decide
  have hplain : (Value.record r).Unencrypted := by
    simp [Value.Unencrypted, r]
  have hwithin : (Value.record r).Within maxItems := by
    simp [Value.Within, r]
  obtain ⟨email, hemail⟩ := (TextCipher.ofPassphrase "k1").exists_sealText
    (show (Utf8.encode "a@b.com").length ≤ Gcm.maxLength by decide) (nonces 0)
  obtain ⟨phone, hphone⟩ := (TextCipher.ofPassphrase "k1").exists_sealText
    (show (Utf8.encode "555").length ≤ Gcm.maxLength by decide) (nonces 1)
  have hturns : (((TextCipher.ofPassphrase "k1").withNonces nonces).walk .encrypt).turnAll
      ((Schema.record type).slots (.record r)) []
      = ⟨[.inline email, .typed (.encrypted phone)], ["a@b.com", "555"], none⟩ := by
    generalize hw : ((TextCipher.ofPassphrase "k1").withNonces nonces).walk .encrypt = w
    have hslots : (Schema.record type).slots (.record r)
        = [.inline "a@b.com", .typed (.plain "555")] := by rfl
    have hdirection : w.direction = .encrypt := hw ▸ rfl
    have hfirst : w.leaf 0 "a@b.com" = .ok email := hw ▸ hemail
    have hsecond : w.leaf 1 "555" = .ok phone := hw ▸ hphone
    rw [hslots]
    simp [Walk.turnAll, Walk.turn, Slot.handed?, Slot.answered, hdirection, hfirst, hsecond]
  obtain ⟨processed, payload, h, hvalue⟩ : ∃ processed payload,
      m.encode (.record type) producer nonces .empty = (processed, .ok payload) ∧
        processed.message.value
          = .record ⟨type, [.string "u1", .string email, .tagged (.encrypted phone)]⟩ :=
    exists_encode rfl rfl rfl FieldIndex.sound_empty (by rfl) hturns (by rfl)
  have hindex : processed.index.Reachable := by
    rw [← (encode_eq_ok_iff.mp h).1]
    exact index_process .empty
  have hkey : ∀ id, Table.get? producer.header m.headers = some id →
      consumer.source.key id = producer.source.key id := by
    intro id hid
    obtain rfl : id = "k1" := by simpa [m, producer, Table.get?] using hid.symm
    rfl
  have hheader : consumer.header = producer.header := rfl
  exact ⟨email, phone, processed, payload, h, hvalue,
    decode_of_encode (m := m) (r := r) rfl hsuits hplain hwithin hheader hkey nonces nonces .empty
      hindex h⟩

end Message

end FieldSeal
