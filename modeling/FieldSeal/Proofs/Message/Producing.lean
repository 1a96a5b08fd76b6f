import FieldSeal.Message
import FieldSeal.Proofs.Cipher.Opening
import FieldSeal.Proofs.Walk.Coverage

/-!
# What a producer puts out

A producer follows two schemas. It encrypts the record of a message along the type that the record
carries, and it writes the record along the schema that it is given, and all that the writer asks of
the two is that they have one name. Versions of a type have one name. So a text goes out in plain
where a later version has put a tag and the record is still of the version without it, and what
goes out under the cipher may stand at a field that asks for none.

`Message.encode_sealed_iff` is what can be said of every pair of versions: the texts that go out
under a tag are sealed exactly if the walk along the one type comes to all that is written along
the other (`Schema.CoveredAlong`), and it does if the types in the message are those of the schema.
-/

set_option autoImplicit false

namespace FieldSeal

open FieldSeal.Wire

namespace Message

variable {direction : Direction} {policy : KeyPolicy} {m : Message} {nonces : Nat → Nonce}
  {index : FieldIndex} {calls : List String}

/-! ## What becomes of a message -/

theorem subject?_of_header {r : Record} {id : String} (hv : m.value = .record r)
    (hid : Table.get? policy.header m.headers = some id) :
    m.subject? policy = (policy.source.key id).map fun passphrase => some (r, passphrase) := by
  rw [subject?, hv, hid]

/-- A record whose key is found is walked through along its own type. -/
theorem process_of_key {r : Record} {id passphrase : String} (hv : m.value = .record r)
    (hid : Table.get? policy.header m.headers = some id)
    (hkey : policy.source.key id = .ok passphrase) :
    let w := ((TextCipher.ofPassphrase passphrase).withNonces nonces).walk direction
    let o := w.run (.record r.type) (.record r) index
    m.process direction policy nonces index
      = ⟨⟨m.headers, o.value⟩, o.trace.index, o.failure.map .cipher⟩ := by
  intro w o
  have ho : o = (w.runRecord r index).map .record := w.run_record r index
  rw [process, subject?_of_header hv hid, hkey, ho]
  rfl

/-- Without the header a message passes as it is. -/
theorem process_of_no_header (hid : Table.get? policy.header m.headers = none) :
    m.process direction policy nonces index = ⟨m, index, none⟩ := by
  have hsubject : m.subject? policy = .ok none := by
    rw [subject?, hid]
    cases m.value <;> rfl
  rw [process, hsubject]

/-- A message with a record that does not fail has passed as it is, or its key was found and its
record was walked through. -/
theorem process_cases {r : Record} (hv : m.value = .record r) {processed : Processed}
    (hp : m.process direction policy nonces index = processed) (hf : processed.failure = none) :
    (Table.get? policy.header m.headers = none ∧ processed = ⟨m, index, none⟩) ∨
      ∃ id passphrase, Table.get? policy.header m.headers = some id ∧
        policy.source.key id = .ok passphrase ∧
        let w := ((TextCipher.ofPassphrase passphrase).withNonces nonces).walk direction
        let o := w.run (.record r.type) (.record r) index
        o.failure = none ∧ processed = ⟨⟨m.headers, o.value⟩, o.trace.index, none⟩ := by
  cases hid : Table.get? policy.header m.headers with
  | none => exact .inl ⟨rfl, hp.symm.trans (process_of_no_header hid)⟩
  | some id =>
    cases hkey : policy.source.key id with
    | error e =>
      rw [process, subject?_of_header hv hid, hkey] at hp
      subst hp
      cases hf
    | ok passphrase =>
      rw [process_of_key hv hid hkey] at hp
      subst hp
      have hopened := Option.map_eq_none_iff.mp hf
      refine .inr ⟨id, passphrase, rfl, hkey, hopened, ?_⟩
      rw [hopened]
      rfl

/-- The index that is left is one that can come about, also after a failure. -/
theorem index_process (hi : index.Reachable) :
    (m.process direction policy nonces index).index.Reachable := by
  rw [process]
  split
  next => exact hi
  next => exact hi
  next => exact .runRecord hi _ _

/-- What is encoded has been produced, and then written. -/
theorem encode_eq_ok_iff {s : Schema} {processed : Processed} {payload : List UInt8} :
    m.encode s policy nonces index = (processed, .ok payload) ↔
      m.process .encrypt policy nonces index = processed ∧ processed.failure = none ∧
        s.encode processed.message.value = .ok payload := by
  rw [encode, produce]
  constructor
  · intro h
    split at h
    next => simp at h
    next hf =>
      obtain ⟨rfl, hpayload⟩ := Prod.mk.inj h
      exact ⟨rfl, hf, hpayload⟩
  · rintro ⟨rfl, hf, hpayload⟩
    simp only [hf, hpayload]

/-- A record is encoded as the value that the turns of its slots make of it, if that can be
written. -/
theorem exists_encode {s : Schema} {r : Record} {id passphrase : String} (hv : m.value = .record r)
    (hid : Table.get? policy.header m.headers = some id)
    (hkey : policy.source.key id = .ok passphrase) (hi : index.Sound) {u : Value}
    (hb : (Schema.record r.type).blank u = (Schema.record r.type).blank (.record r))
    (ht : (((TextCipher.ofPassphrase passphrase).withNonces nonces).walk .encrypt).turnAll
      ((Schema.record r.type).slots (.record r)) [] = ⟨(Schema.record r.type).slots u, calls, none⟩)
    (hw : (s.write u).failure = none) :
    ∃ processed payload, m.encode s policy nonces index = (processed, .ok payload) ∧
      processed.message.value = u := by
  generalize hwalk : ((TextCipher.ofPassphrase passphrase).withNonces nonces).walk .encrypt = w at ht
  have hvalue : (w.run (.record r.type) (.record r) index).value = u :=
    Walk.run_value_eq hi hb (by rw [ht])
  have hf : (w.run (.record r.type) (.record r) index).failure = none := by
    rw [(w.run_follows hi _ _).failure_eq, ht]
  refine ⟨_, _, encode_eq_ok_iff.mpr ⟨process_of_key hv hid hkey, ?_,
    Schema.encode_eq_ok_iff.mpr ⟨?_, rfl⟩⟩, ?_⟩
  · rw [hwalk, hf]
    rfl
  · rwa [hwalk, hvalue]
  · rwa [hwalk]

/-! ## What goes out under a tag -/

/-- **What goes out under a tag is sealed exactly if the walk along the record's own type comes to
it.** Let a message be encoded whose header names a key that is found. The bytes are those of the
pieces of the value as it has been produced. Every text among them that stands under a tag of the
schema is what the cipher answered to a call of this run on the text that stood there, or was
encrypted before, if and only if the walk stops wherever the writer puts out such a text that was
not. It does if no union in the schema stands directly inside another and the records of the message
carry types of the schema. -/
theorem encode_sealed_iff {s : Schema} (hs : s.Parsed) {policy : KeyPolicy} {m : Message} {r : Record}
    {id passphrase : String} (hv : m.value = .record r)
    (hid : Table.get? policy.header m.headers = some id)
    (hkey : policy.source.key id = .ok passphrase) (nonces : Nat → Nonce) {index : FieldIndex}
    (hi : index.Reachable) {processed : Processed} {payload : List UInt8}
    (h : m.encode s policy nonces index = (processed, .ok payload)) :
    let w := ((TextCipher.ofPassphrase passphrase).withNonces nonces).walk .encrypt
    payload = (writeMany Piece.emit (s.pieces processed.message.value)).bytes ∧
      (List.Forall₂ (Stop.Sealed w.leaf (w.runRecord r index).trace.calls) (s.places m.value)
          (s.places processed.message.value) ↔ (Schema.record r.type).CoveredAlong s m.value) ∧
      (s.Flat → m.value.TypesIn s → (Schema.record r.type).CoveredAlong s m.value) := by
  intro w
  obtain ⟨hprocess, hfailure, hwritten⟩ := encode_eq_ok_iff.mp h
  rw [process_of_key hv hid hkey] at hprocess
  subst hprocess
  have hf : (w.run (.record r.type) (.record r) index).failure = none := by
    simpa using hfailure
  have hcalls : (w.runRecord r index).trace.calls
      = (w.run (.record r.type) (.record r) index).trace.calls := by
    rw [w.run_record]
    rfl
  have hrun := w.run_follows hi.sound (.record r.type) (.record r)
  rw [hv, hcalls]
  refine ⟨?_, ⟨fun hsealed => ?_, fun hc => hc.places_sealed hrun hf⟩,
    fun hflat => Schema.coveredAlong_of_flat hs.wellFormed hflat⟩
  · rw [← s.write_eq_pieces]
    exact (Schema.encode_eq_ok_iff.mp hwritten).2.symm
  · exact .of_sealed (fun _ _ ha => TextCipher.ne_of_sealText _ ha rfl) hrun hsealed

/-- A text that takes its turn beside one that was encrypted before, in a record of the schema. -/
theorem encode_sealed_iff_user :
    let type : RecordType := ⟨⟨"User", none⟩, [⟨"id", 0, .string none⟩,
      ⟨"email", 1, .string (some .inline)⟩, ⟨"phone", 2, .string (some .typed)⟩]⟩
    let r : Record := ⟨type, [.string "u1", .string "a@b.com", .tagged (.encrypted "x")]⟩
    let m : Message := ⟨[("crypto-shredding-key", "k1")], .record r⟩
    let policy : KeyPolicy := ⟨"crypto-shredding-key", .identity⟩
    let nonces : Nat → Nonce := fun _ => Vector.replicate 12 0
    let w := ((TextCipher.ofPassphrase "k1").withNonces nonces).walk .encrypt
    (Schema.record type).Parsed ∧ (Schema.record type).Flat ∧ m.value.TypesIn (.record type) ∧
      ∃ answer processed payload,
        m.encode (.record type) policy nonces .empty = (processed, .ok payload) ∧
          processed.message.value
            = .record ⟨type, [.string "u1", .string answer, .tagged (.encrypted "x")]⟩ ∧
          List.Forall₂ (Stop.Sealed w.leaf (w.runRecord r .empty).trace.calls)
            [⟨[1], .inline "a@b.com"⟩, ⟨[2], .typed (.encrypted "x")⟩]
            [⟨[1], .inline answer⟩, ⟨[2], .typed (.encrypted "x")⟩] := by
  intro type r m policy nonces w
  have hs : (Schema.record type).Parsed :=
    ⟨.object [("fields", .array [
        .object [("name", .string "id"), ("type", .string "string")],
        .object [("name", .string "email"), ("type", .object [
          ("logicalType", .string "inline-encrypted-string"), ("type", .string "string")])],
        .object [("name", .string "phone"), ("type", .object [
          ("logicalType", .string "encrypted-string"), ("type", .string "string")])]]),
      ("name", .string "User"), ("type", .string "record")], by rfl⟩
  have hflat : (Schema.record type).Flat := by
    simp [type, Schema.Flat]
  have hv : m.value.TypesIn (.record type) := by
    intro r' hr'
    have he : r' = r := by
      simpa [m, r] using hr'
    rw [he]
    exact Schema.mem_nodes_self _
  obtain ⟨answer, hanswer⟩ := (TextCipher.ofPassphrase "k1").exists_sealText
    (show (Utf8.encode "a@b.com").length ≤ Gcm.maxLength by decide) (nonces 0)
  have hturns : w.turnAll ((Schema.record type).slots (.record r)) []
      = ⟨[.inline answer, .typed (.encrypted "x")], ["a@b.com"], none⟩ := by
    have hslots : (Schema.record type).slots (.record r)
        = [.inline "a@b.com", .typed (.encrypted "x")] := by rfl
    have hdirection : w.direction = .encrypt := rfl
    have hleaf : w.leaf 0 "a@b.com" = .ok answer := hanswer
    rw [hslots]
    simp [Walk.turnAll, Walk.turn, Slot.handed?, Slot.answered, hdirection, hleaf]
  obtain ⟨processed, payload, h, hvalue⟩ : ∃ processed payload,
      m.encode (.record type) policy nonces .empty = (processed, .ok payload) ∧
        processed.message.value
          = .record ⟨type, [.string "u1", .string answer, .tagged (.encrypted "x")]⟩ :=
    exists_encode rfl rfl rfl FieldIndex.sound_empty (by rfl) hturns (by rfl)
  obtain ⟨-, hsealed, hcovered⟩ := encode_sealed_iff hs rfl rfl rfl nonces .empty h
  have htexts := hsealed.mpr (hcovered hflat hv)
  rw [show (Schema.record type).places m.value
    = [⟨[1], .inline "a@b.com"⟩, ⟨[2], .typed (.encrypted "x")⟩] by rfl, hvalue] at htexts
  exact ⟨hs, hflat, hv, answer, processed, payload, h, hvalue, htexts⟩

/-- A record of a version without the tag, written along one that has it: the header is there and
the key is found, nothing is handed over, and the eight bytes are a length and the text. -/
theorem encode_other_version_not_sealed :
    let type : RecordType := ⟨⟨"User", none⟩, [⟨"email", 0, .string none⟩]⟩
    let later : RecordType := ⟨⟨"User", none⟩, [⟨"email", 0, .string (some .inline)⟩]⟩
    let r : Record := ⟨type, [.string "a@b.com"]⟩
    let m : Message := ⟨[("crypto-shredding-key", "k1")], .record r⟩
    let policy : KeyPolicy := ⟨"crypto-shredding-key", .identity⟩
    let nonces : Nat → Nonce := fun _ => Vector.replicate 12 0
    let w := ((TextCipher.ofPassphrase "k1").withNonces nonces).walk .encrypt
    let o := m.encode (.record later) policy nonces .empty
    (Schema.record type).Parsed ∧ (Schema.record later).Parsed ∧ (Schema.record later).Flat ∧
      Table.get? policy.header m.headers = some "k1" ∧ policy.source.key "k1" = .ok "k1" ∧
      o.2 = .ok [14, 97, 64, 98, 46, 99, 111, 109] ∧
      ⟨[0], .inline "a@b.com"⟩ ∈ (Schema.record later).places o.1.message.value ∧
      (w.runRecord r .empty).trace.calls = [] ∧
      ¬ List.Forall₂ (Stop.Sealed w.leaf (w.runRecord r .empty).trace.calls)
        ((Schema.record later).places m.value) ((Schema.record later).places o.1.message.value) := by
  intro type later r m policy nonces w o
  have hcalls : (w.runRecord r .empty).trace.calls = [] := by rfl
  have hvalue : o.1.message.value = m.value := by rfl
  have hplace : (⟨[0], .inline "a@b.com"⟩ : Stop) ∈ (Schema.record later).places m.value := by
    decide
  refine ⟨⟨.object [("fields", .array [
        .object [("name", .string "email"), ("type", .string "string")]]),
      ("name", .string "User"), ("type", .string "record")], by rfl⟩,
    ⟨.object [("fields", .array [
        .object [("name", .string "email"), ("type", .object [
          ("logicalType", .string "inline-encrypted-string"), ("type", .string "string")])]]),
      ("name", .string "User"), ("type", .string "record")], by rfl⟩,
    ?_, rfl, rfl, by rfl, hvalue ▸ hplace, hcalls, ?_⟩
  · simp [later, Schema.Flat]
  · intro h
    obtain ⟨after, -, -, hsealed⟩ := exists_of_forall₂ h hplace
    rw [hcalls] at hsealed
    generalize after.slot = d at hsealed
    cases hsealed with
    | inline hc _ => simp at hc

end Message

end FieldSeal
