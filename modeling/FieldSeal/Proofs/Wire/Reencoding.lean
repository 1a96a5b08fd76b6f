import FieldSeal.Proofs.Value.Branches
import FieldSeal.Proofs.Wire.RoundTrip

/-!
# What was read can be written again

Many bytes are read as one value, and a writer has its own way with that value: one block for all
items, the shortest varints, each key once, and for a union the first member that accepts the value.
Nothing of how the bytes were laid out is left in the value, so a writer has to get by with what the
layout gives: the value fits the schema (`Schema.fits_of_decode`), and what its lengths are has been
spelled once (`Schema.LaidOut.legible`). With the first no part of it is refused, whichever member is
taken, and with the second what is written is within the limits of the reader.
-/

set_option autoImplicit false

namespace FieldSeal

/- A power of natural numbers is that of core here, whatever else is in scope. -/
attribute [local instance (high)] instPowNat

open FieldSeal.Wire

/-! ## Lengths -/

theorem Wire.Counted.length_lt {data bytes : List UInt8} (h : Counted data bytes) :
    data.length < 2 ^ (63 : Nat) := by
  obtain ⟨n, mark, -, hn, -⟩ := h
  have hlt := n.toInt_lt
  omega

namespace Schema

/-- Each part of a value that has a layout has one of its own. -/
theorem LaidOut.part {s : Schema} {v x : Value} {bytes : List UInt8} (h : s.LaidOut v bytes)
    (hx : x ∈ v.parts) : ∃ t taken, Schema.LaidOut t x taken := by
  induction s using Schema.induction generalizing v bytes with
  | record type ih =>
    have hwhole := h
    obtain ⟨vs, rfl, h⟩ := h
    obtain ⟨name, fields⟩ := type
    obtain ⟨hlength, hfields⟩ := FieldsLaidOut.getElem? h
    have hsame : vs.length = (RecordType.mk name fields).fields.length := hlength
    rw [Value.parts, Record.parts, List.mem_cons, mem_partsOfItems] at hx
    rcases hx with rfl | ⟨v, hv, hx⟩
    · exact ⟨_, bytes, hwhole⟩
    · obtain ⟨i, f, hmem, hf, hi⟩ := Fits.exists_field hsame hv
      obtain ⟨first, hfirst⟩ := hfields i f v hf hi
      exact ih f hmem hfirst hx
  | array items ih =>
    have hwhole := h
    obtain ⟨vs, rfl, -, hblocks⟩ := h
    rw [Value.parts, List.mem_cons, mem_partsOfItems] at hx
    rcases hx with rfl | ⟨v, hv, hx⟩
    · exact ⟨_, bytes, hwhole⟩
    · obtain ⟨first, hfirst⟩ := hblocks.laidOut hv
      exact ih hfirst hx
  | map values ih =>
    have hwhole := h
    obtain ⟨listed, entries, rfl, hgathers, -, hblocks⟩ := h
    obtain rfl := Table.gathers_iff.mp hgathers
    rw [Value.parts, List.mem_cons, mem_partsOfEntries] at hx
    rcases hx with rfl | ⟨e, he, hx⟩
    · exact ⟨_, bytes, hwhole⟩
    · obtain ⟨both, first, second, -, -, hv⟩ := hblocks.laidOut (Table.mem_of_mem_ofList he)
      exact ih hv hx
  | union members ih =>
    obtain ⟨m, mark, body, hm, hv, -⟩ := laidOut_union.mp h
    exact ih m hm.mem hv hx
  | _ =>
    have hself : x = v := by
      rw [h.fits.parts_eq (by cases v <;> rfl)] at hx
      exact List.mem_singleton.mp hx
    exact ⟨_, bytes, hself ▸ h⟩

/-- What a value with a layout announces has been spelled there, or is a number of items, which is not
above the limit. -/
theorem LaidOut.announced_lt {s : Schema} {v : Value} {bytes : List UInt8}
    (h : s.LaidOut v bytes) : v.count ≤ maxItems ∧ ∀ n ∈ v.announced, n < 2 ^ (63 : Nat) := by
  have hlimit : maxItems < 2 ^ (63 : Nat) := by decide
  induction s using Schema.induction generalizing v bytes with
  | null =>
    obtain ⟨rfl, -⟩ := h
    exact ⟨Nat.zero_le _, fun n hn => by cases hn⟩
  | boolean => rcases h with ⟨rfl, -⟩ | ⟨rfl, -⟩ <;> exact ⟨Nat.zero_le _, fun n hn => by cases hn⟩
  | int | long | float | double | record | enum =>
    obtain ⟨_, rfl, -⟩ := h
    exact ⟨Nat.zero_le _, fun n hn => by cases hn⟩
  | fixed =>
    obtain ⟨rfl, -⟩ := h
    exact ⟨Nat.zero_le _, fun n hn => by cases hn⟩
  | bytes =>
    obtain ⟨data, rfl, hdata⟩ := h
    refine ⟨Nat.zero_le _, fun n hn => ?_⟩
    rw [List.mem_singleton.mp hn]
    exact hdata.length_lt
  | string tag =>
    -- Whatever the text becomes, it is all there is to announce.
    obtain ⟨text, htext, hcount, hannounced⟩ : ∃ text, Written text bytes ∧ v.count = 0 ∧
        v.announced = [(Utf8.encode text).length] := by
      rcases tag with _ | _ | _ <;>
      · obtain ⟨text, rfl, htext⟩ := h
        exact ⟨text, htext, rfl, rfl⟩
    rw [hcount, hannounced]
    refine ⟨Nat.zero_le _, fun n hn => ?_⟩
    rw [List.mem_singleton.mp hn]
    exact htext.length_lt
  | array items =>
    obtain ⟨vs, rfl, hitems, -⟩ := h
    refine ⟨hitems, fun n hn => ?_⟩
    rw [List.mem_singleton.mp hn]
    exact Nat.lt_of_le_of_lt hitems hlimit
  | map values =>
    obtain ⟨listed, entries, rfl, hgathers, hitems, hblocks⟩ := h
    obtain rfl := Table.gathers_iff.mp hgathers
    have hcount := Nat.le_trans (Table.length_ofList_le listed) hitems
    refine ⟨hcount, fun n hn => ?_⟩
    simp only [Value.announced, Value.lengths, List.mem_cons, List.mem_map] at hn
    rcases hn with rfl | ⟨e, he, rfl⟩
    · exact Nat.lt_of_le_of_lt hcount hlimit
    · obtain ⟨both, first, second, -, hkey, -⟩ := hblocks.laidOut (Table.mem_of_mem_ofList he)
      exact hkey.length_lt
  | union members ih =>
    obtain ⟨m, mark, body, hm, hv, -⟩ := laidOut_union.mp h
    exact ih m hm.mem hv

/-- **A value that has a layout can be read again once it is written**, whatever that layout was. -/
theorem LaidOut.legible {s : Schema} {v : Value} {bytes : List UInt8} (h : s.LaidOut v bytes) :
    v.Legible s ∧ v.Within maxItems := by
  have hpart : ∀ x ∈ v.parts, x.count ≤ maxItems ∧ ∀ n ∈ x.announced, n < 2 ^ (63 : Nat) := by
    intro x hx
    obtain ⟨t, taken, ht⟩ := h.part hx
    exact ht.announced_lt
  exact ⟨⟨h.fits.regular, h.fits.typesIn, fun x hx => (hpart x hx).2⟩, fun x hx => (hpart x hx).1⟩

/-! ## Refusals -/

/-- At a node that it does not look into, a writer refuses nothing that fits. -/
theorem Fits.refusal?_eq_none {s : Schema} {v : Value} (h : s.Fits .wire v)
    (hinto : s.looksInto v = false) : s.refusal? v = none := by
  have haccepts := h.accepts
  cases h with
  | enum h => simpa [refusal?] using h
  | record | array | map | member => cases hinto
  | _ => simp_all [refusal?, Tag.toWire, Rendering.mark]

/-- A value that fits the schema is written without failure. -/
theorem Fits.exists_encode {s : Schema} (hs : s.WellFormed) (hu : s.Unambiguous) {v : Value}
    (h : s.Fits .wire v) : ∃ bytes, s.encode v = .ok bytes := by
  have hfailure : (s.write v).failure = v.parts.findSome? fun _ => none := by
    apply checksInOrder_write.toLooksInOrder.eq_findSome? _ (fun _ _ => rfl) hs hu s.mem_nodes_self h
    intro t x hx hinto
    rw [failure_write_leaf hinto]
    exact hx.refusal?_eq_none hinto
  refine ⟨(s.write v).bytes, encode_eq_ok_iff.mpr ⟨?_, rfl⟩⟩
  rw [hfailure]
  simp

/-! ## Bytes and bytes again -/

/-- **What is decoded can be encoded and is decoded again as the same value**, however the bytes were
laid out: in one block or several, with sizes or without, with varints that are too long, with keys
that come again, and under another member of a union than a writer takes. The lists of the schema
have lengths of things that can be in memory, so that there is an index for each choice. -/
theorem decode_reencoded {s : Schema} (hs : s.Parsed) (ha : s.Addressable) (hu : s.Unambiguous)
    {bytes : List UInt8} {v : Value} (h : s.decode bytes = .ok v) :
    ∃ again, s.encode v = .ok again ∧ s.decode again = .ok v := by
  obtain ⟨taken, hv⟩ := laidOut_of_decode h
  obtain ⟨again, hagain⟩ := hv.fits.exists_encode hs.wellFormed hu
  obtain ⟨hlegible, hwithin⟩ := hv.legible
  exact ⟨again, hagain, decode_of_legible hs.wellFormed ha hlegible hwithin hagain⟩

/-- A symbol of two enums, read as one of the second, whose index takes a byte more than it needs. What
is written names the first. -/
theorem decode_reencoded_symbol :
    let s : Schema := .union [.enum ⟨⟨"A", none⟩, ["x"]⟩, .enum ⟨⟨"B", none⟩, ["y", "x"]⟩]
    s.Parsed ∧ s.Addressable ∧ s.Unambiguous ∧ s.decode [0x82, 0, 2] = .ok (.enum "x") ∧
      s.encode (.enum "x") = .ok [0, 0] ∧ s.decode [0, 0] = .ok (.enum "x") := by
  intro s
  have hparsed : s.Parsed :=
    ⟨.array [
      .object [("name", .string "A"), ("symbols", .array [.string "x"]), ("type", .string "enum")],
      .object [("name", .string "B"), ("symbols", .array [.string "y", .string "x"]),
        ("type", .string "enum")]], by rfl⟩
  have haddressable : s.Addressable := by
    simp [s, Schema.Addressable, Schema.lengths]
  have hunambiguous : s.Unambiguous := by
    intro members hm v hv m hmem m' hmem' ha ha'
    have hmembers : members = [.enum ⟨⟨"A", none⟩, ["x"]⟩, .enum ⟨⟨"B", none⟩, ["y", "x"]⟩] := by
      simpa [s] using hm
    rcases hv with rfl | rfl <;> rw [hmembers] at hmem <;>
      rcases List.mem_pair.mp hmem with rfl | rfl <;> cases ha
  have hdecode : s.decode [0x82, 0, 2] = .ok (.enum "x") := by rfl
  have hencode : s.encode (.enum "x") = .ok [0, 0] := by rfl
  obtain ⟨again, hagain, hread⟩ :=
    decode_reencoded hparsed haddressable hunambiguous hdecode
  rw [hencode] at hagain
  cases hagain
  exact ⟨hparsed, haddressable, hunambiguous, hdecode, hencode, hread⟩

end Schema

end FieldSeal
