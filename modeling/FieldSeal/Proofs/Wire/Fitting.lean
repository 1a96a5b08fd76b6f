import FieldSeal.Proofs.Rendering.Reading
import FieldSeal.Proofs.Value.Texts
import FieldSeal.Proofs.Wire.Recognition

/-!
# What is read fits the schema

Bytes come from anywhere, and so do documents. What a reader makes of them is nonetheless a value of
the schema, at every depth and with the mark of the rendering on every text (`Schema.Fits`). For
documents that is `Schema.fits_of_fromJson`. For bytes it is a property of the layout, which the
reader takes and nothing else: `Schema.LaidOut.fits` is an induction on the schema with no reader in
sight.

Writers pick the branch of a union by `Schema.accepts`, which looks at the outside of a value only.
A value that fits passes that test (`Schema.Fits.accepts`), so what has been read finds its branch
again. And the wire makes no text plain.
-/

set_option autoImplicit false

namespace FieldSeal

open FieldSeal.Wire

/-! ## Rows and blocks -/

section

variable {α : Type} {item : α → List UInt8 → Prop} {a : α}

theorem Wire.Row.laidOut {as : List α} {bytes : List UInt8} (h : Row item as bytes)
    (ha : a ∈ as) : ∃ taken, item a taken := by
  induction h with
  | nil => cases ha
  | @cons b rest first _ hfirst _ ih =>
    cases ha with
    | head => exact ⟨first, hfirst⟩
    | tail _ ha => exact ih ha

theorem Wire.Blocks.laidOut {as : List α} {bytes : List UInt8} (h : Blocks item as bytes)
    (ha : a ∈ as) : ∃ taken, item a taken := by
  induction h with
  | ended => cases ha
  | block _ _ row _ ih =>
    rcases List.mem_append.mp ha with ha | ha
    · exact row.laidOut ha
    · exact ih ha

end

theorem Wire.Chosen.mem {α : Type} {choices : List α} {a : α} {bytes : List UInt8}
    (h : Chosen choices a bytes) : a ∈ choices := by
  obtain ⟨n, i, -, -, hi⟩ := h
  exact List.mem_of_getElem? hi

theorem FieldsLaidOut.getElem? {fields : List Field} {vs : List Value} {bytes : List UInt8}
    (h : FieldsLaidOut fields vs bytes) : vs.length = fields.length ∧
      ∀ (i : Nat) (f : Field) (v : Value), fields[i]? = some f → vs[i]? = some v →
        ∃ taken, f.schema.LaidOut v taken := by
  induction fields generalizing vs bytes with
  | nil =>
    obtain ⟨rfl, -⟩ := h
    exact ⟨rfl, fun i f v hf => by simp at hf⟩
  | cons f rest ih =>
    obtain ⟨name, position, schema⟩ := f
    obtain ⟨v, others, first, second, rfl, -, hv, hothers⟩ := h
    obtain ⟨hlength, hrest⟩ := ih hothers
    refine ⟨by rw [List.length_cons, List.length_cons, hlength], ?_⟩
    intro i f w hf hw
    cases i with
    | zero =>
      cases hf
      cases hw
      exact ⟨first, hv⟩
    | succ i => exact hrest i f w hf hw

/-! ## The induction along the schema -/

/-- **What is laid out on the wire fits the schema.** -/
theorem Schema.LaidOut.fits {s : Schema} {v : Value} {bytes : List UInt8}
    (h : s.LaidOut v bytes) : s.Fits .wire v := by
  induction s using Schema.induction generalizing v bytes with
  | null =>
    obtain ⟨rfl, -⟩ := h
    exact .null
  | boolean =>
    rcases h with ⟨rfl, -⟩ | ⟨rfl, -⟩
    · exact .boolean false
    · exact .boolean true
  | int =>
    obtain ⟨n, rfl, -⟩ := h
    exact .int n
  | long =>
    obtain ⟨n, rfl, -⟩ := h
    exact .long n
  | float =>
    obtain ⟨x, rfl, -⟩ := h
    exact .float x
  | double =>
    obtain ⟨x, rfl, -⟩ := h
    exact .double x
  | bytes =>
    obtain ⟨data, rfl, -⟩ := h
    exact .bytes data
  | string tag =>
    rcases tag with _ | _ | _ <;> obtain ⟨text, rfl, -⟩ := h
    · exact .string text
    · exact .ofText .inline text
    · exact .ofText .typed text
  | record type ih =>
    obtain ⟨vs, rfl, h⟩ := h
    obtain ⟨name, fields⟩ := type
    obtain ⟨hlength, hfields⟩ := FieldsLaidOut.getElem? h
    refine .record hlength ?_
    intro i f v hf hv
    obtain ⟨taken, hv⟩ := hfields i f v hf hv
    exact ih f (List.mem_of_getElem? hf) hv
  | array items ih =>
    obtain ⟨vs, rfl, -, hblocks⟩ := h
    refine .array ?_
    intro v hv
    obtain ⟨taken, hv⟩ := hblocks.laidOut hv
    exact ih hv
  | map values ih =>
    obtain ⟨listed, entries, rfl, hgathers, -, hblocks⟩ := h
    obtain rfl := Table.gathers_iff.mp hgathers
    refine .map (Table.ascending_ofList listed) ?_
    intro e he
    -- An entry of the map is one of those that were listed.
    obtain ⟨taken, first, second, -, -, hv⟩ := hblocks.laidOut (Table.mem_of_mem_ofList he)
    exact ih hv
  | union members ih =>
    obtain ⟨m, mark, body, hm, hv, -⟩ := laidOut_union.mp h
    exact .member hm.mem (ih m hm.mem hv)
  | enum type =>
    obtain ⟨symbol, rfl, hsymbol⟩ := h
    exact .enum hsymbol.mem
  | fixed type =>
    obtain ⟨rfl, hlength⟩ := h
    exact .fixed hlength

/-- What is decoded has a layout. -/
theorem Schema.laidOut_of_decode {s : Schema} {bytes : List UInt8} {v : Value}
    (h : s.decode bytes = .ok v) : ∃ taken, s.LaidOut v taken := by
  obtain ⟨⟨w, after⟩, hread, h⟩ := bind_eq_ok.mp h
  have hv : w = v := by
    dsimp only at h
    split at h
    · injection h
    · cases h
  obtain ⟨taken, rest, -, hw, -⟩ := (s.recognizes_read bytes .ended w after).mp hread
  exact ⟨taken, hv ▸ hw⟩

theorem Schema.fits_of_decode {s : Schema} {bytes : List UInt8} {v : Value}
    (h : s.decode bytes = .ok v) : s.Fits .wire v := by
  obtain ⟨taken, hv⟩ := laidOut_of_decode h
  exact hv.fits

/-! ## What follows from it -/

/-- **A value that fits is accepted**: a union finds a branch for it. -/
theorem Schema.Fits.accepts {rendering : Rendering} {s : Schema} {v : Value}
    (h : s.Fits rendering v) : s.accepts v = true := by
  induction h with
  | enum h => simpa [Schema.accepts] using h
  | fixed h => simpa [Schema.accepts] using h
  | member hm _ ih =>
    rw [Schema.accepts, membersAccept_eq_true]
    exact ⟨_, hm, ih⟩
  | _ => simp [Schema.accepts, Tag.isInstance]

/-- Every marked text in a value that fits has the mark of the rendering, however deep it is. -/
theorem Schema.Fits.marks {rendering : Rendering} {s : Schema} {v : Value}
    (h : s.Fits rendering v) {t : TaggedText} (ht : Value.tagged t ∈ v.parts) :
    t = rendering.mark t.text := by
  obtain ⟨m, -, hm⟩ := h.part ht
  exact hm.mark_eq

/-- **Readers give values of the schema and nothing else**, at every depth: from any bytes, and from
any document in order under either rendering. Nothing that was read off a wire is plain. -/
theorem Schema.readers_fit (s : Schema) :
    (∀ bytes v, s.decode bytes = .ok v →
      s.Fits .wire v ∧ s.accepts v = true ∧ ∀ text, Value.tagged (.plain text) ∉ v.parts) ∧
    (∀ rendering j v, j.Ordered → s.fromJson rendering j = .ok v →
      s.Fits rendering v ∧ s.accepts v = true ∧
        ∀ t, Value.tagged t ∈ v.parts → t = rendering.mark t.text) := by
  constructor
  · intro bytes v h
    have hv := fits_of_decode h
    refine ⟨hv, hv.accepts, ?_⟩
    intro text ht
    cases hv.marks ht
  · intro rendering j v hj h
    have hv := fits_of_fromJson hj h
    exact ⟨hv, hv.accepts, fun t ht => hv.marks ht⟩

/-- Three bytes that spell a text, behind the index of the branch; and a document of two texts. On the
wire the text comes out encrypted, from the plain document both come out plain. -/
theorem Schema.readers_fit_note :
    let note : Schema := .union [.null, .record ⟨⟨"Note", none⟩, [⟨"text", 0, .string (some .typed)⟩]⟩]
    let texts : Schema := .array (.string (some .typed))
    let v : Value := .record ⟨⟨⟨"Note", none⟩, [⟨"text", 0, .string (some .typed)⟩]⟩,
      [.tagged (.encrypted "x")]⟩
    let vs : Value := .array [.tagged (.plain "x"), .tagged (.plain "y")]
    note.decode [2, 2, 120] = .ok v ∧ note.Fits .wire v ∧ note.accepts v = true ∧
      (Json.array [.string "x", .string "y"]).Ordered ∧
      texts.fromJson .plain (.array [.string "x", .string "y"]) = .ok vs ∧ texts.Fits .plain vs := by
  intro note texts v vs
  have hdecode : note.decode [2, 2, 120] = .ok v := by rfl
  have hordered : (Json.array [.string "x", .string "y"]).Ordered :=
    ⟨trivial, trivial, trivial⟩
  have hjson : texts.fromJson .plain (.array [.string "x", .string "y"]) = .ok vs := by rfl
  obtain ⟨hfits, haccepts, -⟩ := (readers_fit note).1 _ _ hdecode
  exact ⟨hdecode, hfits, haccepts, hordered, hjson,
    ((readers_fit texts).2 _ _ _ hordered hjson).1⟩

end FieldSeal
