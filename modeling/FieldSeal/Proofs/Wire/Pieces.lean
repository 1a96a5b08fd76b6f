import FieldSeal.Proofs.Value.Texts
import FieldSeal.Proofs.Walk.Stops
import FieldSeal.Proofs.Wire.Emission

/-!
# What the writer puts out, piece by piece

`Schema.write` gives bytes, and bytes do not say which of them are the text of a tagged string.
`Schema.pieces` cuts the same output into pieces: one for each value at a tagged string node, which
is what goes through `Tag.toWire`, with its path, and plain ones for everything in between. **The
writer's emission is that of the pieces in order** (`Schema.write_eq_pieces`), so a statement about
tagged pieces is one about the writer.

`Schema.places` are the tagged strings among the pieces, told in the same terms as the stops of a
walk. The writer's way depends on the texts as little as that of a walk: `Piece.outline` is a piece
without its texts, and a value with other texts has the same outlines (`Schema.outlines_mapTexts`).
-/

set_option autoImplicit false

namespace FieldSeal

open FieldSeal.Wire

/-- A part of what the writer puts out: a value at a tagged string node, or anything else. -/
inductive Piece where
  | plain (emission : Emission)
  | tagged (path : Path) (tag : Tag) (v : Value)

namespace Piece

def emit : Piece → Emission
  | .plain e => e
  | .tagged _ tag v =>
    match tag.toWire v with
    | .ok text => writeText text
    | .error e => .fail (.schema e)

/-- The tagged string that the piece is, if its value has the shape for the tag. -/
def stop? : Piece → Option Stop
  | .tagged path .inline (.string text) => some ⟨path, .inline text⟩
  | .tagged path .typed (.tagged t) => some ⟨path, .typed t⟩
  | _ => none

def mapPath (f : Path → Path) : Piece → Piece
  | .plain e => .plain e
  | .tagged path tag v => .tagged (f path) tag v

/-- The piece of a part that stands at an index of its container. -/
def under (i : Nat) : Piece → Piece := mapPath (i :: ·)

/-- The piece when something is put in front of the list. -/
def next : Piece → Piece := mapPath Path.next

/-- The piece without its texts and its bytes. -/
def outline : Piece → Piece
  | .plain e => .plain ⟨[], e.failure⟩
  | .tagged path tag v => .tagged path tag v.shape

end Piece

def piecesOfAll {α : Type} (item : α → List Piece) : List α → List Piece
  | [] => []
  | a :: rest => (item a).map (.under 0) ++ (piecesOfAll item rest).map .next

def piecesOfBlock {α : Type} (item : α → List Piece) (items : List α) : List Piece :=
  if items.isEmpty then [.plain (.of (writeLength 0))]
  else .plain (.of (writeLength items.length)) ::
    (piecesOfAll item items ++ [.plain (.of (writeLength 0))])

mutual

/-- The pieces of what the writer puts out for a value of the schema. -/
def Schema.pieces : Schema → Value → List Piece
  | .string (some tag), v => [.tagged [] tag v]
  | .record type, v => match v with
    | .record r => type.pieces r
    | v => [.plain (.fail ((Schema.record type).mismatch v))]
  | .array items, v => match v with
    | .array vs => piecesOfBlock items.pieces vs
    | v => [.plain (.fail ((Schema.array items).mismatch v))]
  | .map values, v => match v with
    | .map es => piecesOfBlock (fun e => .plain (writeText e.1) :: values.pieces e.2) es
    | v => [.plain (.fail ((Schema.map values).mismatch v))]
  | .union members, v => piecesOfMember 0 members v
  | s, v => [.plain (s.write v)]

def RecordType.pieces : RecordType → Record → List Piece
  | ⟨name, fields⟩, r =>
    if r.type.name.full = name.full then piecesOfFields fields r
    else [.plain (.fail ((Schema.record ⟨name, fields⟩).mismatch (.record r)))]

def piecesOfFields : List Field → Record → List Piece
  | [], _ => []
  | ⟨name, position, schema⟩ :: rest, r =>
    match r.get? position with
    | some v => (schema.pieces v).map (.under position) ++ piecesOfFields rest r
    | none => [.plain (.fail (.codec (.missingField name)))]

def piecesOfMember (index : Nat) : List Schema → Value → List Piece
  | [], v => [.plain (.fail (.codec (.invalidUnionBranch v.kind)))]
  | s :: rest, v =>
    if s.accepts v then .plain (.of (writeLength index)) :: s.pieces v
    else piecesOfMember (index + 1) rest v

end

/-- The tagged strings among what the writer puts out. -/
def Schema.places (s : Schema) (v : Value) : List Stop := (s.pieces v).filterMap Piece.stop?

/-! ## The pieces are what is written -/

theorem writeMany_mapPath (f : Path → Path) (ps : List Piece) :
    writeMany Piece.emit (ps.map (.mapPath f)) = writeMany Piece.emit ps := by
  induction ps with
  | nil => rfl
  | cons p rest ih =>
    rw [List.map_cons, writeMany, writeMany, ih]
    cases p <;> rfl

theorem write_piecesOfAll {α : Type} {item : α → Emission} {pieces : α → List Piece}
    (h : ∀ a, item a = writeMany Piece.emit (pieces a)) (as : List α) :
    writeMany item as = writeMany Piece.emit (piecesOfAll pieces as) := by
  induction as with
  | nil => rfl
  | cons a rest ih =>
    rw [writeMany, piecesOfAll, writeMany_append, Piece.under, Piece.next, writeMany_mapPath,
      writeMany_mapPath, ← h, ← ih]

theorem write_piecesOfBlock {α : Type} {item : α → Emission} {pieces : α → List Piece}
    (h : ∀ a, item a = writeMany Piece.emit (pieces a)) (as : List α) :
    writeBlock item as = writeMany Piece.emit (piecesOfBlock pieces as) := by
  rw [writeBlock, piecesOfBlock]
  split
  · rw [writeMany_singleton, Piece.emit]
  · rw [writeMany, writeMany_append, writeMany_singleton, ← write_piecesOfAll h, Piece.emit,
      Piece.emit]

theorem write_piecesOfFields : ∀ (fields : List Field) (r : Record),
    (∀ f ∈ fields, ∀ v, f.schema.write v = writeMany Piece.emit (f.schema.pieces v)) →
    writeFields fields r = writeMany Piece.emit (piecesOfFields fields r)
  | [], r, _ => by rw [writeFields, piecesOfFields, writeMany]
  | ⟨name, position, schema⟩ :: rest, r, h => by
    rw [writeFields, piecesOfFields]
    cases r.get? position with
    | none => rw [writeMany_singleton, Piece.emit]
    | some v =>
      have hv := h _ List.mem_cons_self v
      have hrest := write_piecesOfFields rest r fun f hf => h f (List.mem_cons_of_mem _ hf)
      simp only [writeMany_append, Piece.under, writeMany_mapPath, ← hv, ← hrest]

theorem write_piecesOfMember (v : Value) : ∀ (members : List Schema) (index : Nat),
    (∀ s ∈ members, ∀ v, s.write v = writeMany Piece.emit (s.pieces v)) →
    writeMember index members v = writeMany Piece.emit (piecesOfMember index members v)
  | [], index, _ => by rw [writeMember, piecesOfMember, writeMany_singleton, Piece.emit]
  | s :: rest, index, h => by
    rw [writeMember, piecesOfMember]
    split
    · rw [writeMany, ← h s List.mem_cons_self v, Piece.emit]
    · exact write_piecesOfMember v rest (index + 1) fun m hm => h m (List.mem_cons_of_mem _ hm)

/-- **What the writer puts out is what the pieces put out.** -/
theorem Schema.write_eq_pieces (s : Schema) (v : Value) :
    s.write v = writeMany Piece.emit (s.pieces v) := by
  induction s using Schema.induction generalizing v with
  | string tag =>
    cases tag with
    | none => rw [pieces, writeMany_singleton, Piece.emit] <;> simp
    | some tag =>
      rw [pieces, writeMany_singleton]
      cases ht : tag.toWire v <;> simp [write, Piece.emit, ht]
  | record type ih =>
    cases v with
    | record r =>
      obtain ⟨name, fields⟩ := type
      rw [write, pieces, RecordType.write, RecordType.pieces]
      split
      · exact write_piecesOfFields fields r ih
      · rw [writeMany_singleton, Piece.emit]
    | _ => simp [write, pieces, Piece.emit]
  | array items ih =>
    cases v with
    | array vs =>
      rw [write, pieces]
      exact write_piecesOfBlock ih vs
    | _ => simp [write, pieces, Piece.emit]
  | map values ih =>
    cases v with
    | map es =>
      rw [write, pieces]
      refine write_piecesOfBlock (fun e => ?_) es
      rw [writeEntry, writeMany, Piece.emit, ← ih]
    | _ => simp [write, pieces, Piece.emit]
  | union members ih =>
    rw [write, pieces]
    exact write_piecesOfMember v members 0 ih
  | null | boolean | int | long | float | double | bytes | enum _ | fixed _ =>
    rw [pieces, writeMany_singleton, Piece.emit] <;> simp

/-! ## The writer's way does not depend on the texts -/

@[simp] theorem Piece.outline_mapPath (h : Path → Path) (p : Piece) :
    (p.mapPath h).outline = p.outline.mapPath h := by
  cases p <;> rfl

theorem outlines_mapPath (h : Path → Path) (ps : List Piece) :
    (ps.map (Piece.mapPath h)).map Piece.outline
      = (ps.map Piece.outline).map (Piece.mapPath h) := by
  simp [Function.comp_def, Piece.outline_mapPath]

section

variable {α : Type} {item : α → List Piece} {m : α → α}

theorem outlines_piecesOfAll
    (h : ∀ a, (item (m a)).map Piece.outline = (item a).map Piece.outline) (as : List α) :
    (piecesOfAll item (as.map m)).map Piece.outline = (piecesOfAll item as).map Piece.outline := by
  induction as with
  | nil => rfl
  | cons a rest ih =>
    rw [List.map_cons, piecesOfAll, piecesOfAll, List.map_append, List.map_append, Piece.under,
      Piece.next, outlines_mapPath, outlines_mapPath, outlines_mapPath, outlines_mapPath, h, ih]

theorem outlines_piecesOfBlock
    (h : ∀ a, (item (m a)).map Piece.outline = (item a).map Piece.outline) (as : List α) :
    (piecesOfBlock item (as.map m)).map Piece.outline
      = (piecesOfBlock item as).map Piece.outline := by
  rw [piecesOfBlock, piecesOfBlock, List.isEmpty_map, List.length_map]
  split
  · rfl
  · rw [List.map_cons, List.map_cons, List.map_append, List.map_append, outlines_piecesOfAll h]

end

section

variable (f : String → String) (g : TaggedText → TaggedText)

theorem outlines_piecesOfFields (r : Record) : ∀ fields : List Field,
    (∀ field ∈ fields, ∀ v, (field.schema.pieces (v.mapTexts f g)).map Piece.outline
      = (field.schema.pieces v).map Piece.outline) →
    (piecesOfFields fields (r.mapTexts f g)).map Piece.outline
      = (piecesOfFields fields r).map Piece.outline
  | [], _ => by rw [piecesOfFields, piecesOfFields]
  | ⟨name, position, schema⟩ :: rest, h => by
    rw [piecesOfFields, piecesOfFields, Record.get?_mapTexts]
    cases r.get? position with
    | none => rfl
    | some v =>
      have hv := h _ List.mem_cons_self v
      have hrest := outlines_piecesOfFields r rest fun f hf => h f (List.mem_cons_of_mem _ hf)
      simp only [Option.map_some, List.map_append, Piece.under, outlines_mapPath, hv, hrest]

theorem outlines_piecesOfMember (v : Value) : ∀ (members : List Schema) (index : Nat),
    (∀ s ∈ members, ∀ v, (s.pieces (v.mapTexts f g)).map Piece.outline
      = (s.pieces v).map Piece.outline) →
    (piecesOfMember index members (v.mapTexts f g)).map Piece.outline
      = (piecesOfMember index members v).map Piece.outline
  | [], index, _ => by rw [piecesOfMember, piecesOfMember, Value.kind_mapTexts]
  | s :: rest, index, h => by
    rw [piecesOfMember, piecesOfMember, Schema.accepts_mapTexts]
    split
    · rw [List.map_cons, List.map_cons, h s List.mem_cons_self v]
    · exact outlines_piecesOfMember v rest (index + 1) fun m hm => h m (List.mem_cons_of_mem _ hm)

/-- **The writer's way depends on no text**: other texts, the same outlines. -/
theorem Schema.outlines_mapTexts (s : Schema) (v : Value) :
    (s.pieces (v.mapTexts f g)).map Piece.outline = (s.pieces v).map Piece.outline := by
  induction s using Schema.induction generalizing v with
  | string tag =>
    cases tag with
    | none => cases v <;> simp [pieces, write, Piece.outline, mismatch, writeText, writeBytes]
    | some tag =>
      simp only [pieces, List.map_cons, List.map_nil, Piece.outline, Value.shape,
        Value.mapTexts_mapTexts]
      rfl
  | record type ih =>
    cases v with
    | record r =>
      obtain ⟨name, fields⟩ := type
      rw [Value.mapTexts, pieces, pieces, RecordType.pieces, RecordType.pieces,
        Record.type_mapTexts]
      split
      · exact outlines_piecesOfFields f g r fields ih
      · rfl
    | _ => simp [pieces, mismatch]
  | array items ih =>
    cases v with
    | array vs =>
      rw [Value.mapTexts, pieces, pieces, mapTextsOfItems_eq_map]
      exact outlines_piecesOfBlock ih vs
    | _ => simp [pieces, mismatch]
  | map values ih =>
    cases v with
    | map es =>
      rw [Value.mapTexts, pieces, pieces, mapTextsOfEntries_eq_map]
      refine outlines_piecesOfBlock (fun e => ?_) es
      rw [List.map_cons, List.map_cons, ih]
    | _ => simp [pieces, mismatch]
  | union members ih =>
    rw [pieces, pieces]
    exact outlines_piecesOfMember f g v members 0 ih
  | null | boolean | int | long | float | double | bytes | enum _ | fixed _ =>
    cases v <;> simp [pieces, write, mismatch]

end

/-- Nothing in the value but plain texts keeps the writer from writing it. -/
def Schema.Writable (s : Schema) (v : Value) : Prop :=
  ∀ p ∈ s.pieces v, p.outline.emit.failure = none

theorem Piece.failure_emit (p : Piece) : p.emit.failure = none ↔
    p.outline.emit.failure = none ∧
      ∀ stop, p.stop? = some stop → ∀ text, stop.slot ≠ .typed (.plain text) := by
  cases p with
  | plain e => simp [emit, outline, stop?]
  | tagged path tag v =>
    cases tag <;> cases v with
    | tagged t =>
      cases t <;> simp [emit, outline, stop?, Tag.toWire, writeText, writeBytes]
    | _ => simp [emit, outline, stop?, Tag.toWire, writeText, writeBytes]

theorem Piece.place_outline (p : Piece) :
    p.outline.stop?.map Stop.place = p.stop?.map Stop.place := by
  cases p with
  | plain e => rfl
  | tagged path tag v =>
    cases tag <;> cases v <;> simp [outline, stop?, Stop.place]

namespace Schema

/-- A value is written when nothing else is in the way and no text that is written is plain. -/
theorem failure_write (s : Schema) (v : Value) : (s.write v).failure = none ↔
    s.Writable v ∧ ∀ p ∈ s.places v, ∀ text, p.slot ≠ .typed (.plain text) := by
  rw [write_eq_pieces, writeMany_failure]
  constructor
  · intro h
    refine ⟨fun p hp => (p.failure_emit.mp (h p hp)).1, ?_⟩
    intro stop hstop
    obtain ⟨p, hp, hs⟩ := List.mem_filterMap.mp hstop
    exact (p.failure_emit.mp (h p hp)).2 stop hs
  · rintro ⟨hw, hplain⟩ p hp
    exact p.failure_emit.mpr
      ⟨hw p hp, fun stop hs => hplain stop (List.mem_filterMap.mpr ⟨p, hp, hs⟩)⟩

theorem outlines_congr {s : Schema} {v w : Value} (h : v.shape = w.shape) :
    (s.pieces v).map Piece.outline = (s.pieces w).map Piece.outline := by
  have hv := s.outlines_mapTexts (fun _ => "") (fun _ => .encrypted "") v
  have hw := s.outlines_mapTexts (fun _ => "") (fun _ => .encrypted "") w
  rw [← hv, ← hw]
  exact congrArg (fun x => (s.pieces x).map Piece.outline) h

theorem Writable.congr {s : Schema} {v w : Value} (hv : s.Writable v) (h : v.shape = w.shape) :
    s.Writable w := by
  intro p hp
  have hm : p.outline ∈ (s.pieces v).map Piece.outline := by
    rw [outlines_congr h]
    exact List.mem_map_of_mem hp
  obtain ⟨q, hq, he⟩ := List.mem_map.mp hm
  rw [← he]
  exact hv q hq

/-- Values that differ in texts only are written at the same places. -/
theorem places_congr {s : Schema} {v w : Value} (h : v.shape = w.shape) :
    (s.places v).map Stop.place = (s.places w).map Stop.place := by
  have hp : ∀ x : Value, (s.places x).map Stop.place
      = ((s.pieces x).map Piece.outline).filterMap fun p => p.stop?.map Stop.place := by
    intro x
    rw [List.filterMap_map, places, List.map_filterMap]
    congr 1
    funext p
    exact (Piece.place_outline p).symm
  rw [hp, hp, outlines_congr h]

end Schema

/-! ## The way to a place -/

/-- The writer for a value of the schema comes to the tagged string. -/
inductive Schema.WritesAt : Schema → Value → Stop → Prop
  | inline (text : String) : WritesAt (.string (some .inline)) (.string text) ⟨[], .inline text⟩
  | typed (t : TaggedText) : WritesAt (.string (some .typed)) (.tagged t) ⟨[], .typed t⟩
  | field {type : RecordType} {r : Record} {f : Field} {v : Value} {stop : Stop}
      (hn : r.type.name.full = type.name.full) (hf : f ∈ type.fields)
      (hv : r.get? f.position = some v) (h : WritesAt f.schema v stop) :
      WritesAt (.record type) (.record r) (stop.under f.position)
  | item {items : Schema} {vs : List Value} {i : Nat} {v : Value} {stop : Stop}
      (hv : vs[i]? = some v) (h : WritesAt items v stop) :
      WritesAt (.array items) (.array vs) (stop.under i)
  | entry {values : Schema} {es : List (String × Value)} {i : Nat} {e : String × Value}
      {stop : Stop} (he : es[i]? = some e) (h : WritesAt values e.2 stop) :
      WritesAt (.map values) (.map es) (stop.under i)
  | member {members : List Schema} {m : Schema} {v : Value} {stop : Stop}
      (hm : members.find? (·.accepts v) = some m) (h : WritesAt m v stop) :
      WritesAt (.union members) v stop

theorem Piece.stop?_mapPath (h : Path → Path) (p : Piece) :
    (p.mapPath h).stop? = p.stop?.map fun stop => { stop with path := h stop.path } := by
  cases p with
  | plain e => rfl
  | tagged path tag v => cases tag <;> cases v <;> rfl

theorem stops_mapPath (h : Path → Path) (ps : List Piece) :
    (ps.map (.mapPath h)).filterMap Piece.stop?
      = (ps.filterMap Piece.stop?).map fun stop => { stop with path := h stop.path } := by
  rw [List.filterMap_map, List.map_filterMap]
  congr 1
  funext p
  exact p.stop?_mapPath h

theorem mem_stops_piecesOfAll {α : Type} {item : α → List Piece} {stop : Stop} : ∀ {as : List α},
    stop ∈ (piecesOfAll item as).filterMap Piece.stop? →
      ∃ i a inner, as[i]? = some a ∧ inner ∈ (item a).filterMap Piece.stop? ∧ stop = inner.under i
  | [], h => by simp [piecesOfAll] at h
  | a :: rest, h => by
    rw [piecesOfAll, List.filterMap_append, List.mem_append, Piece.under, Piece.next, stops_mapPath,
      stops_mapPath] at h
    rcases h with h | h
    · obtain ⟨inner, hi, rfl⟩ := List.mem_map.mp h
      exact ⟨0, a, inner, rfl, hi, rfl⟩
    · obtain ⟨other, ho, rfl⟩ := List.mem_map.mp h
      obtain ⟨i, b, inner, hb, hi, rfl⟩ := mem_stops_piecesOfAll ho
      exact ⟨i + 1, b, inner, hb, hi, rfl⟩

theorem mem_stops_piecesOfBlock {α : Type} {item : α → List Piece} {stop : Stop} {as : List α}
    (h : stop ∈ (piecesOfBlock item as).filterMap Piece.stop?) :
    ∃ i a inner, as[i]? = some a ∧ inner ∈ (item a).filterMap Piece.stop? ∧
      stop = inner.under i := by
  rw [piecesOfBlock] at h
  split at h
  · simp [Piece.stop?] at h
  · simp only [List.filterMap_cons, List.filterMap_append, Piece.stop?, List.filterMap_nil,
      List.append_nil] at h
    exact mem_stops_piecesOfAll h

theorem mem_stops_piecesOfFields {r : Record} {stop : Stop} : ∀ {fields : List Field},
    stop ∈ (piecesOfFields fields r).filterMap Piece.stop? →
      ∃ f ∈ fields, ∃ v inner, r.get? f.position = some v ∧ inner ∈ f.schema.places v ∧
        stop = inner.under f.position
  | [], h => by simp [piecesOfFields] at h
  | ⟨name, position, schema⟩ :: rest, h => by
    rw [piecesOfFields] at h
    split at h
    next v hv =>
      rw [List.filterMap_append, List.mem_append, Piece.under, stops_mapPath] at h
      rcases h with h | h
      · obtain ⟨inner, hi, rfl⟩ := List.mem_map.mp h
        exact ⟨_, List.mem_cons_self, v, inner, hv, hi, rfl⟩
      · obtain ⟨f, hf, rest⟩ := mem_stops_piecesOfFields h
        exact ⟨f, List.mem_cons_of_mem _ hf, rest⟩
    next => simp [Piece.stop?] at h

theorem mem_stops_piecesOfMember {v : Value} {stop : Stop} :
    ∀ {members : List Schema} {index : Nat},
    stop ∈ (piecesOfMember index members v).filterMap Piece.stop? →
      ∃ m, members.find? (·.accepts v) = some m ∧ stop ∈ m.places v
  | [], index, h => by simp [piecesOfMember, Piece.stop?] at h
  | s :: rest, index, h => by
    rw [piecesOfMember] at h
    split at h
    next ha =>
      rw [List.filterMap_cons_none rfl] at h
      exact ⟨s, List.find?_cons_of_pos ha, h⟩
    next ha =>
      obtain ⟨m, hm, hstop⟩ := mem_stops_piecesOfMember h
      exact ⟨m, by rwa [List.find?_cons_of_neg (by simpa using ha)], hstop⟩

theorem Schema.writesAt_of_mem_places {s : Schema} {v : Value} {stop : Stop}
    (h : stop ∈ s.places v) : s.WritesAt v stop := by
  induction s using Schema.induction generalizing v stop with
  | string tag =>
    cases tag with
    | none => simp [places, pieces, Piece.stop?] at h
    | some tag =>
      cases tag <;> cases v <;> simp [places, pieces, Piece.stop?] at h
      · subst h
        exact .inline _
      · subst h
        exact .typed _
  | record type ih =>
    cases v with
    | record r =>
      obtain ⟨name, fields⟩ := type
      rw [places, pieces, RecordType.pieces] at h
      split at h
      next hn =>
        obtain ⟨f, hf, v, inner, hv, hi, rfl⟩ := mem_stops_piecesOfFields h
        exact .field hn hf hv (ih f hf hi)
      next => simp [Piece.stop?] at h
    | _ => simp [places, pieces, Piece.stop?] at h
  | array items ih =>
    cases v with
    | array vs =>
      obtain ⟨i, v, inner, hv, hi, rfl⟩ := mem_stops_piecesOfBlock h
      exact .item hv (ih hi)
    | _ => simp [places, pieces, Piece.stop?] at h
  | map values ih =>
    cases v with
    | map es =>
      obtain ⟨i, e, inner, he, hi, rfl⟩ := mem_stops_piecesOfBlock h
      rw [List.filterMap_cons_none rfl] at hi
      exact .entry he (ih hi)
    | _ => simp [places, pieces, Piece.stop?] at h
  | union members ih =>
    obtain ⟨m, hm, hstop⟩ := mem_stops_piecesOfMember h
    exact .member hm (ih m (List.mem_of_find?_eq_some hm) hstop)
  | null | boolean | int | long | float | double | bytes | enum _ | fixed _ =>
    simp [places, pieces, Piece.stop?] at h

end FieldSeal
