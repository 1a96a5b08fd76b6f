import FieldSeal.Proofs.Ieee.Widening
import FieldSeal.Proofs.Schema.Resolution
import FieldSeal.Proofs.Table
import FieldSeal.Proofs.Value.Shapes
import FieldSeal.Rendering.Read
import FieldSeal.Rendering.Write

/-!
# What is rendered is read back

Writer and reader of JSON choose the branch of a union by different things: the writer by the shape
of the value, the reader by the name that the writer put there. They meet again when the members of
a union have names of their own, and only `null` needs a word: it has no name in JSON if the null
member is the first to accept it, and that of a union if it is a member union that does.

The fields of a record go into an object by name and come out of it by position. That no field is
lost on the way is what the parser sees to: the names of the fields are different, so each finds its
own member (`Table.get?_ofList`).

Both renderings are one induction. What differs is what becomes of a mark, `Rendering.remark`: the
wire takes encrypted texts only and gives them back as encrypted, and a plain document takes both
and gives them back as plain.
-/

set_option autoImplicit false

namespace FieldSeal

open FieldSeal.Ieee

/-- What becomes of a mark when a text is written and read again. -/
def Rendering.remark : Rendering → TaggedText → TaggedText
  | .wire, t => t
  | .plain, t => .plain t.text

/-- The value that is read from the rendering of a value. -/
abbrev Value.remark (rendering : Rendering) (v : Value) : Value := v.mapTexts id rendering.remark

/-- The members of each union in the schema have names of their own. -/
def Schema.NamesApart (s : Schema) : Prop :=
  ∀ members, Schema.union members ∈ s.nodes → (members.map Schema.typeName).Nodup

/-! ## Texts, bytes and numbers -/

variable {rendering : Rendering}

theorem Rendering.ofText_toText {tag : Tag} {v : Value} {text : String}
    (h : rendering.toText tag v = .ok text) : rendering.ofText tag text = v.remark rendering := by
  cases v with
  | string t =>
    cases rendering <;> cases tag <;> cases h
    all_goals simp only [ofText, Tag.ofWire, Value.mapTexts, id]
  | tagged t =>
    cases rendering <;> cases tag <;> cases t <;> cases h
    all_goals simp only [ofText, Tag.ofWire, Value.mapTexts, remark, TaggedText.text]
  | _ => cases rendering <;> cases tag <;> cases h

@[simp] theorem ofLatin1?_latin1 (data : List UInt8) : ofLatin1? (latin1 data) = some data := by
  rw [ofLatin1?, latin1, String.toList_ofList]
  induction data with
  | nil => rfl
  | cons b rest ih =>
    have hb : b.toNat < 256 := b.toNat_lt
    have hvalid : b.toNat.isValidChar := .inl (by omega)
    have hchar : (Char.ofNat b.toNat).toNat = b.toNat := by
      rw [Char.ofNat, dif_pos hvalid]
      rfl
    rw [List.map_cons, List.mapM_cons, ih, hchar, if_pos hb, UInt8.ofNat_toNat]
    rfl

namespace Json.Number

@[simp] theorem toInt64?_ofInt64 (n : Int64) : (ofInt64 n).toInt64? = some n := by
  have hlt : n.toInt < 0x8000000000000000 := n.toInt_lt
  rw [ofInt64, toInt64?, if_pos hlt, Int64.ofInt_toInt]

@[simp] theorem int32?_ofInt32 (n : Int32) : (ofInt32 n).toInt64?.bind int32? = some n := by
  have hlt : n.toInt < 0x8000000000000000 := by
    have := n.toInt_lt
    omega
  have hn : Int64.ofInt n.toInt = n.toInt64 := by rw [← n.toInt_toInt64, Int64.ofInt_toInt]
  rw [ofInt32, toInt64?, if_pos hlt, hn, Option.bind_some, int32?, Int32.toInt32_toInt64, if_pos rfl]

end Json.Number

theorem renderNumber_eq_ok {x : Binary64} {j : Json} (h : renderNumber x = .ok j) :
    x.isFinite = true ∧ ∃ n : Json.Number, j = .number n ∧ n.toBinary64 = x := by
  unfold renderNumber Json.Number.ofBinary64? at h
  split at h
  next n hn =>
    split at hn
    next hfinite =>
      cases h
      cases hn
      exact ⟨hfinite, _, rfl, rfl⟩
    next => cases hn
  next => cases h

/-! ## Rows -/

theorem readItems_renderItems {write : Value → Except Failure Json}
    {read : Json → Except CodecError Value} {f : Value → Value} : ∀ {vs : List Value}
    {js : List Json}, (∀ v ∈ vs, ∀ j, write v = .ok j → read j = .ok (f v)) →
      renderItems write vs = .ok js → readItems read js = .ok (vs.map f)
  | [], _, _, h => by
    cases h
    rfl
  | v :: rest, _, hread, h => by
    obtain ⟨j, hj, h⟩ := bind_eq_ok.mp h
    obtain ⟨js, hjs, h⟩ := bind_eq_ok.mp h
    cases h
    rw [readItems, hread v List.mem_cons_self j hj,
      readItems_renderItems (fun v hv => hread v (List.mem_cons_of_mem _ hv)) hjs]
    rfl

theorem readEntries_renderEntries {write : Value → Except Failure Json}
    {read : Json → Except CodecError Value} {f : Value → Value} : ∀ {es : List (String × Value)}
    {js : List (String × Json)}, (∀ e ∈ es, ∀ j, write e.2 = .ok j → read j = .ok (f e.2)) →
      renderEntries write es = .ok js → readEntries read js = .ok (es.map fun e => (e.1, f e.2))
  | [], _, _, h => by
    cases h
    rfl
  | (key, v) :: rest, _, hread, h => by
    obtain ⟨j, hj, h⟩ := bind_eq_ok.mp h
    obtain ⟨js, hjs, h⟩ := bind_eq_ok.mp h
    cases h
    rw [readEntries, hread (key, v) List.mem_cons_self j hj,
      readEntries_renderEntries (fun e he => hread e (List.mem_cons_of_mem _ he)) hjs]
    rfl

/-! ## One kind of schema after another -/

@[simp] theorem Value.remark_items (vs : List Value) :
    (Value.array vs).remark rendering = .array (vs.map (remark rendering)) := by
  rw [remark, mapTexts, mapTextsOfItems_eq_map]

@[simp] theorem Value.remark_entries (es : List (String × Value)) : (Value.map es).remark rendering
    = .map (es.map fun e => (e.1, e.2.remark rendering)) := by
  rw [remark, mapTexts, mapTextsOfEntries_eq_map]

theorem keys_fieldsToJson : ∀ {fields : List Field} {r : Record} {members : List (String × Json)},
    fieldsToJson rendering fields r = .ok members → members.map (·.1) = fields.map (·.name)
  | [], _, _, h => by
    rw [fieldsToJson] at h
    cases h
    rfl
  | ⟨name, position, schema⟩ :: rest, r, members, h => by
    rw [fieldsToJson] at h
    split at h
    next v hv =>
      obtain ⟨j, -, h⟩ := bind_eq_ok.mp h
      obtain ⟨others, hothers, h⟩ := bind_eq_ok.mp h
      cases h
      rw [List.map_cons, List.map_cons, keys_fieldsToJson hothers]
    next => cases h

/-- What the schema writes of a value with the record types of a root schema, it reads back, each
mark as the rendering leaves it. -/
def Schema.Restores (rendering : Rendering) (s root : Schema) : Prop :=
  ∀ (v : Value) (j : Json), v.Regular → v.TypesIn root → s.toJson rendering v = .ok j →
    s.fromJson rendering j = .ok (v.remark rendering)

section

variable {root : Schema}

/-- The fields from a position on, whose members are all in the object. -/
theorem fields_fromJson_toJson {r : Record} {object : Table Json} :
    ∀ {fields : List Field} {k : Nat} {vs : List Value} {members : List (String × Json)},
      (∀ f ∈ fields, f.schema.Restores rendering root) → r.fields.drop k = vs →
      fields.length = vs.length → (∀ i f, fields[i]? = some f → f.position = k + i) →
      (∀ v ∈ vs, v.Regular ∧ v.TypesIn root) → fieldsToJson rendering fields r = .ok members →
      (∀ key j, (key, j) ∈ members → Table.get? key object = some j) →
      fieldsFromJson rendering fields object = .ok (vs.map (Value.remark rendering))
  | [], k, vs, members, _, _, hlen, _, _, _, _ => by
    obtain rfl : vs = [] := List.length_eq_zero_iff.mp hlen.symm
    rfl
  | ⟨name, position, schema⟩ :: rest, k, [], members, _, _, hlen, _, _, _, _ => by
    simp at hlen
  | ⟨name, position, schema⟩ :: rest, k, v :: vs, members, hrestores, hdrop, hlen, hpos, hv, h,
      hobject => by
    obtain ⟨hget, hdrop'⟩ := Record.get?_of_drop hdrop
    obtain rfl : position = k := hpos 0 _ rfl
    simp only [fieldsToJson, hget] at h
    obtain ⟨j, hj, h⟩ := bind_eq_ok.mp h
    obtain ⟨others, hothers, h⟩ := bind_eq_ok.mp h
    cases h
    rw [List.forall_mem_cons] at hrestores hv
    have hfirst := hrestores.1 v j hv.1.1 hv.1.2 hj
    have hpos' : ∀ i f, rest[i]? = some f → f.position = position + 1 + i := by
      intro i f hf
      rw [Nat.add_assoc, Nat.add_comm 1 i]
      exact hpos (i + 1) f hf
    have hrest := fields_fromJson_toJson hrestores.2 hdrop' (by simpa using hlen) hpos' hv.2 hothers
      fun key j hmem => hobject key j (List.mem_cons_of_mem _ hmem)
    simp only [fieldsFromJson, hobject name j List.mem_cons_self, hfirst, hrest]
    rfl

/-- What is written at a union is `null` for a null, or names a member; the first of that name is
the one that it was written under. -/
theorem member_fromJson_toJson {v : Value} {j : Json} (hr : v.Regular) (hv : v.TypesIn root) :
    ∀ {members : List Schema}, (∀ m ∈ members, m.Restores rendering root) →
      (members.map Schema.typeName).Nodup → memberToJson rendering members v = .ok j →
      (j = .null ∧ v = .null ∧ members.any (·.isNull) = true) ∨
        ∃ branch inner, j = .object [(branch, inner)] ∧ branch ∈ members.map Schema.typeName ∧
          memberFromJson rendering members branch inner = .ok (v.remark rendering)
  | [], _, _, h => by cases h
  | s :: rest, hrestores, hnodup, h => by
    rw [List.forall_mem_cons] at hrestores
    rw [memberToJson] at h
    split at h
    next haccepts =>
      split at h
      next hnull =>
        cases h
        cases s <;> cases hnull
        cases v <;> cases haccepts
        exact .inl ⟨rfl, rfl, rfl⟩
      next =>
        obtain ⟨inner, hinner, rfl⟩ := map_eq_ok.mp h
        refine .inr ⟨_, inner, rfl, List.mem_cons_self, ?_⟩
        rw [memberFromJson, if_pos rfl]
        exact hrestores.1 v inner hr hv hinner
    next =>
      rw [List.map_cons, List.nodup_cons] at hnodup
      rcases member_fromJson_toJson hr hv hrestores.2 hnodup.2 h with
        ⟨hj, hnull, hany⟩ | ⟨branch, inner, hj, hbranch, hread⟩
      · exact .inl ⟨hj, hnull, by rw [List.any_cons, hany, Bool.or_true]⟩
      · refine .inr ⟨branch, inner, hj, List.mem_cons_of_mem _ hbranch, ?_⟩
        rw [memberFromJson, if_neg fun he : s.typeName = branch => hnodup.1 (he ▸ hbranch)]
        exact hread

namespace Schema.Restores

theorem null : Restores rendering .null root := by
  intro v j _ _ h
  cases v <;> cases h
  rfl

theorem boolean : Restores rendering .boolean root := by
  intro v j _ _ h
  cases v <;> cases h
  rfl

theorem int : Restores rendering .int root := by
  intro v j _ _ h
  cases v with
  | int n =>
    cases h
    simp only [Schema.fromJson, Json.Number.int32?_ofInt32, Value.mapTexts]
  | _ => cases h

theorem long : Restores rendering .long root := by
  intro v j _ _ h
  cases v with
  | long n =>
    cases h
    simp only [Schema.fromJson, Json.Number.toInt64?_ofInt64, Value.mapTexts]
  | _ => cases h

/-- A float is written in the wider format, and only if it is a number there. -/
theorem float : Restores rendering .float root := by
  intro v j _ _ h
  cases v with
  | float x =>
    obtain ⟨hfinite, n, rfl, hn⟩ := renderNumber_eq_ok h
    simp only [Schema.fromJson, hn, Value.mapTexts,
      Binary32.narrow_widen (Binary32.isFinite_of_widen hfinite)]
  | _ => cases h

theorem double : Restores rendering .double root := by
  intro v j _ _ h
  cases v with
  | double x =>
    obtain ⟨-, n, rfl, hn⟩ := renderNumber_eq_ok h
    simp only [Schema.fromJson, hn, Value.mapTexts]
  | _ => cases h

theorem bytes : Restores rendering .bytes root := by
  intro v j _ _ h
  cases v with
  | bytes data =>
    cases h
    simp only [Schema.fromJson, readLatin1, ofLatin1?_latin1, Except.map, Value.mapTexts]
  | _ => cases h

theorem string (tag : Option Tag) : Restores rendering (.string tag) root := by
  intro v j _ _ h
  cases tag with
  | none =>
    cases v <;> cases h
    simp only [Schema.fromJson, Value.mapTexts, id]
  | some tag =>
    obtain ⟨text, ht, rfl⟩ := map_eq_ok.mp h
    simp only [Schema.fromJson, Rendering.ofText_toText ht]

/-- The names have been compared, so the type of the place is the type of the record. -/
theorem record (hroot : root.WellFormed) {type : RecordType} (hself : .record type ∈ root.nodes)
    (hfields : ∀ f ∈ type.fields, f.schema.Restores rendering root) :
    Restores rendering (.record type) root := by
  intro v j hr hv h
  obtain ⟨name, fields⟩ := type
  cases v with
  | record r =>
    obtain ⟨own, vs⟩ := r
    obtain ⟨members, hm, rfl⟩ := map_eq_ok.mp h
    rw [RecordType.toJson] at hm
    split at hm
    next hn =>
      obtain rfl : own = ⟨name, fields⟩ :=
        hroot.record_eq (hv ⟨own, vs⟩ (Value.mem_parts_self _)) hself hn
      rw [Value.Regular, Value.regularItems_iff] at hr
      have htype := hroot.records _ hself
      have hkeys : (members.map (·.1)).Nodup := by
        rw [keys_fieldsToJson hm]
        exact htype.distinct
      have hread := fields_fromJson_toJson hfields (List.drop_zero (l := vs)) hr.1.symm
        (fun i f hf => by simpa using htype.positioned i f hf)
        (fun v hmem => ⟨hr.2 v hmem, hv.field hmem⟩) hm
        fun key j hmem => Table.get?_ofList hkeys hmem
      simp only [Schema.fromJson, RecordType.fromJson, hread, Value.mapTexts, Record.mapTexts,
        mapTextsOfItems_eq_map]
      rfl
    next => cases hm
  | _ => cases h

theorem array {items : Schema} (hitems : items.Restores rendering root) :
    Restores rendering (.array items) root := by
  intro v j hr hv h
  cases v with
  | array vs =>
    obtain ⟨js, hjs, rfl⟩ := map_eq_ok.mp h
    rw [Value.Regular, Value.regularItems_iff] at hr
    have hread : ∀ v ∈ vs, ∀ j, items.toJson rendering v = .ok j →
        items.fromJson rendering j = .ok (v.remark rendering) := by
      intro v hmem j hj
      exact hitems v j (hr v hmem) (hv.item hmem) hj
    rw [Value.remark_items]
    simp only [Schema.fromJson, readItems_renderItems hread hjs, Except.map]
  | _ => cases h

theorem map {values : Schema} (hvalues : values.Restores rendering root) :
    Restores rendering (.map values) root := by
  intro v j hr hv h
  cases v with
  | map es =>
    obtain ⟨js, hjs, rfl⟩ := map_eq_ok.mp h
    rw [Value.Regular, Value.regularEntries_iff] at hr
    have hread : ∀ e ∈ es, ∀ j, values.toJson rendering e.2 = .ok j →
        values.fromJson rendering j = .ok (e.2.remark rendering) := by
      intro e hmem j hj
      exact hvalues e.2 j (hr.2 e hmem) (hv.entry hmem) hj
    rw [Value.remark_entries]
    simp only [Schema.fromJson, readEntries_renderEntries hread hjs, Except.map]
  | _ => cases h

theorem union {members : List Schema} (hnames : (members.map Schema.typeName).Nodup)
    (hmembers : ∀ m ∈ members, m.Restores rendering root) :
    Restores rendering (.union members) root := by
  intro v j hr hv h
  rw [Schema.toJson] at h
  rcases member_fromJson_toJson hr hv hmembers hnames h with
    ⟨rfl, rfl, hnull⟩ | ⟨branch, inner, rfl, -, hread⟩
  · simp only [Schema.fromJson, hnull, if_true, Value.mapTexts]
  · simp only [Schema.fromJson, hread]

theorem enum (type : EnumType) : Restores rendering (.enum type) root := by
  intro v j _ _ h
  cases v with
  | enum symbol =>
    rw [Schema.toJson] at h
    split at h
    next hc =>
      cases h
      simp only [Schema.fromJson, hc, if_true, Value.mapTexts]
    next => cases h
  | _ => cases h

theorem fixed (type : FixedType) : Restores rendering (.fixed type) root := by
  intro v j _ _ h
  cases v with
  | fixed data =>
    rw [Schema.toJson] at h
    split at h
    next hlen =>
      cases h
      simp only [Schema.fromJson, readLatin1, ofLatin1?_latin1, Value.mapTexts]
      exact if_pos hlen
    next => cases h
  | _ => cases h

end Schema.Restores

/-- Every schema inside the root restores. That it is inside goes along in the induction, since a
record asks the root for its definition and a union for the names of its members. -/
theorem Schema.restores (hroot : root.WellFormed) (hnames : root.NamesApart) {s : Schema}
    (hs : s ∈ root.nodes) : s.Restores rendering root := by
  induction s using Schema.induction with
  | null => exact .null
  | boolean => exact .boolean
  | int => exact .int
  | long => exact .long
  | float => exact .float
  | double => exact .double
  | bytes => exact .bytes
  | string tag => exact .string tag
  | record type ih =>
    exact .record hroot hs fun f hf => ih f hf (nodes_trans (mem_nodes_field hf) hs)
  | array items ih => exact .array (ih (nodes_trans (mem_nodes_items items) hs))
  | map values ih => exact .map (ih (nodes_trans (mem_nodes_values values) hs))
  | union members ih =>
    exact .union (hnames members hs) fun m hm => ih m hm (nodes_trans (mem_nodes_member hm) hs)
  | enum type => exact .enum type
  | fixed type => exact .fixed type

end

theorem Schema.fromJson_toJson {s : Schema} (hs : s.WellFormed) (hn : s.NamesApart) {v : Value}
    {j : Json} (hr : v.Regular) (hv : v.TypesIn s) (h : s.toJson rendering v = .ok j) :
    s.fromJson rendering j = .ok (v.remark rendering) :=
  restores hs hn s.mem_nodes_self v j hr hv h

/-- **What is rendered is read back.** If the members of each union of the schema have names of
their own, then what has been written as wire JSON is read as the value that it was, and what has
been written as a plain document is read as the value with all its marked texts plain. -/
theorem Schema.read_rendered {s : Schema} (hs : s.Parsed) (hn : s.NamesApart) {v : Value}
    (hr : v.Regular) (hv : v.TypesIn s) :
    (∀ j, s.toJson .wire v = .ok j → s.fromJson .wire j = .ok v) ∧
      ∀ j, s.toJson .plain v = .ok j →
        s.fromJson .plain j = .ok (v.mapTexts id fun t => .plain t.text) := by
  have h : ∀ (rendering : Rendering) (j : Json), s.toJson rendering v = .ok j →
      s.fromJson rendering j = .ok (v.remark rendering) := fun rendering j =>
    fromJson_toJson hs.wellFormed hn hr hv
  refine ⟨fun j hj => ?_, h .plain⟩
  rw [h .wire j hj]
  exact congrArg Except.ok v.mapTexts_id

/-- A null that is written under the name of a union, since the null is a member of a union inside
another, and marked texts on both sides of the cipher. -/
theorem Schema.read_rendered_note :
    let note : RecordType := ⟨⟨"Note", none⟩,
      [⟨"title", 0, .union [.int, .union [.null, .float]]⟩, ⟨"tags", 1, .map (.string (some .typed))⟩]⟩
    let v : Value := .record ⟨note, [.null,
      .map [("a", .tagged (.encrypted "x")), ("b", .tagged (.plain "y"))]]⟩
    let w : Value := .record ⟨note, [.null,
      .map [("a", .tagged (.encrypted "x")), ("b", .tagged (.encrypted "y"))]]⟩
    let j : Json := .object [("tags", .object [("a", .string "x"), ("b", .string "y")]),
      ("title", .object [("union", .null)])]
    (Schema.record note).toJson .plain v = .ok j ∧
      (Schema.record note).fromJson .plain j = .ok (v.mapTexts id fun t => .plain t.text) ∧
      (Schema.record note).toJson .wire w = .ok j ∧
      (Schema.record note).fromJson .wire j = .ok w := by
  intro note v w j
  have hs : (Schema.record note).Parsed :=
    ⟨.object [("fields", .array [
        .object [("name", .string "title"),
          ("type", .array [.string "int", .array [.string "null", .string "float"]])],
        .object [("name", .string "tags"), ("type", .object [("type", .string "map"),
          ("values", .object [("logicalType", .string "encrypted-string"),
            ("type", .string "string")])])]]),
      ("name", .string "Note"), ("type", .string "record")], by rfl⟩
  have hn : (Schema.record note).NamesApart := by
    intro members hm
    have hmembers : members = [.int, .union [.null, .float]] ∨ members = [.null, .float] := by
      simpa [note] using hm
    rcases hmembers with rfl | rfl <;> decide
  have hregular : v.Regular ∧ w.Regular := by
    have hkeys : ∀ x y : Value, Table.Ascending [("a", x), ("b", y)] := by
      intro x y
      exact List.pairwise_pair.mpr (show "a" < "b" by decide)
    simp [v, w, note, Value.Regular, Value.RegularItems, Value.RegularEntries, hkeys]
  have htypes : ∀ text : TaggedText, (Value.record ⟨note, [.null,
      .map [("a", .tagged (.encrypted "x")), ("b", .tagged text)]]⟩).TypesIn (.record note) := by
    intro text r hr
    have hr' : r.type = note := by
      have := hr
      simp at this
      rw [this]
    rw [hr']
    exact mem_nodes_self _
  have hplain : (Schema.record note).toJson .plain v = .ok j := by rfl
  have hwire : (Schema.record note).toJson .wire w = .ok j := by rfl
  exact ⟨hplain, (read_rendered hs hn hregular.1 (htypes _)).2 j hplain, hwire,
    (read_rendered hs hn hregular.2 (htypes _)).1 j hwire⟩

end FieldSeal
