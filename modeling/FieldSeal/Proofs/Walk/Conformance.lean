import FieldSeal.Proofs.Walk.Exhaustive

/-!
# Values for which a walk leaves nothing out

That a walk may leave out what has no tag in its schema is a matter of unions. A record at a union
is visited along its own type, and if that is the type of a member then a tag in it is a tag in the
union. But an array at a union is visited along the first array member, and if it fits a later one
only, its items are at places where they do not belong: the exhaustive walk still finds a way into
a record there, by the type that the record carries, and the schema of the place has no tag to show
for it (`Walk.run_skips_second_array`).

`Schema.ConformsInOrder` is conformance without that case, and for such values nothing is left out
(`Schema.ConformsInOrder.skipsNothing`). Where no union offers two arrays or two maps it is
conformance as it stands. `Walk.run_agrees_iff` puts this beside the exact condition.
-/

set_option autoImplicit false

namespace FieldSeal

/-! ## Values that conform -/

namespace Schema

/-- The value conforms to the schema at every depth: a record has the type of its place, and a null
may stand anywhere. To which members of a union a value may conform is a parameter. -/
inductive ConformsBy (takes : List Schema → Value → Schema → Prop) : Schema → Value → Prop
  | null {s : Schema} : ConformsBy takes s .null
  | boolean (b : Bool) : ConformsBy takes .boolean (.boolean b)
  | int (n : Int32) : ConformsBy takes .int (.int n)
  | long (n : Int64) : ConformsBy takes .long (.long n)
  | float (x : Ieee.Binary32) : ConformsBy takes .float (.float x)
  | double (x : Ieee.Binary64) : ConformsBy takes .double (.double x)
  | bytes (data : List UInt8) : ConformsBy takes .bytes (.bytes data)
  | string (text : String) : ConformsBy takes (.string none) (.string text)
  | inline (text : String) : ConformsBy takes (.string (some .inline)) (.string text)
  | typed (t : TaggedText) : ConformsBy takes (.string (some .typed)) (.tagged t)
  | enum {type : EnumType} {symbol : String} (h : symbol ∈ type.symbols) :
      ConformsBy takes (.enum type) (.enum symbol)
  | fixed {type : FixedType} {data : List UInt8} (h : data.length = type.size) :
      ConformsBy takes (.fixed type) (.fixed data)
  | record {type : RecordType} {fields : List Value}
      (h : ∀ (i : Nat) (f : Field) (v : Value), type.fields[i]? = some f → fields[i]? = some v →
        ConformsBy takes f.schema v) : ConformsBy takes (.record type) (.record ⟨type, fields⟩)
  | array {items : Schema} {vs : List Value}
      (h : ∀ (i : Nat) (v : Value), vs[i]? = some v → ConformsBy takes items v) :
      ConformsBy takes (.array items) (.array vs)
  | map {values : Schema} {es : List (String × Value)}
      (h : ∀ (i : Nat) (e : String × Value), es[i]? = some e → ConformsBy takes values e.2) :
      ConformsBy takes (.map values) (.map es)
  | member {members : List Schema} {m : Schema} {v : Value} (hm : takes members v m)
      (h : ConformsBy takes m v) : ConformsBy takes (.union members) v

/-- A value at a union may conform to any member. -/
def Conforms : Schema → Value → Prop := ConformsBy fun members _ m => m ∈ members

/-- A member of the union; for an array the first array among the members, if there is one, and for
a map the first map. -/
def InOrder (members : List Schema) (v : Value) (m : Schema) : Prop :=
  m ∈ members ∧ match v with
    | .array _ => ∀ items, (Schema.union members).itemSchema? = some items → m = .array items
    | .map _ => ∀ values, (Schema.union members).valueSchema? = some values → m = .map values
    | _ => True

/-- The value conforms, and at a union it conforms to the member that a walk takes it to be of. -/
def ConformsInOrder : Schema → Value → Prop := ConformsBy InOrder

theorem holdsTag_of_member {members : List Schema} {m : Schema} (hm : m ∈ members)
    (h : m.holdsTag = true) : (Schema.union members).holdsTag = true := by
  rw [holdsTag, anyHoldsTag_eq_true]
  exact ⟨m, hm, h⟩

theorem holdsTag_of_isInline {s : Schema} (h : s.isInline = true) : s.holdsTag = true := by
  rw [eq_of_isInline h, holdsTag]
  rfl

theorem holdsTag_of_isTyped {s : Schema} (h : s.isTyped = true) : s.holdsTag = true := by
  cases s with
  | string tag =>
    rw [isTyped, tag?, beq_iff_eq] at h
    rw [h, holdsTag]
    rfl
  | _ => simp [isTyped, tag?] at h

theorem holdsTag_of_takesInline {s : Schema} (h : s.takesInline = true) : s.holdsTag = true := by
  cases s with
  | union members =>
    obtain ⟨m, hm, hi⟩ := List.any_eq_true.mp h
    exact holdsTag_of_member hm (holdsTag_of_isInline hi)
  | _ => exact holdsTag_of_isInline h

theorem holdsTag_of_takesTyped {s : Schema} (h : s.takesTyped = true) : s.holdsTag = true := by
  cases s with
  | union members =>
    obtain ⟨m, hm, hi⟩ := List.any_eq_true.mp h
    exact holdsTag_of_member hm (holdsTag_of_isTyped hi)
  | _ => exact holdsTag_of_isTyped h

/-- A record that conforms has fields that conform to those of its own type, and a tag in that type
is a tag in the schema, through all unions that are in between. -/
theorem ConformsInOrder.of_record {s : Schema} {r : Record} (h : s.ConformsInOrder (.record r)) :
    (∀ (i : Nat) (f : Field) (v : Value), r.type.fields[i]? = some f → r.fields[i]? = some v →
      f.schema.ConformsInOrder v) ∧
      ((Schema.record r.type).holdsTag = true → s.holdsTag = true) ∧
      ∀ type, s.recordType? r.type = some type → type = r.type := by
  generalize he : Value.record r = v at h
  induction h with
  | record h =>
    cases he
    exact ⟨h, id, fun type ht => (Option.some.inj ht).symm⟩
  | member hm _ ih =>
    obtain ⟨hfields, htag, -⟩ := ih he
    exact ⟨hfields, fun ht => holdsTag_of_member hm.1 (htag ht),
      fun type ht => (Option.some.inj ht).symm⟩
  | _ => cases he

theorem ConformsInOrder.of_array {s items : Schema} {vs : List Value}
    (h : s.ConformsInOrder (.array vs)) (hi : s.itemSchema? = some items) :
    (∀ (i : Nat) (v : Value), vs[i]? = some v → items.ConformsInOrder v) ∧
      (items.holdsTag = true → s.holdsTag = true) := by
  cases h with
  | array h =>
    cases hi
    exact ⟨h, id⟩
  | member hm h =>
    obtain ⟨hmem, hfirst⟩ := hm
    rw [hfirst items hi] at h hmem
    cases h with
    | array h => exact ⟨h, fun ht => holdsTag_of_member hmem (by rwa [holdsTag])⟩

theorem ConformsInOrder.of_map {s values : Schema} {es : List (String × Value)}
    (h : s.ConformsInOrder (.map es)) (hi : s.valueSchema? = some values) :
    (∀ (i : Nat) (e : String × Value), es[i]? = some e → values.ConformsInOrder e.2) ∧
      (values.holdsTag = true → s.holdsTag = true) := by
  cases h with
  | map h =>
    cases hi
    exact ⟨h, id⟩
  | member hm h =>
    obtain ⟨hmem, hfirst⟩ := hm
    rw [hfirst values hi] at h hmem
    cases h with
    | map h => exact ⟨h, fun ht => holdsTag_of_member hmem (by rwa [holdsTag])⟩

/-- In a value that conforms, the schema has a tag for everything that the exhaustive walk comes to,
at every place on the way, and so nothing there is left out. -/
theorem ComesTo.visitsAt {s : Schema} {v : Value} {stop : Stop} (h : s.ComesTo v stop) :
    s.ConformsInOrder v → s.holdsTag = true ∧ s.VisitsAt v stop := by
  induction h with
  | inline text hs => exact fun _ => ⟨holdsTag_of_takesInline hs, .inline text hs⟩
  | typed t hs => exact fun _ => ⟨holdsTag_of_takesTyped hs, .typed t hs⟩
  | @field s own type fields i f v stop hr hf hv _ ih =>
    intro hc
    obtain ⟨hfields, htag, htype⟩ := hc.of_record
    obtain rfl : type = own := htype type hr
    obtain ⟨hholds, hvisits⟩ := ih (hfields i f v hf hv)
    have hp : f.position ∈ type.tagPositions :=
      RecordType.mem_tagPositions.mpr ⟨f, List.mem_of_getElem? hf, hholds, rfl⟩
    exact ⟨htag (holdsTag_of_mem_tagPositions hp), .field hr hf hv hp hvisits⟩
  | @item s items vs i v stop hs hv _ ih =>
    intro hc
    obtain ⟨hitems, htag⟩ := hc.of_array hs
    obtain ⟨hholds, hvisits⟩ := ih (hitems i v hv)
    have hvisit : s.itemsToVisit? = some items := by
      rw [itemsToVisit?, hs, Option.filter_some_pos hholds]
    exact ⟨htag hholds, .item hvisit hv hvisits⟩
  | @entry s values es i e stop hs he _ ih =>
    intro hc
    obtain ⟨hvalues, htag⟩ := hc.of_map hs
    obtain ⟨hholds, hvisits⟩ := ih (hvalues i e he)
    have hvisit : s.valuesToVisit? = some values := by
      rw [valuesToVisit?, hs, Option.filter_some_pos hholds]
    exact ⟨htag hholds, .entry hvisit he hvisits⟩

theorem ConformsInOrder.skipsNothing {s : Schema} {v : Value} (h : s.ConformsInOrder v) :
    s.SkipsNothing v :=
  fun _ hstop => (hstop.visitsAt h).2

/-! ## Unions that leave no choice -/

/-- No union in the schema offers arrays, itself or through a member that is a union, by two members,
and none offers maps by two. -/
def Unambiguous (s : Schema) : Prop :=
  ∀ members, Schema.union members ∈ s.nodes → ∀ v : Value, v = .array [] ∨ v = .map [] →
    ∀ m ∈ members, ∀ m' ∈ members, m.accepts v = true → m'.accepts v = true → m = m'

theorem Unambiguous.of_mem {s x : Schema} (h : s.Unambiguous) (hx : x ∈ s.nodes) : x.Unambiguous :=
  fun members hm => h members (nodes_trans hm hx)

theorem Conforms.accepts_array {s : Schema} {vs : List Value} (h : s.Conforms (.array vs)) :
    s.accepts (.array []) = true := by
  generalize he : Value.array vs = v at h
  induction h with
  | array => rfl
  | member hm _ ih =>
    rw [accepts]
    exact membersAccept_eq_true.mpr ⟨_, hm, ih he⟩
  | _ => cases he

theorem Conforms.accepts_map {s : Schema} {es : List (String × Value)} (h : s.Conforms (.map es)) :
    s.accepts (.map []) = true := by
  generalize he : Value.map es = v at h
  induction h with
  | map => rfl
  | member hm _ ih =>
    rw [accepts]
    exact membersAccept_eq_true.mpr ⟨_, hm, ih he⟩
  | _ => cases he

/-- Where no union offers two arrays or two maps, a value that conforms conforms to the member that
a walk takes it to be of. -/
theorem Conforms.inOrder {s : Schema} {v : Value} (h : s.Conforms v) :
    s.Unambiguous → s.ConformsInOrder v := by
  induction h with
  | null => exact fun _ => .null
  | boolean b => exact fun _ => .boolean b
  | int n => exact fun _ => .int n
  | long n => exact fun _ => .long n
  | float x => exact fun _ => .float x
  | double x => exact fun _ => .double x
  | bytes data => exact fun _ => .bytes data
  | string text => exact fun _ => .string text
  | inline text => exact fun _ => .inline text
  | typed t => exact fun _ => .typed t
  | enum h => exact fun _ => .enum h
  | fixed h => exact fun _ => .fixed h
  | record _ ih =>
    exact fun hu => .record fun i f v hf hv =>
      ih i f v hf hv (hu.of_mem (mem_nodes_field (List.mem_of_getElem? hf)))
  | array _ ih => exact fun hu => .array fun i v hv => ih i v hv (hu.of_mem (mem_nodes_items _))
  | map _ ih => exact fun hu => .map fun i e he => ih i e he (hu.of_mem (mem_nodes_values _))
  | @member members m v hm h ih =>
    intro hu
    refine .member ⟨hm, ?_⟩ (ih (hu.of_mem (mem_nodes_member hm)))
    cases v with
    | array vs =>
      intro items hi
      exact hu members (mem_nodes_self _) _ (.inl rfl) m hm _ (mem_of_itemSchema? hi)
        (Conforms.accepts_array h) rfl
    | map es =>
      intro values hi
      exact hu members (mem_nodes_self _) _ (.inr rfl) m hm _ (mem_of_valueSchema? hi)
        (Conforms.accepts_map h) rfl
    | _ => exact trivial

end Schema

/-! ## When the walks agree -/

/-- **A walk does what the exhaustive walk does exactly when it leaves nothing out.** From any index
that can come about, and for all leaf functions in both directions: the same calls in the same
order, the same value and the same failure. If the value conforms to the schema and no union in the
schema offers two arrays or two maps, nothing is left out; nor is it when each array and map at a
union conforms to the first member of its kind. -/
theorem Walk.run_agrees_iff {index : FieldIndex} (hi : index.Reachable) (s : Schema) (v : Value) :
    ((∀ w : Walk, (w.run s v index).Agrees (w.runExhaustive s v)) ↔ s.SkipsNothing v) ∧
      (s.ConformsInOrder v → s.SkipsNothing v) ∧
      (s.Conforms v → s.Unambiguous → s.ConformsInOrder v) := by
  refine ⟨⟨Schema.skipsNothing_of_agrees hi.sound, fun h w => ?_⟩, fun h => h.skipsNothing,
    fun h hu => h.inOrder hu⟩
  exact visit_agrees hi.sound s v h ⟨.empty, []⟩

/-- Optional cards in an array, by an index that knows another version of the card: one of them is
null, and both walks hand over the owner of the other. -/
theorem Walk.run_agrees_card :
    let card : RecordType := ⟨⟨"Card", none⟩, [⟨"id", 0, .int⟩, ⟨"owner", 1, .string (some .inline)⟩]⟩
    let other : RecordType := ⟨⟨"Card", none⟩, [⟨"id", 0, .int⟩, ⟨"owner", 1, .string none⟩]⟩
    let index := (other.sensitivePositions .empty).2
    let s : Schema := .array (.union [.null, .record card])
    let v : Value := .array [.null, .record ⟨card, [.int 7, .string "ann"]⟩]
    let w : Walk := ⟨.encrypt, stamp⟩
    (w.run s v index).Agrees (w.runExhaustive s v) ∧
      (w.run s v index).trace.calls = ["ann"] ∧ index.size = 1 := by
  intro card other index s v w
  have hi : index.Reachable := .positions .empty other
  have hconforms : s.Conforms v := by
    refine .array fun i u hu => ?_
    have hmem := List.mem_of_getElem? hu
    rw [List.mem_cons, List.mem_singleton] at hmem
    rcases hmem with rfl | rfl
    · exact .null
    · refine .member (m := .record card) (by simp) (.record fun i f u hf hu => ?_)
      match i with
      | 0 => cases hf; cases hu; exact .int 7
      | 1 => cases hf; cases hu; exact .inline "ann"
      | i + 2 => simp [card] at hf
  have hunambiguous : s.Unambiguous := by
    intro members hm v hv m hmem m' hmem' ha ha'
    have hmembers : members = [.null, .record card] := by
      simpa [s, card] using hm
    rcases hv with rfl | rfl <;> rw [hmembers] at hmem <;>
      rcases List.mem_pair.mp hmem with rfl | rfl <;> cases ha
  obtain ⟨hiff, hskips, horder⟩ := run_agrees_iff hi s v
  exact ⟨hiff.mpr (hskips (horder hconforms hunambiguous)) w, by rfl, by rfl⟩

/-- Of two array members the second has the cards. The walk goes along the first, sees no tag and
leaves the array alone, and the owner stays in the plain; the exhaustive walk along the same member
comes to a record, and the type of the record leads it to the owner. -/
theorem Walk.run_skips_second_array :
    let card : RecordType := ⟨⟨"Card", none⟩, [⟨"owner", 0, .string (some .inline)⟩]⟩
    let s : Schema := .union [.array (.union [.null, .int]), .array (.record card)]
    let v : Value := .array [.record ⟨card, [.string "ann"]⟩]
    let w : Walk := ⟨.encrypt, stamp⟩
    s.Parsed ∧ s.Conforms v ∧ FieldIndex.empty.Reachable ∧
      (w.run s v .empty).trace.calls = [] ∧ (w.run s v .empty).value = v ∧
      (w.run s v .empty).failure = none ∧
      (w.runExhaustive s v).trace.calls = ["ann"] ∧
      (w.runExhaustive s v).value = .array [.record ⟨card, [.string "Aann"]⟩] ∧
      ¬ (w.run s v .empty).Agrees (w.runExhaustive s v) := by
  intro card s v w
  have hcalls : (w.run s v .empty).trace.calls = [] := by rfl
  have hexhaustive : (w.runExhaustive s v).trace.calls = ["ann"] := by rfl
  refine ⟨⟨.array [
      .object [("items", .array [.string "null", .string "int"]), ("type", .string "array")],
      .object [("items", .object [("fields", .array [.object [("name", .string "owner"),
          ("type", .object [("logicalType", .string "inline-encrypted-string"),
            ("type", .string "string")])]]),
        ("name", .string "Card"), ("type", .string "record")]), ("type", .string "array")]],
      by rfl⟩, ?_, .empty, hcalls, by rfl, by rfl, hexhaustive, by rfl, fun h => ?_⟩
  · refine .member (m := .array (.record card)) (by simp) (.array fun i u hu => ?_)
    rw [List.mem_singleton.mp (List.mem_of_getElem? hu)]
    refine .record fun i f x hf hx => ?_
    rw [List.mem_singleton.mp (List.mem_of_getElem? hf),
      List.mem_singleton.mp (List.mem_of_getElem? hx)]
    exact .inline "ann"
  · have hdiffer := h.calls
    rw [hcalls, hexhaustive] at hdiffer
    cases hdiffer

end FieldSeal
