import FieldSeal.Proofs.Schema.Resolution
import FieldSeal.Proofs.Table
import FieldSeal.Proofs.Value.Parts
import FieldSeal.Proofs.Wire.Blocks

/-!
# What is written is read back

A value says nothing about the branch of a union that it came from, and the writer looks no deeper
than the value itself to choose one. That it is read back all the same has one reason: a reader
needs the type of the value only at records, and there the writer has compared names. Since a name
has one definition in a schema that has been read from a document, the record type at the place is
the one the record carries. So the induction goes along the schema that the writer is at, inside a
root schema that has all the nodes, and asks of a value that it belongs to the root. It never asks
that a value fits its branch.

An array or map above the item limit is written like any other and refused by the reader, which is
why `Reads` has a condition: values within the limit come back, all others end in the error about
it.
-/

set_option autoImplicit false

namespace FieldSeal

/- A power of natural numbers is that of core here, whatever else is in scope. -/
attribute [local instance (high)] instPowNat

open FieldSeal.Wire

namespace Value

variable {limit : Nat}

/-- A value that is its only part has nothing in it that could be above the limit. -/
theorem within_single {v : Value} (hp : v.parts = [v]) (hc : v.count = 0) :
    True ↔ v.Within limit := by
  constructor
  · intro _ x hx
    rw [hp, List.mem_singleton] at hx
    rw [hx, hc]
    exact Nat.zero_le limit
  · intro _
    trivial

@[simp] theorem within_record {r : Record} :
    (Value.record r).Within limit ↔ ∀ v ∈ r.fields, v.Within limit := by
  obtain ⟨type, fields⟩ := r
  simp only [Within, parts, Record.parts, List.mem_cons, mem_partsOfItems]
  constructor
  · intro h v hv x hx
    exact h x (.inr ⟨v, hv, hx⟩)
  · rintro h x (rfl | ⟨v, hv, hx⟩)
    · exact Nat.zero_le limit
    · exact h v hv x hx

@[simp] theorem within_array {items : List Value} :
    (Value.array items).Within limit ↔ items.length ≤ limit ∧ ∀ v ∈ items, v.Within limit := by
  simp only [Within, parts, List.mem_cons, mem_partsOfItems]
  constructor
  · intro h
    exact ⟨h _ (.inl rfl), fun v hv x hx => h x (.inr ⟨v, hv, hx⟩)⟩
  · rintro ⟨hlen, h⟩ x (rfl | ⟨v, hv, hx⟩)
    · exact hlen
    · exact h v hv x hx

@[simp] theorem within_map {entries : List (String × Value)} :
    (Value.map entries).Within limit ↔
      entries.length ≤ limit ∧ ∀ e ∈ entries, e.2.Within limit := by
  simp only [Within, parts, List.mem_cons, mem_partsOfEntries]
  constructor
  · intro h
    exact ⟨h _ (.inl rfl), fun e he x hx => h x (.inr ⟨e, he, hx⟩)⟩
  · rintro ⟨hlen, h⟩ x (rfl | ⟨e, he, hx⟩)
    · exact hlen
    · exact h e he x hx

end Value

/-! ## One kind of schema after another -/

/-- What becomes a text on the wire is the value that the text becomes. -/
theorem Tag.ofWire_of_toWire {tag : Tag} {v : Value} {text : String}
    (h : tag.toWire v = .ok text) : tag.ofWire text = v ∧ v.parts = [v] ∧ v.count = 0 ∧
      v.announced = [(Utf8.encode text).length] := by
  cases v with
  | string t =>
    cases tag with
    | inline => cases h; exact ⟨rfl, rfl, rfl, rfl⟩
    | typed => simp [toWire] at h
  | tagged t =>
    cases tag with
    | inline => simp [toWire] at h
    | typed =>
      cases t with
      | plain t => simp [toWire] at h
      | encrypted t => cases h; exact ⟨rfl, rfl, rfl, rfl⟩
  | _ => cases tag <;> simp [toWire] at h

theorem Schema.reads_enum {type : EnumType} {symbol : String} {i : Nat}
    (hs : type.symbols.length < 2 ^ (63 : Nat)) (hi : type.symbols.idxOf? symbol = some i) :
    Reads (Schema.enum type).read (writeLength i) True (.enum symbol) := by
  obtain ⟨hlt, hget, -⟩ := List.idxOf?_eq_some_iff.mp hi
  rw [Schema.read]
  exact (reads_index (by rw [List.getElem?_eq_getElem hlt, hget]) (by omega)).map

/-- What the schema writes of a value that belongs to a root schema is, in front of any bytes, read
as the value, or refused if the value is above the item limit. -/
def Schema.ReadsBack (s root : Schema) : Prop :=
  ∀ v : Value, v.Legible root → (s.write v).failure = none →
    Reads s.read (s.write v).bytes (v.Within maxItems) v

section

variable {root : Schema}

/-- The fields from a position on, which are the values from that position on. -/
theorem reads_fields {r : Record} : ∀ {fields : List Field} {k : Nat} {vs : List Value},
    (∀ f ∈ fields, f.schema.ReadsBack root) → r.fields.drop k = vs → fields.length = vs.length →
    (∀ i f, fields[i]? = some f → f.position = k + i) → (∀ v ∈ vs, v.Legible root) →
    (writeFields fields r).failure = none →
    Reads (readFields fields) (writeFields fields r).bytes (∀ v ∈ vs, v.Within maxItems) vs
  | [], k, vs, _, _, hlen, _, _, _ => by
    obtain rfl : vs = [] := List.length_eq_zero_iff.mp hlen.symm
    rw [readFields, writeFields]
    exact (Reads.pure []).congr (by simp)
  | ⟨name, position, schema⟩ :: rest, k, [], _, _, hlen, _, _, _ => by
    simp at hlen
  | ⟨name, position, schema⟩ :: rest, k, v :: vs, hfields, hdrop, hlen, hpos, hv, hw => by
    obtain ⟨hget, hdrop'⟩ := Record.get?_of_drop hdrop
    obtain rfl : position = k := hpos 0 _ rfl
    simp only [writeFields, hget] at hw ⊢
    obtain ⟨hwv, hwrest⟩ := andThen_failure.mp hw
    rw [List.forall_mem_cons] at hfields hv
    have hfirst := hfields.1 v hv.1 hwv
    have hpos' : ∀ i f, rest[i]? = some f → f.position = position + 1 + i := by
      intro i f hf
      rw [Nat.add_assoc, Nat.add_comm 1 i]
      exact hpos (i + 1) f hf
    have hothers := reads_fields hfields.2 hdrop' (by simpa using hlen) hpos' hv.2 hwrest
    rw [andThen_bytes hwv, readFields]
    exact (hfirst.bind (hothers.map (f := fun vs => v :: vs))).congr (by simp)

/-- The members from an index on, one of which accepts the value. -/
theorem reads_member {all : List (Reader Value)} {v : Value} (hv : v.Legible root) :
    ∀ {members : List Schema} {index : Nat}, (∀ m ∈ members, m.ReadsBack root) →
      all.drop index = readMembers members → index + members.length < 2 ^ (63 : Nat) →
      (writeMember index members v).failure = none →
      Reads (do (← readIndex all .invalidUnionBranch)) (writeMember index members v).bytes
        (v.Within maxItems) v
  | [], index, _, _, _, hw => by
    simp [writeMember] at hw
  | s :: rest, index, hmembers, hdrop, hlen, hw => by
    rw [List.length_cons] at hlen
    rw [readMembers] at hdrop
    rw [List.forall_mem_cons] at hmembers
    rw [writeMember] at hw ⊢
    by_cases hacc : s.accepts v
    · rw [if_pos hacc] at hw ⊢
      obtain ⟨hwi, hwv⟩ := andThen_failure.mp hw
      have hget : all[index]? = some s.read := by
        have := congrArg List.head? hdrop
        rwa [List.head?_drop, List.head?_cons] at this
      rw [andThen_bytes hwi]
      -- The index leads back to this member, whichever others would accept the value too.
      exact (reads_index hget (by omega)).followed (hmembers.1 v hv hwv)
    · rw [if_neg hacc] at hw ⊢
      have hdrop' : all.drop (index + 1) = readMembers rest := by
        rw [← List.drop_drop, hdrop, List.drop_one, List.tail_cons]
      exact reads_member hv hmembers.2 hdrop' (by omega) hw

namespace Schema.ReadsBack

theorem null : ReadsBack .null root := by
  intro v _ hw
  cases v with
  | null => exact (Reads.pure _).congr (Value.within_single rfl rfl)
  | _ => simp [Schema.write] at hw

theorem boolean : ReadsBack .boolean root := by
  intro v _ hw
  cases v with
  | boolean b =>
    rw [Schema.read, Schema.write]
    exact (reads_boolean b).map.congr (Value.within_single rfl rfl)
  | _ => simp [Schema.write] at hw

theorem int : ReadsBack .int root := by
  intro v _ hw
  cases v with
  | int n =>
    rw [Schema.read, Schema.write]
    exact (reads_int n).map.congr (Value.within_single rfl rfl)
  | _ => simp [Schema.write] at hw

theorem long : ReadsBack .long root := by
  intro v _ hw
  cases v with
  | long n =>
    rw [Schema.read, Schema.write]
    exact (Varint.reads n).map.congr (Value.within_single rfl rfl)
  | _ => simp [Schema.write] at hw

theorem float : ReadsBack .float root := by
  intro v _ hw
  cases v with
  | float x =>
    have h := reads_little (f := fun n => Value.float ⟨UInt32.ofNat n⟩) 4 x.bits.toNat_lt
    rw [UInt32.ofNat_toNat] at h
    rw [Schema.read, Schema.write]
    exact h.congr (Value.within_single rfl rfl)
  | _ => simp [Schema.write] at hw

theorem double : ReadsBack .double root := by
  intro v _ hw
  cases v with
  | double x =>
    have h := reads_little (f := fun n => Value.double ⟨UInt64.ofNat n⟩) 8 x.bits.toNat_lt
    rw [UInt64.ofNat_toNat] at h
    rw [Schema.read, Schema.write]
    exact h.congr (Value.within_single rfl rfl)
  | _ => simp [Schema.write] at hw

theorem bytes : ReadsBack .bytes root := by
  intro v hv hw
  cases v with
  | bytes data =>
    have hlen := hv.announced _ (Value.mem_parts_self _) data.length
      (by simp [Value.announced, Value.lengths])
    rw [Schema.read, Schema.write]
    exact (reads_bytes hlen).map.congr (Value.within_single rfl rfl)
  | _ => simp [Schema.write] at hw

theorem string : ReadsBack (.string none) root := by
  intro v hv hw
  cases v with
  | string text =>
    have hlen := hv.announced _ (Value.mem_parts_self _) (Utf8.encode text).length
      (by simp [Value.announced, Value.lengths])
    rw [Schema.read, Schema.write]
    exact (reads_text hlen).map.congr (Value.within_single rfl rfl)
  | _ => simp [Schema.write] at hw

/-- The text on the wire has no mark. It comes back marked as the tag says, and a value with any
other mark has not been written. -/
theorem tagged (tag : Tag) : ReadsBack (.string (some tag)) root := by
  intro v hv hw
  cases ht : tag.toWire v with
  | error e => simp [Schema.write, ht] at hw
  | ok text =>
    obtain ⟨hv', hparts, hcount, hannounced⟩ := Tag.ofWire_of_toWire ht
    have hlen := hv.announced v (Value.mem_parts_self v) (Utf8.encode text).length
      (by simp [hannounced])
    have h := (reads_text hlen).map (f := tag.ofWire)
    rw [hv'] at h
    rw [Schema.read, Schema.write, ht]
    exact h.congr (Value.within_single hparts hcount)

/-- The names have been compared, so the type of the place is the type of the record. -/
theorem record (hroot : root.WellFormed) {type : RecordType} (hself : .record type ∈ root.nodes)
    (hfields : ∀ f ∈ type.fields, f.schema.ReadsBack root) : ReadsBack (.record type) root := by
  intro v hv hw
  obtain ⟨name, fields⟩ := type
  cases v with
  | record r =>
    obtain ⟨own, vs⟩ := r
    rw [Schema.write, RecordType.write] at hw
    by_cases hn : own.name.full = name.full
    · rw [if_pos hn] at hw
      -- One name, one definition: what is read as this type had it before.
      obtain rfl : own = ⟨name, fields⟩ :=
        hroot.record_eq (hv.types _ (Value.mem_parts_self _)) hself hn
      have hread := reads_fields hfields (List.drop_zero (l := vs)) hv.length_fields.symm
        (fun i f hf => by simpa using hroot.positioned _ hself i f hf)
        (fun v hmem => hv.field hmem) hw
      rw [Schema.read, Schema.write, RecordType.read, RecordType.write, if_pos hn]
      exact (hread.map (f := fun vs => Record.mk ⟨name, fields⟩ vs)).map.congr
        Value.within_record.symm
    · simp [hn] at hw
  | _ => simp [Schema.write] at hw

theorem array {items : Schema} (hitems : items.ReadsBack root) : ReadsBack (.array items) root := by
  intro v hv hw
  cases v with
  | array vs =>
    have hlen := hv.announced _ (Value.mem_parts_self _) vs.length
      (by simp [Value.announced, Value.lengths])
    rw [Schema.write] at hw
    rw [Schema.read, Schema.write]
    have hread : ∀ v ∈ vs, (items.write v).failure = none →
        Reads items.read (items.write v).bytes (v.Within maxItems) v := by
      intro v hmem hw'
      exact hitems v (hv.item hmem) hw'
    exact (reads_block vs hread hw hlen).map.congr Value.within_array.symm
  | _ => simp [Schema.write] at hw

/-- An entry is read if its key and its value are. -/
theorem entry {values : Schema} (hvalues : values.ReadsBack root) {e : String × Value}
    (hkey : (Utf8.encode e.1).length < 2 ^ (63 : Nat)) (hv : e.2.Legible root)
    (hw : (writeEntry values.write e).failure = none) :
    Reads (readEntry values.read) (writeEntry values.write e).bytes (e.2.Within maxItems) e := by
  obtain ⟨hwk, hwv⟩ := andThen_failure.mp hw
  rw [writeEntry, andThen_bytes hwk]
  exact (reads_text hkey).followed ((hvalues e.2 hv hwv).map (f := fun v => (e.1, v)))

/-- The reader sorts the entries again, and they are in order already. -/
theorem map {values : Schema} (hvalues : values.ReadsBack root) : ReadsBack (.map values) root := by
  intro v hv hw
  cases v with
  | map es =>
    have hlen := hv.announced _ (Value.mem_parts_self _) es.length
      (by simp [Value.announced, Value.lengths])
    have hkey : ∀ e ∈ es, (Utf8.encode e.1).length < 2 ^ (63 : Nat) := by
      intro e he
      apply hv.announced _ (Value.mem_parts_self _)
      simp only [Value.announced, Value.lengths]
      exact List.mem_cons_of_mem _ (List.mem_map.mpr ⟨e, he, rfl⟩)
    rw [Schema.write] at hw
    rw [Schema.read, Schema.write]
    have hentries : ∀ e ∈ es, (writeEntry values.write e).failure = none →
        Reads (readEntry values.read) (writeEntry values.write e).bytes (e.2.Within maxItems) e := by
      intro e he hw'
      exact hvalues.entry (hkey e he) (hv.entry he) hw'
    have hread := (reads_block es hentries hw hlen).map (f := fun es => Value.map (Table.ofList es))
    have hr := hv.regular
    rw [Value.Regular] at hr
    rw [Table.ofList_ascending hr.1] at hread
    exact hread.congr Value.within_map.symm
  | _ => simp [Schema.write] at hw

theorem union {members : List Schema} (hlen : members.length < 2 ^ (63 : Nat))
    (hmembers : ∀ m ∈ members, m.ReadsBack root) : ReadsBack (.union members) root := by
  intro v hv hw
  rw [Schema.write] at hw
  rw [Schema.read, Schema.write]
  exact reads_member hv hmembers rfl (by omega) hw

theorem enum {type : EnumType} (hlen : type.symbols.length < 2 ^ (63 : Nat)) :
    ReadsBack (.enum type) root := by
  intro v _ hw
  cases v with
  | enum symbol =>
    cases hi : type.symbols.idxOf? symbol with
    | none => simp [Schema.write, hi] at hw
    | some i =>
      simp only [Schema.write, hi]
      exact (Schema.reads_enum hlen hi).congr (Value.within_single rfl rfl)
  | _ => simp [Schema.write] at hw

theorem fixed (type : FixedType) : ReadsBack (.fixed type) root := by
  intro v _ hw
  cases v with
  | fixed data =>
    by_cases hlen : data.length = type.size
    · simp only [Schema.read, Schema.write, ← hlen]
      exact (reads_take data).map.congr (Value.within_single rfl rfl)
    · simp [Schema.write, hlen] at hw
  | _ => simp [Schema.write] at hw

end Schema.ReadsBack

/-- Every schema inside the root reads back. That it is inside goes along in the induction, since a
record asks the root for its definition, and a union or an enum for the length of its list. -/
theorem Schema.readsBack (hroot : root.WellFormed) (ha : root.Addressable) {s : Schema}
    (hs : s ∈ root.nodes) : s.ReadsBack root := by
  induction s using Schema.induction with
  | null => exact .null
  | boolean => exact .boolean
  | int => exact .int
  | long => exact .long
  | float => exact .float
  | double => exact .double
  | bytes => exact .bytes
  | string tag =>
    cases tag with
    | none => exact .string
    | some tag => exact .tagged tag
  | record type ih =>
    exact .record hroot hs fun f hf => ih f hf (nodes_trans (mem_nodes_field hf) hs)
  | array items ih => exact .array (ih (nodes_trans (mem_nodes_items items) hs))
  | map values ih => exact .map (ih (nodes_trans (mem_nodes_values values) hs))
  | union members ih =>
    have hlen := ha _ hs members.length (by simp [lengths])
    exact .union hlen fun m hm => ih m hm (nodes_trans (mem_nodes_member hm) hs)
  | enum type => exact .enum (ha _ hs type.symbols.length (by simp [lengths]))
  | fixed type => exact .fixed type

theorem Schema.reads {s : Schema} (hs : s.WellFormed) (ha : s.Addressable) : s.ReadsBack s :=
  readsBack hs ha s.mem_nodes_self

end

/-! ## Streams -/

namespace Wire

/-- Writes values on a sink, each under a schema of its own. -/
def Sink.writeAll (sink : Sink) : List (Schema × Value) → Except Failure Sink
  | [] => .ok sink
  | (s, v) :: rest =>
    match sink.accept (s.write v) with
    | (sink, none) => sink.writeAll rest
    | (_, some e) => .error e

def readAll : List Schema → Reader (List Value)
  | [] => return []
  | s :: rest => do
    let v ← s.read
    return v :: (← readAll rest)

end Wire

/-- A schema and a value for it. The schema has been read from a document, and the value carries
record types of the schema; the rest holds of all that is in memory. -/
structure Schema.Suits (s : Schema) (v : Value) : Prop where
  parsed : s.Parsed
  addressable : s.Addressable
  belongs : v.Belongs s

theorem Schema.Suits.reads {s : Schema} {v : Value} (h : s.Suits v)
    (hw : (s.write v).failure = none) : Reads s.read (s.write v).bytes (v.Within maxItems) v :=
  Schema.reads h.parsed.wellFormed h.addressable v h.belongs.legible hw

/-- All the bytes of a value, and no others, are those of the value. -/
theorem Schema.decode_of_legible {s : Schema} (hs : s.WellFormed) (ha : s.Addressable) {v : Value}
    (hv : v.Legible s) (hw : v.Within maxItems) {bytes : List UInt8} (he : s.encode v = .ok bytes) :
    s.decode bytes = .ok v := by
  obtain ⟨hf, rfl⟩ := encode_eq_ok_iff.mp he
  have hreads := Schema.reads hs ha v hv hf
  have hread := (hreads.congr (iff_true_intro hw)).eq_ok [] .ended
  rw [List.append_nil] at hread
  rw [Schema.decode, Source.ofBytes, hread]
  rfl

theorem Schema.Suits.decode_eq {s : Schema} {v : Value} (h : s.Suits v) (hw : v.Within maxItems)
    {bytes : List UInt8} (he : s.encode v = .ok bytes) : s.decode bytes = .ok v :=
  decode_of_legible h.parsed.wellFormed h.addressable h.belongs.legible hw he

namespace Wire

theorem Sink.reads_all : ∀ {items : List (Schema × Value)} {sink after : Sink},
    (∀ p ∈ items, p.1.Suits p.2 ∧ p.2.Within maxItems) → sink.writeAll items = .ok after →
      ∃ bytes, after.received = sink.received ++ bytes ∧
        Reads (readAll (items.map (·.1))) bytes True (items.map (·.2))
  | [], sink, after, _, h => by
    cases h
    exact ⟨[], by simp, .pure []⟩
  | (s, v) :: rest, sink, after, hitems, h => by
    obtain ⟨hsuits, hwithin⟩ := hitems (s, v) List.mem_cons_self
    rw [writeAll] at h
    split at h
    next sink' haccept =>
      obtain ⟨hw, hreceived⟩ := accept_eq_none haccept
      have hothers : ∀ p ∈ rest, p.1.Suits p.2 ∧ p.2.Within maxItems := by
        intro p hp
        exact hitems p (List.mem_cons_of_mem _ hp)
      obtain ⟨bytes, hbytes, hrest⟩ := Sink.reads_all hothers h
      have hfirst := (hsuits.reads hw).congr (iff_true_intro hwithin)
      refine ⟨(s.write v).bytes ++ bytes, ?_, ?_⟩
      · rw [hbytes, hreceived, List.append_assoc]
      · rw [List.map_cons, List.map_cons, readAll]
        exact hfirst.followed (hrest.map (f := fun vs => v :: vs))
    next => cases h

/-- **What is written is read back, inside any stream.** In front of any bytes, and whatever
happens after them, a reader takes the bytes of a value and gives the value, if no array or map in
it is above the item limit; if one is, it fails for that and for nothing else. So values within the
limit that have been written on one sink, also on one with an end, are read back one by one from
what has arrived. -/
theorem read_written :
    (∀ (s : Schema) (v : Value) (bytes : List UInt8), s.Suits v → s.encode v = .ok bytes →
      ∀ (rest : List UInt8) (ending : Ending),
        (v.Within maxItems → s.read ⟨bytes ++ rest, ending⟩ = .ok (v, ⟨rest, ending⟩)) ∧
        (¬ v.Within maxItems →
          ∃ count, s.read ⟨bytes ++ rest, ending⟩ = .error (.collectionTooLarge count))) ∧
    ∀ (items : List (Schema × Value)) (sink after : Sink),
      (∀ p ∈ items, p.1.Suits p.2 ∧ p.2.Within maxItems) → sink.writeAll items = .ok after →
        ∃ bytes, after.received = sink.received ++ bytes ∧
          ∀ (rest : List UInt8) (ending : Ending),
            readAll (items.map (·.1)) ⟨bytes ++ rest, ending⟩
              = .ok (items.map (·.2), ⟨rest, ending⟩) := by
  constructor
  · intro s v bytes hs h
    rw [Schema.encode, Emission.toExcept] at h
    split at h
    next hw =>
      cases h
      exact hs.reads hw
    next => cases h
  · intro items sink after hitems h
    obtain ⟨bytes, hbytes, hreads⟩ := Sink.reads_all hitems h
    exact ⟨bytes, hbytes, hreads.eq_ok⟩

/-- A record with a union in it, behind a byte that was there before and in front of one that comes
after. -/
theorem read_written_pair :
    let type : RecordType :=
      ⟨⟨"Pair", none⟩, [⟨"id", 0, .long⟩, ⟨"note", 1, .union [.null, .string (some .inline)]⟩]⟩
    let v : Value := .record ⟨type, [.long 3, .string "x"]⟩
    (Schema.record type).read ⟨[6, 2, 2, 120] ++ [9], .ended⟩ = .ok (v, ⟨[9], .ended⟩) ∧
      ∃ bytes, [7, 6, 2, 2, 120] = [7] ++ bytes ∧
        readAll [.record type] ⟨bytes ++ [9], .ended⟩ = .ok ([v], ⟨[9], .ended⟩) := by
  intro type v
  have hparsed : (Schema.record type).Parsed :=
    ⟨.object [("fields", .array [
        .object [("name", .string "id"), ("type", .string "long")],
        .object [("name", .string "note"), ("type", .array [.string "null", .object [
          ("logicalType", .string "inline-encrypted-string"), ("type", .string "string")]])]]),
      ("name", .string "Pair"), ("type", .string "record")], by rfl⟩
  have hsuits : (Schema.record type).Suits v := by
    refine ⟨hparsed, ?_, ?_, ?_, ?_⟩
    · simp [Schema.Addressable, type, Schema.lengths]
    · simp [v, type, Value.Regular, Value.RegularItems]
    · intro r hr
      have : r = ⟨type, [.long 3, .string "x"]⟩ := by
        simpa [v] using hr
      rw [this]
      exact Schema.mem_nodes_self _
    · simp [Value.Addressable, v, Value.lengths]
      decide
  have hwithin : v.Within maxItems := by
    simp [Value.Within, v]
  have hencode : (Schema.record type).encode v = .ok [6, 2, 2, 120] := by rfl
  have h := read_written
  refine ⟨(h.1 _ v _ hsuits hencode [9] .ended).1 hwithin, ?_⟩
  obtain ⟨bytes, hbytes, hread⟩ := h.2 [(.record type, v)] ⟨[7], some 5⟩ ⟨[7, 6, 2, 2, 120], some 5⟩
    (by simp [hsuits, hwithin]) (by rfl)
  exact ⟨bytes, hbytes, hread [9] .ended⟩

end Wire

end FieldSeal
