import FieldSeal.Proofs.Schema.Nodes
import FieldSeal.Schema.Names

/-!
# A schema that has been read is well formed

The parser carries a table of names through the document, and two facts about that table are what
makes its result well formed:

* **a name that is open is not known**, so the definition that closes it is the only one it ever
  gets;
* **the table is closed**: whatever stands in a known definition is itself what the table has under
  its name. A reference copies a definition out of the table, and with it nothing that the table
  would deny.

`Names.Consistent` is the two together and `Names.Owns` is the second one for a schema that is not
(yet) in the table. `resolve_spec` says that resolving keeps the first and yields the second, by
induction on the outline; that one name has one definition is then two lookups of the same key.
-/

set_option autoImplicit false

namespace FieldSeal

theorem bind_eq_ok {ε α β : Type} {x : Except ε α} {f : α → Except ε β} {b : β} :
    (x >>= f) = .ok b ↔ ∃ a, x = .ok a ∧ f a = .ok b := by
  cases x with
  | error e =>
    constructor
    · intro h; cases h
    · rintro ⟨_, h, _⟩; cases h
  | ok a =>
    constructor
    · exact fun h => ⟨a, rfl, h⟩
    · rintro ⟨_, ha, hf⟩; cases ha; exact hf

theorem map_eq_ok {ε α β : Type} {x : Except ε α} {f : α → β} {b : β} :
    x.map f = .ok b ↔ ∃ a, x = .ok a ∧ f a = b := by
  cases x <;> simp [Except.map]

namespace Names

/-- Every named type in the schema is what the table has under its name, and every field of its
records is in place and has a name of its own. -/
structure Owns (names : Names) (s : Schema) : Prop where
  known : ∀ x ∈ s.nodes, ∀ name, x.fullName? = some name → names.known.lookup name = some x
  records : ∀ type, Schema.record type ∈ s.nodes → type.WellFormed

structure Consistent (names : Names) : Prop where
  opened_unknown : ∀ name ∈ names.opened, names.known.lookup name = none
  owns : ∀ name s, names.known.lookup name = some s → names.Owns s

/-- Later names: the same ones are open, and what was known still is. -/
structure Extends (names names' : Names) : Prop where
  opened : names'.opened = names.opened
  known : ∀ name s, names.known.lookup name = some s → names'.known.lookup name = some s

theorem Extends.refl (names : Names) : names.Extends names := ⟨rfl, fun _ _ h => h⟩

theorem Extends.trans {a b c : Names} (hab : a.Extends b) (hbc : b.Extends c) : a.Extends c :=
  ⟨hbc.opened.trans hab.opened, fun _ _ h => hbc.known _ _ (hab.known _ _ h)⟩

theorem Owns.mono {names names' : Names} {s : Schema} (h : names.Owns s)
    (he : names.Extends names') : names'.Owns s :=
  ⟨fun x hx name hn => he.known _ _ (h.known x hx name hn), h.records⟩

theorem consistent_empty : Names.empty.Consistent :=
  ⟨fun _ h => absurd h (by simp [empty]), fun _ _ h => absurd h (by simp [empty])⟩

/-! ## The operations on names -/

theorem owns_of_primitive? {names : Names} {name : String} {s : Schema}
    (h : primitive? name = some s) : names.Owns s := by
  -- A built-in type is its only node, and it has no name of its own.
  have leaf : s.nodes = [s] ∧ s.fullName? = none := by
    unfold primitive? at h
    repeat' split at h
    all_goals cases h
    all_goals exact ⟨rfl, rfl⟩
  constructor
  · intro x hx n hn
    rw [leaf.1, List.mem_singleton] at hx
    rw [hx, leaf.2] at hn
    exact absurd hn (by simp)
  · intro type ht
    rw [leaf.1, List.mem_singleton] at ht
    rw [← ht] at leaf
    exact absurd leaf.2 (by simp [Schema.fullName?])

theorem known_of_lookup? {names : Names} {name : String} {s : Schema}
    (h : names.lookup? name = some (.ok s)) : names.known.lookup name = some s := by
  unfold lookup? at h
  split at h
  · simp at h
  · simpa using h

/-- A reference is a built-in type or a definition out of the table. -/
theorem owns_of_refer {names : Names} (hc : names.Consistent) {space : Option String}
    {name : String} {s : Schema} (h : names.refer space name = .ok s) : names.Owns s := by
  unfold refer at h
  split at h
  next t ht =>
    cases h
    exact owns_of_primitive? ht
  next =>
    dsimp only at h
    generalize hq : (if name.toList.contains '.' then name else qualify name space) = full at h
    cases h1 : names.lookup? full with
    | some found =>
      simp only [h1, Option.some_or, Option.getD_some] at h
      exact hc.owns _ _ (known_of_lookup? (h ▸ h1))
    | none =>
      cases h2 : names.lookup? name with
      | some found =>
        simp only [h1, h2, Option.none_or, Option.getD_some] at h
        exact hc.owns _ _ (known_of_lookup? (h ▸ h2))
      | none => simp [h1, h2] at h

/-- Opening a name says that it was new. -/
theorem declare_eq_ok {names names' : Names} {name : TypeName}
    (h : names.declare name = .ok names') :
    names.known.lookup name.full = none ∧ name.full ∉ names.opened ∧
      names' = { names with opened := name.full :: names.opened } := by
  unfold declare at h
  split at h
  · cases h
  next hnew =>
    simp only [Bool.or_eq_true, not_or, Bool.not_eq_true, Option.isSome_eq_false_iff,
      Option.isNone_iff_eq_none, List.contains_eq_mem, decide_eq_false_iff_not] at hnew
    cases h
    exact ⟨hnew.1, hnew.2, rfl⟩

theorem Consistent.declare {names names' : Names} {name : TypeName} (hc : names.Consistent)
    (h : names.declare name = .ok names') : names'.Consistent := by
  obtain ⟨hunknown, -, rfl⟩ := declare_eq_ok h
  constructor
  · intro n hn
    rcases List.mem_cons.mp hn with rfl | hn
    · exact hunknown
    · exact hc.opened_unknown n hn
  · intro n s hs
    have ho := hc.owns n s hs
    exact ⟨ho.known, ho.records⟩

@[simp] theorem lookup_define (names : Names) (name : TypeName) (s : Schema) (n : String) :
    (names.define name s).known.lookup n
      = if n = name.full then some s else names.known.lookup n := by
  by_cases h : n = name.full
  · simp [define, h]
  · have hb : (n == name.full) = false := by simpa using h
    simp [define, List.lookup_cons, h, hb]

/-- **Closing a name.** `opened` is what was open before the name was; `inside` are the names when
its content has been resolved. -/
theorem define_spec {names inside : Names} {name : TypeName} {s : Schema}
    (hnew : name.full ∉ names.opened) (hknown : names.known.lookup name.full = none)
    (hc : inside.Consistent)
    (he : Extends { names with opened := name.full :: names.opened } inside)
    (hs : s.fullName? = some name.full)
    (hbelow : ∀ x ∈ s.nodes, x = s ∨ inside.Owns x)
    (hpos : ∀ type, s = .record type → type.WellFormed) :
    (inside.define name s).Consistent ∧ names.Extends (inside.define name s) ∧
      (inside.define name s).Owns s := by
  have hopen : inside.known.lookup name.full = none :=
    hc.opened_unknown _ (by rw [he.opened]; exact List.mem_cons_self)
  -- The new entry is under a key that had none, so no lookup that found something changes.
  have hkeep : ∀ n t, inside.known.lookup n = some t →
      (inside.define name s).known.lookup n = some t := by
    intro n t ht
    have hn : n ≠ name.full := by
      intro e
      rw [e, hopen] at ht
      cases ht
    rw [lookup_define, if_neg hn, ht]
  have howns : (inside.define name s).Owns s := by
    constructor
    · intro x hx n hn
      rcases hbelow x hx with rfl | hx'
      · rw [hs, Option.some.injEq] at hn
        rw [lookup_define, if_pos hn.symm]
      · exact hkeep _ _ (hx'.known x x.mem_nodes_self n hn)
    · intro type ht
      rcases hbelow _ ht with hrec | ht'
      · exact hpos type hrec.symm
      · exact ht'.records type (Schema.mem_nodes_self _)
  have hopened : (inside.define name s).opened = names.opened := by
    have hall : names.opened.filter (· != name.full) = names.opened := by
      apply List.filter_eq_self.mpr
      intro n hn
      have hne : n ≠ name.full := fun e => hnew (e ▸ hn)
      simpa using hne
    simp only [define, he.opened, List.filter_cons, bne_self_eq_false, Bool.false_eq_true, if_false,
      hall]
  refine ⟨⟨?_, ?_⟩, ⟨hopened, ?_⟩, howns⟩
  · intro n hn
    rw [hopened] at hn
    have hne : n ≠ name.full := fun e => hnew (e ▸ hn)
    rw [lookup_define, if_neg hne]
    exact hc.opened_unknown n (by rw [he.opened]; exact List.mem_cons_of_mem _ hn)
  · intro n t ht
    rw [lookup_define] at ht
    split at ht
    · cases ht
      exact howns
    · have ho := hc.owns n t ht
      exact ⟨fun x hx m hm => hkeep _ _ (ho.known x hx m hm), ho.records⟩
  · intro n t ht
    have hne : n ≠ name.full := by
      intro e
      rw [e, hknown] at ht
      cases ht
    rw [lookup_define, if_neg hne]
    exact he.known n t ht

end Names

/-! ## Resolving -/

/-- A node without a name adds nothing to what its parts owe the table. -/
theorem Names.owns_of_below {names : Names} {s : Schema} (hs : s.fullName? = none)
    (hbelow : ∀ x ∈ s.nodes, x = s ∨ names.Owns x) : names.Owns s := by
  constructor
  · intro x hx n hn
    rcases hbelow x hx with rfl | hx'
    · rw [hs] at hn
      cases hn
    · exact hx'.known x x.mem_nodes_self n hn
  · intro type ht
    rcases hbelow _ ht with hrec | ht'
    · rw [← hrec] at hs
      cases hs
    · exact ht'.records type (Schema.mem_nodes_self _)

theorem Names.Owns.of_mem {names : Names} {s x : Schema} (h : names.Owns s) (hx : x ∈ s.nodes) :
    names.Owns x where
  known y hy := h.known y (Schema.nodes_trans hy hx)
  records type ht := h.records type (Schema.nodes_trans ht hx)

namespace Outline

mutual

/-- **Resolving keeps the names consistent and owns what it yields.** -/
theorem resolve_spec : ∀ {o : Outline} {space : Option String} {names names' : Names} {s : Schema},
    o.resolve space names = .ok (s, names') → names.Consistent →
      names'.Consistent ∧ names.Extends names' ∧ names'.Owns s
  | .malformed _, _, _, _, _, h, _ => by cases h
  | .reference _, _, names, _, _, h, hc => by
    obtain ⟨s, hs, h⟩ := bind_eq_ok.mp h
    cases h
    exact ⟨hc, .refl names, Names.owns_of_refer hc hs⟩
  | .union members, _, _, _, _, h, hc => by
    obtain ⟨⟨ss, names₁⟩, h₁, h⟩ := bind_eq_ok.mp h
    cases h
    obtain ⟨hc₁, he₁, hs⟩ := resolveMembers_spec h₁ hc
    refine ⟨hc₁, he₁, Names.owns_of_below rfl fun x hx => ?_⟩
    rw [Schema.nodes, List.mem_cons, mem_memberNodes] at hx
    exact hx.imp_right fun ⟨m, hm, hx⟩ => (hs m hm).of_mem hx
  | .array items, _, _, _, _, h, hc => by
    obtain ⟨⟨t, names₁⟩, h₁, h⟩ := bind_eq_ok.mp h
    cases h
    obtain ⟨hc₁, he₁, ht⟩ := resolve_spec h₁ hc
    refine ⟨hc₁, he₁, Names.owns_of_below rfl fun x hx => ?_⟩
    rw [Schema.nodes, List.mem_cons] at hx
    exact hx.imp_right ht.of_mem
  | .map values, _, _, _, _, h, hc => by
    obtain ⟨⟨t, names₁⟩, h₁, h⟩ := bind_eq_ok.mp h
    cases h
    obtain ⟨hc₁, he₁, ht⟩ := resolve_spec h₁ hc
    refine ⟨hc₁, he₁, Names.owns_of_below rfl fun x hx => ?_⟩
    rw [Schema.nodes, List.mem_cons] at hx
    exact hx.imp_right ht.of_mem
  | .record declaration fields, space, _, _, _, h, hc => by
    obtain ⟨names₁, h₁, h⟩ := bind_eq_ok.mp h
    obtain ⟨⟨fs, names₂⟩, h₂, h⟩ := bind_eq_ok.mp h
    cases h
    obtain ⟨hknown, hnew, hnames₁⟩ := Names.declare_eq_ok h₁
    obtain ⟨hc₂, he₂, hfs, hpos, hnames, -⟩ := resolveFields_spec h₂ (hc.declare h₁)
    refine Names.define_spec hnew hknown hc₂ (hnames₁ ▸ he₂) rfl (fun x hx => ?_) ?_
    · rw [Schema.nodes, List.mem_cons, RecordType.mem_nodes] at hx
      exact hx.imp_right fun ⟨f, hf, hx⟩ => (hfs f hf).of_mem hx
    · rintro type ht
      cases ht
      exact ⟨fun i f hf => by simpa using hpos i f hf, hnames⟩
  | .enum declaration symbols, space, names, _, _, h, hc => by
    obtain ⟨names₁, h₁, h⟩ := bind_eq_ok.mp h
    obtain ⟨texts, -, h⟩ := bind_eq_ok.mp h
    cases h
    obtain ⟨hknown, hnew, hnames₁⟩ := Names.declare_eq_ok h₁
    refine Names.define_spec hnew hknown (hc.declare h₁) (hnames₁ ▸ .refl _) rfl (fun x hx => ?_) ?_
    · exact Or.inl (List.mem_singleton.mp hx)
    · exact fun type ht => nomatch ht
  | .fixed declaration size, space, names, _, _, h, hc => by
    obtain ⟨names₁, h₁, h⟩ := bind_eq_ok.mp h
    obtain ⟨n, -, h⟩ := bind_eq_ok.mp h
    cases h
    obtain ⟨hknown, hnew, hnames₁⟩ := Names.declare_eq_ok h₁
    refine Names.define_spec hnew hknown (hc.declare h₁) (hnames₁ ▸ .refl _) rfl (fun x hx => ?_) ?_
    · exact Or.inl (List.mem_singleton.mp hx)
    · exact fun type ht => nomatch ht
  | .tagged tag base, _, _, _, _, h, hc => by
    obtain ⟨⟨t, names₁⟩, h₁, h⟩ := bind_eq_ok.mp h
    obtain ⟨_, -, h⟩ := bind_eq_ok.mp h
    cases h
    obtain ⟨hc₁, he₁, -⟩ := resolve_spec h₁ hc
    exact ⟨hc₁, he₁, Names.owns_of_below rfl fun x hx => Or.inl (List.mem_singleton.mp hx)⟩

theorem resolveMembers_spec : ∀ {os : List Outline} {space : Option String} {names names' : Names}
    {ss : List Schema}, resolveMembers space os names = .ok (ss, names') → names.Consistent →
      names'.Consistent ∧ names.Extends names' ∧ ∀ s ∈ ss, names'.Owns s
  | [], _, names, _, _, h, hc => by
    cases h
    exact ⟨hc, .refl names, fun _ hs => absurd hs (by simp)⟩
  | o :: rest, _, _, _, _, h, hc => by
    obtain ⟨⟨s, names₁⟩, h₁, h⟩ := bind_eq_ok.mp h
    obtain ⟨⟨ss, names₂⟩, h₂, h⟩ := bind_eq_ok.mp h
    cases h
    obtain ⟨hc₁, he₁, hs⟩ := resolve_spec h₁ hc
    obtain ⟨hc₂, he₂, hss⟩ := resolveMembers_spec h₂ hc₁
    refine ⟨hc₂, he₁.trans he₂, ?_⟩
    intro t ht
    rcases List.mem_cons.mp ht with rfl | ht
    · exact hs.mono he₂
    · exact hss t ht

theorem resolveFields_spec : ∀ {fs : List FieldOutline} {record : TypeName} {position : Nat}
    {seen : List String} {names names' : Names} {fields : List Field},
    resolveFields record position seen fs names = .ok (fields, names') → names.Consistent →
      names'.Consistent ∧ names.Extends names' ∧ (∀ f ∈ fields, names'.Owns f.schema) ∧
        (∀ i f, fields[i]? = some f → f.position = position + i) ∧
          (fields.map (·.name)).Nodup ∧ ∀ f ∈ fields, f.name ∉ seen
  | [], _, _, _, names, _, _, h, hc => by
    cases h
    exact ⟨hc, .refl names, fun _ hf => absurd hf (by simp), fun _ _ hf => by simp at hf, by simp⟩
  | .malformed _ :: _, _, _, _, _, _, _, h, _ => by cases h
  | .field name type :: rest, _, position, seen, _, _, _, h, hc => by
    rw [resolveFields] at h
    split at h
    · cases h
    next hnew =>
      obtain ⟨⟨s, names₁⟩, h₁, h⟩ := bind_eq_ok.mp h
      obtain ⟨⟨fields, names₂⟩, h₂, h⟩ := bind_eq_ok.mp h
      cases h
      obtain ⟨hc₁, he₁, hs⟩ := resolve_spec h₁ hc
      obtain ⟨hc₂, he₂, hfields, hpos, hnames, hseen⟩ := resolveFields_spec h₂ hc₁
      refine ⟨hc₂, he₁.trans he₂, ?_, ?_, ?_, ?_⟩
      · intro f hf
        rcases List.mem_cons.mp hf with rfl | hf
        · exact hs.mono he₂
        · exact hfields f hf
      · intro i f hf
        cases i with
        | zero => cases hf; rfl
        | succ i =>
          have := hpos i f hf
          omega
      · rw [List.map_cons, List.nodup_cons]
        refine ⟨fun hmem => ?_, hnames⟩
        obtain ⟨f, hf, hn⟩ := List.mem_map.mp hmem
        exact hseen f hf (hn ▸ List.mem_cons_self)
      · intro f hf
        rcases List.mem_cons.mp hf with rfl | hf
        · simpa using hnew
        · exact fun hmem => hseen f hf (List.mem_cons_of_mem _ hmem)

end

end Outline

/-- **A schema that has been read from a document is well formed.** -/
theorem Schema.wellFormed_of_ofJson {document : Json} {s : Schema}
    (h : Schema.ofJson document = .ok s) : s.WellFormed := by
  unfold Schema.ofJson at h
  cases hr : (Outline.ofJson document).resolve none .empty with
  | error e => rw [hr] at h; cases h
  | ok result =>
    rw [hr] at h
    cases h
    obtain ⟨-, -, howns⟩ := Outline.resolve_spec hr Names.consistent_empty
    refine ⟨howns.records, ?_⟩
    intro x hx y hy name hxn hyn
    -- Both are what the table has under the name.
    have hx' := howns.known x hx name hxn
    have hy' := howns.known y hy name hyn
    exact Option.some.inj (hx'.symm.trans hy')

/-- The schema has been read from a document. -/
def Schema.Parsed (s : Schema) : Prop := ∃ document, Schema.ofJson document = .ok s

theorem Schema.Parsed.wellFormed {s : Schema} (h : s.Parsed) : s.WellFormed :=
  h.elim fun _ => wellFormed_of_ofJson

/-- A document that is given as a text is one. -/
theorem Schema.parsed_of_ofText {text : String} {s : Schema} (h : Schema.ofText text = .ok s) :
    s.Parsed := by
  unfold Schema.ofText at h
  split at h
  next document _ => exact ⟨document, h⟩
  next => cases h

end FieldSeal
