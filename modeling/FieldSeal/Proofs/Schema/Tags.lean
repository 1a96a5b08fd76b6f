import FieldSeal.Proofs.Schema.Sites

/-!
# Tags are annotations

What a tag in a document does to the schema is a matter of two runs of the parser, one on the document
and one on the document without its logical types. The second one is easy to have from the first
(`Outline.resolve_untagged`). The other way round the run without tags says that all is well but for
the tags, and then the first misplaced one in the order of evaluation decides: where there is none,
the document is accepted, and else this one is the error.

`Decided` says so of a part of the run, and its rule for `bind` puts parts together in their order
(`Decided.bind`). A part that goes through yields a schema that follows the document all the way down
(`Traces`): at the end of each path stands the schema that is denoted at the site there, with the tag
of its chain. A reference has no tags of its own to add, so what the table holds must follow the
document as well, each definition from its own site (`Known`).
-/

set_option autoImplicit false

namespace FieldSeal

def Schema.isString : Schema → Bool
  | .string _ => true
  | _ => false

namespace Site

theorem misplaced_iff {p : Site} :
    p.misplaced = true ↔ ∃ tag, p.json.tag? = some tag ∧ p.isText = false := by
  rw [misplaced]
  cases p.json.tag? <;> simp

/-! ## The first misplaced tag decides -/

section

variable {α β : Type} {sites : List Site}

/-- The result is the error of the first misplaced tag among the sites, or there is none and the
result is good. -/
def Decided (sites : List Site) (result : Except SchemaError α) (good : α → Prop) : Prop :=
  match sites.find? (·.misplaced) with
  | some p => ∃ tag, p.json.tag? = some tag ∧ result = .error (.tagMismatch tag p.typeName)
  | none => ∃ a, result = .ok a ∧ good a

namespace Decided

variable {result : Except SchemaError α} {good good' : α → Prop}

theorem pure {a : α} (h : good a) : Decided [] (.ok a) good := ⟨a, rfl, h⟩

theorem mono (h : Decided sites result good) (himp : ∀ a, good a → good' a) :
    Decided sites result good' := by
  unfold Decided at h ⊢
  split at h
  next => exact h
  next =>
    obtain ⟨a, ha, hgood⟩ := h
    exact ⟨a, ha, himp a hgood⟩

/-- One part after another: an error in the first one is the error of both. -/
theorem bind {later : List Site} {next : α → Except SchemaError β} {good' : β → Prop}
    (h : Decided sites result good)
    (hnext : ∀ a, result = .ok a → good a → Decided later (next a) good') :
    Decided (sites ++ later) (result >>= next) good' := by
  unfold Decided at h
  rw [Decided, List.find?_append]
  split at h
  next p hp =>
    rw [hp]
    obtain ⟨tag, htag, rfl⟩ := h
    exact ⟨tag, htag, rfl⟩
  next hp =>
    rw [hp, Option.none_or]
    obtain ⟨a, rfl, hgood⟩ := h
    exact hnext a rfl hgood

/-- A first part that goes through whatever the tags are. -/
theorem after {a : α} {next : α → Except SchemaError β} {good' : β → Prop} (hr : result = .ok a)
    (h : Decided sites (next a) good') : Decided sites (result >>= next) good' := by
  rw [hr]
  exact h

/-- A last part that is not about tags. -/
theorem map {next : α → Except SchemaError β} {good' : β → Prop} (h : Decided sites result good)
    (hnext : ∀ a, result = .ok a → good a → ∃ b, next a = .ok b ∧ good' b) :
    Decided sites (result >>= next) good' := by
  rw [← List.append_nil sites]
  exact h.bind hnext

theorem good_of_ok (h : Decided sites result good) {a : α} (ha : result = .ok a) : good a := by
  unfold Decided at h
  split at h
  next =>
    obtain ⟨_, -, herror⟩ := h
    cases ha.symm.trans herror
  next =>
    obtain ⟨_, hb, hgood⟩ := h
    cases ha.symm.trans hb
    exact hgood

/-- It is an error exactly if some tag is misplaced. -/
theorem error_iff (h : Decided sites result good) : (∃ e, result = .error e) ↔
    ∃ p ∈ sites, ∃ tag, p.json.tag? = some tag ∧ p.isText = false := by
  simp only [← misplaced_iff]
  unfold Decided at h
  split at h
  next p hp =>
    obtain ⟨_, -, herror⟩ := h
    exact iff_of_true ⟨_, herror⟩ ⟨p, List.mem_of_find?_eq_some hp, List.find?_some hp⟩
  next hnone =>
    obtain ⟨_, hok, -⟩ := h
    refine iff_of_false ?_ ?_
    · rintro ⟨e, he⟩
      cases hok.symm.trans he
    · rintro ⟨p, hp, hmisplaced⟩
      exact List.find?_eq_none.mp hnone p hp hmisplaced

/-- It is the error of the first one. -/
theorem first (h : Decided sites result good) {e : SchemaError} (he : result = .error e) :
    ∃ p tag, sites.find? (·.misplaced) = some p ∧ p.json.tag? = some tag ∧
      e = .tagMismatch tag p.typeName := by
  unfold Decided at h
  split at h
  next p hp =>
    obtain ⟨tag, htag, herror⟩ := h
    cases he.symm.trans herror
    exact ⟨p, tag, hp, htag, rfl⟩
  next =>
    obtain ⟨_, hok, -⟩ := h
    cases he.symm.trans hok

/-- A last site where no tag is misplaced. -/
theorem last {p : Site} (hp : p.misplaced = false) (h : Decided sites result good) :
    Decided (sites ++ [p]) result good := by
  rw [Decided, List.find?_append, List.find?_cons_of_neg (by simpa using hp), List.find?_nil,
    Option.or_none]
  exact h

end Decided

end

/-! ## A schema that follows the document -/

/-- The schema is of the type that the site denotes, and if that is a string, it has its tag. -/
structure Matches (p : Site) (s : Schema) : Prop where
  text : s.isString = p.isText
  tag : s.isString = true → s.tag? = p.json.chainTag?
  typeName : s.typeName = p.typeName

/-- Whatever stands at the end of a path is what is denoted at the site there. -/
def Traces (document : List Site) (p : Site) (s : Schema) : Prop :=
  ∀ path t, s.at? path = some t → ∃ q, p.follow? document path = some q ∧ q.Matches t

/-- The schemas follow the document from the sites on, one each. -/
def TracesAll (document sites : List Site) (ss : List Schema) : Prop :=
  ∀ (i : Nat) (s : Schema), ss[i]? = some s → ∃ q, sites[i]? = some q ∧ q.Traces document s

variable {document : List Site}

theorem TracesAll.nil : TracesAll document [] [] := fun _ _ h => nomatch h

theorem TracesAll.cons {p : Site} {s : Schema} {sites : List Site} {ss : List Schema}
    (h : p.Traces document s) (hrest : TracesAll document sites ss) :
    TracesAll document (p :: sites) (s :: ss) := by
  intro i t ht
  cases i with
  | zero =>
    cases ht
    exact ⟨p, rfl, h⟩
  | succ i => exact hrest i t ht

theorem Matches.isText_iff {p : Site} {s : Schema} (h : p.Matches s) :
    (∃ tag, s = .string tag) ↔ p.isText = true := by
  rw [← h.text]
  cases s <;> simp [Schema.isString]

/-- The schemas right below follow the document from the sites in the definition. -/
def Below (document : List Site) (p : Site) (s : Schema) : Prop :=
  ∀ (i : Nat) (t : Schema), s.children[i]? = some t →
    ∃ d q, p.definition? document = some d ∧ d.parts[i]? = some q ∧ q.Traces document t

theorem Matches.traces {p : Site} {s : Schema} (h : p.Matches s) (hbelow : p.Below document s) :
    p.Traces document s := by
  intro path t ht
  cases path with
  | nil =>
    cases ht
    exact ⟨p, rfl, h⟩
  | cons i path =>
    obtain ⟨c, hc, ht⟩ := Option.bind_eq_some_iff.mp ht
    obtain ⟨d, q, hd, hq, htraces⟩ := hbelow i c hc
    obtain ⟨r, hr, hmatches⟩ := htraces path t ht
    refine ⟨r, ?_, hmatches⟩
    rw [follow?, hd, Option.bind_some, hq]
    exact hr

theorem Traces.matches {p : Site} {s : Schema} (h : p.Traces document s) : p.Matches s := by
  obtain ⟨q, hq, hmatches⟩ := h [] s rfl
  cases hq
  exact hmatches

theorem Traces.below {p : Site} {s : Schema} (h : p.Traces document s) : p.Below document s := by
  intro i t ht
  have hat : ∀ path, s.at? (i :: path) = t.at? path := by
    intro path
    rw [Schema.at?, ht]
    rfl
  obtain ⟨r, hr, -⟩ := h [i] t (hat [])
  obtain ⟨d, hd, hr⟩ := Option.bind_eq_some_iff.mp hr
  obtain ⟨q, hq, -⟩ := Option.bind_eq_some_iff.mp hr
  refine ⟨d, q, hd, hq, fun path u hu => ?_⟩
  obtain ⟨r, hr, hmatches⟩ := h (i :: path) u ((hat path).trans hu)
  rw [follow?, hd, Option.bind_some, hq] at hr
  exact ⟨r, hr, hmatches⟩

theorem Below.congr {p q : Site} {s : Schema} (h : q.Below document s)
    (hd : p.definition? document = q.definition? document) : p.Below document s := by
  intro i t ht
  rw [hd]
  exact h i t ht

theorem TracesAll.below {p d : Site} {s : Schema} (hd : p.definition? document = some d)
    (h : TracesAll document d.parts s.children) : p.Below document s := by
  intro i t ht
  obtain ⟨q, hq, htraces⟩ := h i t ht
  exact ⟨d, q, hd, hq, htraces⟩

/-- Each definition in the table follows the document from the site where it stands. -/
def Known (document : List Site) (names : Names) : Prop :=
  ∀ full s, names.known.lookup full = some s → s.fullName? = some full ∧
    ∃ q : Site, document.find? (·.declared? == some full) = some q ∧ q.Traces document s

theorem known_empty : Known document .empty := fun _ _ h => nomatch h

theorem Known.declare {names names' : Names} {name : TypeName} (h : Known document names)
    (hd : names.declare name = .ok names') : Known document names' := by
  obtain ⟨-, -, rfl⟩ := Names.declare_eq_ok hd
  exact h

theorem Known.define {names : Names} {name : TypeName} {s : Schema} {p : Site}
    (h : Known document names) (hs : s.fullName? = some name.full)
    (hp : document.find? (·.declared? == some name.full) = some p) (ht : p.Traces document s) :
    Known document (names.define name s) := by
  intro full t hlookup
  rw [Names.lookup_define] at hlookup
  split at hlookup
  next hfull =>
    cases hlookup
    exact ⟨hfull ▸ hs, p, hfull ▸ hp, ht⟩
  next => exact h full t hlookup

/-! ## Sites that follow one another -/

/-- What the run at a site owes, if it goes through without the tags. -/
def Settles (document : List Site) (p : Site) : Prop :=
  ∀ (names : Names) (enclosing : List String) (untagged : Schema × Names),
    (Outline.ofJson p.json).untagged.resolve p.space names.untagged = .ok untagged →
      names.Agrees enclosing p.before → Known document names → p.sites ⊆ document →
        Decided p.sites ((Outline.ofJson p.json).resolve p.space names) fun r =>
          p.Traces document r.1 ∧ Known document r.2

theorem settles_members {space : Option String} {enclosing : List String} {inside : List Json}
    {before : List String} {names : Names} {untagged : List Schema × Names}
    (hall : ∀ q ∈ row space before inside, Settles document q)
    (h : Outline.resolveMembers space
      (keepTagsOfMembers (fun _ => false) (Outline.ofJsons inside)) names.untagged = .ok untagged)
    (ha : names.Agrees enclosing before) (hk : Known document names)
    (hsub : ∀ q ∈ row space before inside, q.sites ⊆ document) :
    Decided ((row space before inside).flatMap sites)
      (Outline.resolveMembers space (Outline.ofJsons inside) names) fun r =>
        TracesAll document (row space before inside) r.1 ∧ Known document r.2 := by
  induction inside generalizing before names untagged with
  | nil => exact .pure ⟨.nil, hk⟩
  | cons j rest ih =>
    obtain ⟨⟨t, names₁⟩, h₁, h⟩ := bind_eq_ok.mp h
    obtain ⟨⟨ts, names₂⟩, h₂, -⟩ := bind_eq_ok.mp h
    obtain ⟨hfirst, hrest⟩ := List.forall_mem_cons.mp hall
    obtain ⟨hfirstsub, hrestsub⟩ := List.forall_mem_cons.mp hsub
    refine (hfirst names enclosing _ h₁ ha hk hfirstsub).bind ?_
    rintro ⟨s, names'⟩ hs ⟨htraces, hk'⟩
    -- The run without tags has gone on with what this run goes on with.
    cases h₁.symm.trans (Outline.resolve_untagged hs)
    refine (ih hrest h₂ (Outline.resolve_scoped hs ha).agrees hk' hrestsub).map ?_
    rintro ⟨ss, names''⟩ - ⟨htracesAll, hk''⟩
    exact ⟨_, rfl, .cons htraces htracesAll, hk''⟩

theorem settles_fields {record : TypeName} {enclosing : List String} {fields : List (String × Json)}
    {position : Nat} {seen before : List String} {names : Names} {untagged : List Field × Names}
    (hall : ∀ q ∈ row record.space before (fields.map (·.2)), Settles document q)
    (h : Outline.resolveFields record position seen (keepTagsOfFields (fun _ => false)
      (fields.map fun f => .field f.1 (Outline.ofJson f.2))) names.untagged = .ok untagged)
    (ha : names.Agrees enclosing before) (hk : Known document names)
    (hsub : ∀ q ∈ row record.space before (fields.map (·.2)), q.sites ⊆ document) :
    Decided ((row record.space before (fields.map (·.2))).flatMap sites)
      (Outline.resolveFields record position seen
        (fields.map fun f => .field f.1 (Outline.ofJson f.2)) names) fun r =>
          TracesAll document (row record.space before (fields.map (·.2))) (r.1.map (·.schema)) ∧
            Known document r.2 := by
  induction fields generalizing position seen before names untagged with
  | nil => exact .pure ⟨.nil, hk⟩
  | cons f rest ih =>
    rw [List.map_cons, keepTagsOfFields, FieldOutline.keepTags, Outline.resolveFields] at h
    rw [List.map_cons, List.map_cons, Outline.resolveFields]
    split at h
    next => cases h
    next hnew =>
      obtain ⟨⟨t, names₁⟩, h₁, h⟩ := bind_eq_ok.mp h
      obtain ⟨⟨ts, names₂⟩, h₂, -⟩ := bind_eq_ok.mp h
      obtain ⟨hfirst, hrest⟩ := List.forall_mem_cons.mp hall
      obtain ⟨hfirstsub, hrestsub⟩ := List.forall_mem_cons.mp hsub
      rw [if_neg hnew]
      refine (hfirst names enclosing _ h₁ ha hk hfirstsub).bind ?_
      rintro ⟨s, names'⟩ hs ⟨htraces, hk'⟩
      cases h₁.symm.trans (Outline.resolve_untagged hs)
      refine (ih hrest h₂ (Outline.resolve_scoped hs ha).agrees hk' hrestsub).map ?_
      rintro ⟨fs, names''⟩ - ⟨htracesAll, hk''⟩
      exact ⟨_, rfl, .cons htraces htracesAll, hk''⟩

/-! ## A kind of schema at its site -/

/-- The tag of the chain below the object at the top. -/
def innerTag? : Head → Option Tag
  | .nested inner => inner.chainTag?
  | _ => none

theorem chainTag?_eq {j : Json} {head : Head} (h : j.head? = some head) :
    j.chainTag? = j.tag?.or (innerTag? head) := by
  cases head with
  | nested inner => exact Json.chainTag?_nested h
  | _ => exact (Json.chainTag?_of_head h (by simp)).trans Option.or_none.symm

/-- The schema is what the site denotes, when the tag of the object at the top is left out. -/
structure Denotes (document : List Site) (p : Site) (head : Head) (s : Schema) : Prop where
  text : s.isString = p.isText
  tag : s.isString = true → s.tag? = innerTag? head
  typeName : s.typeName = p.typeName
  below : p.Below document s

/-- No other site has the name. -/
theorem find?_declared {full : String} {p : Site} (hunique : (document.filterMap declared?).Nodup)
    (hp : p ∈ document) (h : p.declared? = some full) :
    document.find? (·.declared? == some full) = some p := by
  induction document with
  | nil => cases hp
  | cons q rest ih =>
    by_cases hq : q.declared? = some full
    · rw [List.filterMap_cons, hq] at hunique
      obtain ⟨hnew, -⟩ := List.nodup_cons.mp hunique
      rcases List.mem_cons.mp hp with rfl | hp
      · exact List.find?_cons_of_pos (by simp [h])
      · exact absurd (List.mem_filterMap.mpr ⟨p, hp, h⟩) hnew
    · have hp : p ∈ rest := by
        rcases List.mem_cons.mp hp with rfl | hp
        · exact absurd h hq
        · exact hp
      have hrest : (rest.filterMap declared?).Nodup := by
        rw [List.filterMap_cons] at hunique
        split at hunique
        · exact hunique
        · exact (List.nodup_cons.mp hunique).2
      rw [List.find?_cons_of_neg (by simpa using hq), ih hrest hp]

/-- A definition is its own. -/
theorem definition?_of_declared {p : Site} {full : String} (h : p.declared? = some full) :
    p.definition? document = some p := by
  obtain ⟨head, hhead, h⟩ := Option.bind_eq_some_iff.mp h
  cases head with
  | record | enum | fixed => exact definition?_of_head document hhead (by simp) (by simp)
  | _ => cases h

/-- A schema that is no string, no reference and not nested denotes itself. -/
theorem denotes_of_parts {p : Site} {head : Head} {s : Schema} (hhead : p.json.head? = some head)
    (hnested : ∀ inner, head ≠ .nested inner) (hreference : ∀ name, head ≠ .reference name)
    (hstring : s.isString = false) (hname : s.typeName = p.nameOfHead head)
    (hall : TracesAll document p.parts s.children) : Denotes document p head s where
  text := by rw [hstring, isText_of_head hhead hnested hreference]
  tag h := by
    rw [hstring] at h
    cases h
  typeName := by rw [hname, typeName_of_head hhead hnested]
  below := hall.below (definition?_of_head document hhead hnested hreference)

theorem isString_eq_false {s : Schema} {full : String} (h : s.fullName? = some full) :
    s.isString = false := by
  cases s with
  | string => cases h
  | _ => rfl

theorem typeName_eq {s : Schema} {full : String} (h : s.fullName? = some full) :
    s.typeName = full := by
  cases s with
  | record | enum | fixed => exact Option.some.inj h
  | _ => cases h

/-- What is defined at a site is what the table has from then on. -/
theorem Denotes.known (hunique : (document.filterMap declared?).Nodup) {p : Site} {head : Head}
    {name : TypeName} {s : Schema} {names : Names} (h : Denotes document p head s)
    (hp : p ∈ document) (hd : p.declared? = some name.full) (hs : s.fullName? = some name.full)
    (hk : Known document names) : Known document (names.define name s) := by
  have hmatches : p.Matches s := by
    refine ⟨h.text, fun hstring => ?_, h.typeName⟩
    rw [isString_eq_false hs] at hstring
    cases hstring
  exact hk.define hs (find?_declared hunique hp hd) (hmatches.traces h.below)

/-- A built-in type has its name, no tag and nothing below it. -/
theorem primitive?_spec {name : String} {s : Schema} (h : Names.primitive? name = some s) :
    s.isString = (name == "string") ∧ s.tag? = none ∧ s.typeName = name ∧ s.children = [] := by
  unfold Names.primitive? at h
  repeat' split at h
  all_goals cases h
  all_goals
    subst name
    exact ⟨by decide, rfl, rfl, rfl⟩

/-- A reference denotes a built-in type, or what its definition does. -/
theorem denotes_reference {p : Site} {name : String} {names : Names} {enclosing : List String}
    {s : Schema} (hhead : p.json.head? = some (.reference name))
    (ha : names.Agrees enclosing p.before) (hk : Known document names)
    (hs : names.refer p.space name = .ok s) : Denotes document p (.reference name) s := by
  have htext : p.isText = (name == "string") := by
    rw [isText, Json.core_of_head hhead (by simp), hhead]
  have htype : p.typeName = (p.target? name).getD name := typeName_of_head hhead (by simp)
  have hdefinition : p.definition? document
      = (p.target? name).bind fun full => document.find? (·.declared? == some full) := by
    rw [definition?, Json.core_of_head hhead (by simp), hhead]
  cases hprimitive : Names.primitive? name with
  | some t =>
    rw [Names.refer, hprimitive] at hs
    cases hs
    obtain ⟨hstring, htag, hname, hchildren⟩ := primitive?_spec hprimitive
    have htarget : p.target? name = none := by
      rw [target?, hprimitive]
      rfl
    refine ⟨hstring.trans htext.symm, fun _ => htag, ?_, fun i c hc => ?_⟩
    · rw [hname, htype, htarget]
      rfl
    · rw [hchildren] at hc
      cases hc
  | none =>
    obtain ⟨full, hreference, hlookup⟩ := Names.exists_target_of_refer ha hprimitive hs
    have htarget : p.target? name = some full := by
      rw [target?, hprimitive]
      exact hreference
    obtain ⟨hfull, q, hq, htraces⟩ := hk full s (Names.known_of_lookup? hlookup)
    have hnot : (name == "string") = false := by
      rw [beq_eq_false_iff_ne]
      rintro rfl
      cases hprimitive
    have hdeclared : q.declared? = some full := by simpa using List.find?_some hq
    have hstring := isString_eq_false hfull
    refine ⟨?_, ?_, ?_, htraces.below.congr ?_⟩
    · rw [hstring, htext, hnot]
    · intro h
      rw [hstring] at h
      cases h
    · rw [typeName_eq hfull, htype, htarget]
      rfl
    · rw [hdefinition, htarget, Option.bind_some, hq, definition?_of_declared hdeclared]

/-- A nested object denotes what the one inside it does. -/
theorem denotes_nested {p : Site} {inner : Json} {s : Schema}
    (hhead : p.json.head? = some (.nested inner))
    (h : Traces document ⟨p.space, p.before, inner⟩ s) : Denotes document p (.nested inner) s := by
  have hcore := Json.core_nested hhead
  refine ⟨h.matches.text.trans ?_, h.matches.tag, h.matches.typeName.trans ?_, h.below.congr ?_⟩
  · rw [isText, isText, hcore]
  · rw [typeName, typeName, hcore]
    rfl
  · rw [definition?, definition?, core, core, hcore]
    rfl

/-- A kind with a single schema inside. -/
theorem settles_single {p : Site} {inner : Json} {names : Names} {enclosing : List String}
    {untagged : Schema × Names} (hparts : p.parts = [⟨p.space, p.before, inner⟩])
    (hall : ∀ q ∈ p.parts, Settles document q)
    (h : (Outline.ofJson inner).untagged.resolve p.space names.untagged = .ok untagged)
    (ha : names.Agrees enclosing p.before) (hk : Known document names)
    (hsub : ∀ q ∈ p.parts, q.sites ⊆ document) :
    Decided (p.parts.flatMap sites) ((Outline.ofJson inner).resolve p.space names) fun r =>
      Traces document ⟨p.space, p.before, inner⟩ r.1 ∧ Known document r.2 := by
  rw [hparts] at hall hsub ⊢
  rw [List.flatMap_cons, List.flatMap_nil, List.append_nil]
  exact hall _ List.mem_cons_self names enclosing _ h ha hk (hsub _ List.mem_cons_self)

/-- A schema of the kind, apart from the tag on it, is decided by the sites inside it. -/
def SettlesHead (document : List Site) (p : Site) (head : Head) : Prop :=
  ∀ (names : Names) (enclosing : List String) (untagged : Schema × Names),
    head.outline.untagged.resolve p.space names.untagged = .ok untagged →
      names.Agrees enclosing p.before → Known document names →
        Decided (p.parts.flatMap sites) (head.outline.resolve p.space names) fun r =>
          Denotes document p head r.1 ∧ Known document r.2

theorem settles_reference {p : Site} {name : String}
    (hhead : p.json.head? = some (.reference name)) : SettlesHead document p (.reference name) := by
  intro names enclosing untagged h ha hk
  have hparts : p.parts = [] := parts_of_head hhead (by simp)
  obtain ⟨t, ht, -⟩ := bind_eq_ok.mp h
  rw [Names.refer_untagged] at ht
  obtain ⟨s, hs, -⟩ := map_eq_ok.mp ht
  rw [hparts]
  exact ⟨(s, names), bind_eq_ok.mpr ⟨s, hs, rfl⟩, denotes_reference hhead ha hk hs, hk⟩

section

variable {p : Site} (hall : ∀ q ∈ p.parts, Settles document q)
  (hsub : ∀ q ∈ p.parts, q.sites ⊆ document)

include hall hsub

theorem settles_nested {inner : Json} (hhead : p.json.head? = some (.nested inner)) :
    SettlesHead document p (.nested inner) := by
  intro names enclosing untagged h ha hk
  have hparts : p.parts = [⟨p.space, p.before, inner⟩] := parts_of_head hhead (by simp)
  refine (settles_single hparts hall h ha hk hsub).mono ?_
  rintro ⟨s, names'⟩ ⟨htraces, hk'⟩
  exact ⟨denotes_nested hhead htraces, hk'⟩

theorem settles_union {members : List Json} (hhead : p.json.head? = some (.union members)) :
    SettlesHead document p (.union members) := by
  intro names enclosing untagged h ha hk
  have hparts : p.parts = row p.space p.before members := parts_of_head hhead (by simp)
  obtain ⟨untagged, h, -⟩ := bind_eq_ok.mp h
  rw [hparts] at hall hsub ⊢
  refine (settles_members hall h ha hk hsub).map ?_
  rintro ⟨ss, names'⟩ - ⟨htraces, hk'⟩
  rw [← hparts] at htraces
  exact ⟨_, rfl, denotes_of_parts hhead (by simp) (by simp) rfl rfl htraces, hk'⟩

theorem settles_array {items : Json} (hhead : p.json.head? = some (.array items)) :
    SettlesHead document p (.array items) := by
  intro names enclosing untagged h ha hk
  have hparts : p.parts = [⟨p.space, p.before, items⟩] := parts_of_head hhead (by simp)
  obtain ⟨untagged, h, -⟩ := bind_eq_ok.mp h
  refine (settles_single hparts hall h ha hk hsub).map ?_
  rintro ⟨s, names'⟩ - ⟨htraces, hk'⟩
  refine ⟨_, rfl, denotes_of_parts hhead (by simp) (by simp) rfl rfl ?_, hk'⟩
  rw [hparts]
  exact .cons htraces .nil

theorem settles_map {values : Json} (hhead : p.json.head? = some (.map values)) :
    SettlesHead document p (.map values) := by
  intro names enclosing untagged h ha hk
  have hparts : p.parts = [⟨p.space, p.before, values⟩] := parts_of_head hhead (by simp)
  obtain ⟨untagged, h, -⟩ := bind_eq_ok.mp h
  refine (settles_single hparts hall h ha hk hsub).map ?_
  rintro ⟨s, names'⟩ - ⟨htraces, hk'⟩
  refine ⟨_, rfl, denotes_of_parts hhead (by simp) (by simp) rfl rfl ?_, hk'⟩
  rw [hparts]
  exact .cons htraces .nil

end

/-! A definition is in the table from its site on, and no other site of the document defines the same
name. -/

section

variable (hunique : (document.filterMap declared?).Nodup) {p : Site} (hp : p ∈ document)
  {declaration : Declaration}

include hunique hp

theorem settles_record {fields : List (String × Json)}
    (hall : ∀ q ∈ p.parts, Settles document q) (hsub : ∀ q ∈ p.parts, q.sites ⊆ document)
    (hhead : p.json.head? = some (.record declaration fields)) :
    SettlesHead document p (.record declaration fields) := by
  intro names enclosing untagged h ha hk
  have hparts : p.parts = row (Names.nameOf declaration p.space).space
      ((Names.nameOf declaration p.space).full :: p.before) (fields.map (·.2)) := by
    rw [parts, hhead]
  have hdeclared := declared?_of_head hhead rfl
  obtain ⟨_, hd, h⟩ := bind_eq_ok.mp h
  obtain ⟨untagged, h, -⟩ := bind_eq_ok.mp h
  rw [Names.declare_untagged] at hd
  obtain ⟨names₁, hnew, rfl⟩ := map_eq_ok.mp hd
  obtain ⟨-, ha₁⟩ := ha.declare hnew
  rw [hparts] at hall hsub ⊢
  refine .after hnew ((settles_fields hall h ha₁ (hk.declare hnew) hsub).map ?_)
  rintro ⟨fs, names₂⟩ - ⟨htraces, hk'⟩
  rw [← hparts] at htraces
  have hdenotes : Denotes document p (.record declaration fields)
      (.record ⟨Names.nameOf declaration p.space, fs⟩) :=
    denotes_of_parts hhead (by simp) (by simp) rfl rfl htraces
  exact ⟨_, rfl, hdenotes, hdenotes.known hunique hp hdeclared rfl hk'⟩

theorem settles_enum {symbols : Member (List String)}
    (hhead : p.json.head? = some (.enum declaration symbols)) :
    SettlesHead document p (.enum declaration symbols) := by
  intro names enclosing untagged h ha hk
  have hparts : p.parts = [] := parts_of_head hhead (by simp)
  have hdeclared := declared?_of_head hhead rfl
  obtain ⟨_, hd, h⟩ := bind_eq_ok.mp h
  obtain ⟨texts, htexts, -⟩ := bind_eq_ok.mp h
  rw [Names.declare_untagged] at hd
  obtain ⟨names₁, hd, -⟩ := map_eq_ok.mp hd
  have hdenotes : Denotes document p (.enum declaration symbols)
      (.enum ⟨Names.nameOf declaration p.space, texts⟩) :=
    denotes_of_parts hhead (by simp) (by simp) rfl rfl (hparts ▸ .nil)
  rw [hparts]
  refine ⟨_, bind_eq_ok.mpr ⟨names₁, hd, bind_eq_ok.mpr ⟨texts, htexts, rfl⟩⟩, hdenotes, ?_⟩
  exact hdenotes.known hunique hp hdeclared rfl (hk.declare hd)

theorem settles_fixed {size : Member Nat}
    (hhead : p.json.head? = some (.fixed declaration size)) :
    SettlesHead document p (.fixed declaration size) := by
  intro names enclosing untagged h ha hk
  have hparts : p.parts = [] := parts_of_head hhead (by simp)
  have hdeclared := declared?_of_head hhead rfl
  obtain ⟨_, hd, h⟩ := bind_eq_ok.mp h
  obtain ⟨n, hn, -⟩ := bind_eq_ok.mp h
  rw [Names.declare_untagged] at hd
  obtain ⟨names₁, hd, -⟩ := map_eq_ok.mp hd
  have hdenotes : Denotes document p (.fixed declaration size)
      (.fixed ⟨Names.nameOf declaration p.space, n⟩) :=
    denotes_of_parts hhead (by simp) (by simp) rfl rfl (hparts ▸ .nil)
  rw [hparts]
  refine ⟨_, bind_eq_ok.mpr ⟨names₁, hd, bind_eq_ok.mpr ⟨n, hn, rfl⟩⟩, hdenotes, ?_⟩
  exact hdenotes.known hunique hp hdeclared rfl (hk.declare hd)

end

/-- **Each kind of schema is decided by the sites inside it.** -/
theorem settles_head (hunique : (document.filterMap declared?).Nodup) {p : Site} {head : Head}
    (hhead : p.json.head? = some head) (hall : ∀ q ∈ p.parts, Settles document q)
    (hsub : p.sites ⊆ document) : SettlesHead document p head := by
  have hp : p ∈ document := hsub p.mem_sites_self
  have hpartsub : ∀ q ∈ p.parts, q.sites ⊆ document := fun q hq r hr =>
    hsub (sites_subset hq hr)
  cases head with
  | reference name => exact settles_reference hhead
  | nested inner => exact settles_nested hall hpartsub hhead
  | union members => exact settles_union hall hpartsub hhead
  | array items => exact settles_array hall hpartsub hhead
  | map values => exact settles_map hall hpartsub hhead
  | record declaration fields => exact settles_record hunique hp hall hpartsub hhead
  | enum declaration symbols => exact settles_enum hunique hp hhead
  | fixed declaration size => exact settles_fixed hunique hp hhead

/-- A tag is put on a string, and on anything else it is misplaced. -/
theorem decided_tag {p : Site} {head : Head} {tag : Tag} {s : Schema} {names : Names}
    (hhead : p.json.head? = some head) (htag : p.json.tag? = some tag)
    (h : Denotes document p head s) (hk : Known document names) :
    Decided [p] (tag.check s >>= fun _ => .ok (Schema.string (some tag), names)) fun r =>
      p.Traces document r.1 ∧ Known document r.2 := by
  cases hs : s.isString with
  | true =>
    have hplaced : p.misplaced = false := by
      rw [misplaced, ← h.text, hs, Bool.not_true, Bool.and_false]
    cases s with
    | string inner =>
      have hmatches : p.Matches (.string (some tag)) := by
        refine ⟨h.text, fun _ => ?_, h.typeName⟩
        rw [chainTag?_eq hhead, htag, Option.some_or]
        rfl
      have hbelow : p.Below document (.string (some tag)) := fun _ _ hc => nomatch hc
      exact Decided.last hplaced (.pure ⟨hmatches.traces hbelow, hk⟩)
    | _ => cases hs
  | false =>
    have hmisplaced : p.misplaced = true := by
      rw [misplaced, htag, ← h.text, hs]
      rfl
    have hcheck : tag.check s = .error (.tagMismatch tag p.typeName) := by
      rw [← h.typeName]
      cases s with
      | string => cases hs
      | _ => rfl
    rw [Decided, List.find?_cons_of_pos hmisplaced]
    refine ⟨tag, htag, ?_⟩
    rw [hcheck]
    rfl

/-- **The first misplaced tag decides, and a schema follows the document.** -/
theorem settles (hunique : (document.filterMap declared?).Nodup) (p : Site) :
    Settles document p := by
  induction p using Site.induction with
  | step p ih =>
    intro names enclosing untagged h ha hk hsub
    obtain ⟨head, hhead⟩ := Outline.exists_head h
    rw [Outline.ofJson_of_head hhead, Outline.untagged_withTag] at h
    have hinside := settles_head hunique hhead ih hsub names enclosing _ h ha hk
    rw [Outline.ofJson_of_head hhead, sites_eq]
    cases htag : p.json.tag? with
    | none =>
      have hplaced : p.misplaced = false := by
        rw [misplaced, htag]
        rfl
      refine (hinside.mono ?_).last hplaced
      rintro ⟨s, names'⟩ ⟨hdenotes, hk'⟩
      have hmatches : p.Matches s := by
        refine ⟨hdenotes.text, fun hs => ?_, hdenotes.typeName⟩
        rw [hdenotes.tag hs, chainTag?_eq hhead, htag, Option.none_or]
      exact ⟨hmatches.traces hdenotes.below, hk'⟩
    | some tag =>
      refine hinside.bind ?_
      rintro ⟨s, names'⟩ - ⟨hdenotes, hk'⟩
      exact decided_tag hhead htag hdenotes hk'

/-! ## Documents -/

variable {document : Json} {bare : Schema × Names}

/-- Where the document without tags is accepted, a name is defined at one site. -/
theorem nodup_declared (h : (Outline.ofJson document).untagged.resolve none .empty = .ok bare) :
    ((root document).sites.filterMap declared?).Nodup := by
  have hscoped := Outline.resolve_scoped h Names.agrees_empty
  have hresolves : (root document).Resolves := ⟨.empty, bare, h⟩
  rw [hresolves.declared_perm.nodup_iff, ← Outline.definitions_keepTags fun _ => false]
  exact hscoped.nodup

theorem decided_root (h : (Outline.ofJson document).untagged.resolve none .empty = .ok bare) :
    Decided (root document).sites ((Outline.ofJson document).resolve none .empty) fun r =>
      (root document).Traces (root document).sites r.1 := by
  have hsettles := settles (nodup_declared h) (root document)
  refine (hsettles .empty [] bare h Names.agrees_empty known_empty (List.Subset.refl _)).mono ?_
  exact fun r hr => hr.1

end Site

theorem Schema.ofJson_eq_ok {document : Json} {s : Schema} :
    Schema.ofJson document = .ok s ↔
      ∃ names, (Outline.ofJson document).resolve none .empty = .ok (s, names) := by
  rw [Schema.ofJson, map_eq_ok]
  constructor
  · rintro ⟨⟨_, names⟩, h, rfl⟩
    exact ⟨names, h⟩
  · rintro ⟨names, h⟩
    exact ⟨_, h, rfl⟩

theorem Schema.ofJson_eq_error {document : Json} {e : SchemaError} :
    Schema.ofJson document = .error e ↔
      (Outline.ofJson document).resolve none .empty = .error e := by
  rw [Schema.ofJson]
  cases (Outline.ofJson document).resolve none .empty with
  | ok result => exact iff_of_false (by simp [Except.map]) (by simp)
  | error e' => simp [Except.map]

/-- **Tags are annotations, and none is lost.** A document that is accepted is accepted without its
logical types, with the same schema but for the tags; and each schema in it is the one that is denoted
at its site, so that a string has the tag that the outermost object of its chain carries, where one
does, and no other. A document that is accepted without its logical types is refused exactly if a tag
stands on something that is no string, with the first such tag in the order of evaluation and the name
of the type that it stands on. Logical types that are no tags change nothing. -/
theorem Schema.tags_annotate (document : Json) :
    (∀ s, Schema.ofJson document = .ok s →
      Schema.ofJson (document.erase fun _ => true) = .ok s.untagged ∧
      ((Site.root document).sites.filterMap Site.declared?).Nodup ∧
      ∀ path t, s.at? path = some t → ∃ p,
        (Site.root document).follow? (Site.root document).sites path = some p ∧
        t.typeName = p.typeName ∧ ((∃ tag, t = .string tag) ↔ p.isText = true) ∧
        ∀ tag, t = .string tag → tag = p.json.chainTag?) ∧
    (∀ t, Schema.ofJson (document.erase fun _ => true) = .ok t →
      ((∃ e, Schema.ofJson document = .error e) ↔
        ∃ p ∈ (Site.root document).sites, ∃ tag, p.json.tag? = some tag ∧ p.isText = false) ∧
      ∀ e, Schema.ofJson document = .error e → ∃ p tag,
        (Site.root document).sites.find? (·.misplaced) = some p ∧ p.json.tag? = some tag ∧
        e = .tagMismatch tag p.typeName) ∧
    ∀ drop : Json → Bool, (∀ tag : Tag, drop (.string tag.name) = false) →
      Schema.ofJson (document.erase drop) = Schema.ofJson document := by
  refine ⟨fun s hs => ?_, fun t ht => ?_, fun drop hdrop => ofJson_erase_of_keeps hdrop document⟩
  · obtain ⟨names, hrun⟩ := ofJson_eq_ok.mp hs
    have hbare := Outline.resolve_untagged hrun
    refine ⟨?_, Site.nodup_declared hbare, fun path t hat => ?_⟩
    · rw [ofJson_eq_ok, Outline.ofJson_erase_all]
      exact ⟨_, hbare⟩
    · obtain ⟨p, hp, hmatches⟩ := (Site.decided_root hbare).good_of_ok hrun path t hat
      refine ⟨p, hp, hmatches.typeName, hmatches.isText_iff, ?_⟩
      rintro tag rfl
      exact hmatches.tag rfl
  · rw [ofJson_eq_ok, Outline.ofJson_erase_all] at ht
    obtain ⟨names, hbare⟩ := ht
    have hdecided := Site.decided_root hbare
    simp only [ofJson_eq_error]
    exact ⟨hdecided.error_iff, fun e => hdecided.first⟩

/-- A tag below an object with another logical type, and a tag on a number. -/
theorem Schema.tags_annotate_email :
    let document : Json := .object [("fields", .array [
        .object [("name", .string "email"), ("type", .object [("logicalType", .string "date"),
          ("type", .object [("logicalType", .string "encrypted-string"),
            ("type", .string "string")])])]]),
      ("name", .string "User"), ("type", .string "record")]
    let refused : Json := .object [("logicalType", .string "encrypted-string"),
      ("type", .string "int")]
    let user (tag : Option Tag) : Schema := .record ⟨⟨"User", none⟩, [⟨"email", 0, .string tag⟩]⟩
    Schema.ofJson document = .ok (user (some .typed)) ∧
      Schema.ofJson (document.erase fun _ => true) = .ok (user none) ∧
      (∃ p, (Site.root document).follow? (Site.root document).sites [0] = some p ∧
        p.isText = true ∧ p.json.chainTag? = some .typed) ∧
      Schema.ofJson (document.erase (·.asText? == some "date")) = .ok (user (some .typed)) ∧
      Schema.ofJson (refused.erase fun _ => true) = .ok .int ∧
      Schema.ofJson refused = .error (.tagMismatch .typed "int") ∧
      (∃ p ∈ (Site.root refused).sites, ∃ tag, p.json.tag? = some tag ∧ p.isText = false) := by
  intro document refused user
  have haccepted : Schema.ofJson document = .ok (user (some .typed)) := by rfl
  have hbare : Schema.ofJson (refused.erase fun _ => true) = .ok .int := by rfl
  have hrefused : Schema.ofJson refused = .error (.tagMismatch .typed "int") := by rfl
  obtain ⟨htraced, -, hothers⟩ := Schema.tags_annotate document
  obtain ⟨herased, -, htags⟩ := htraced _ haccepted
  obtain ⟨p, hp, -, htext, htag⟩ := htags [0] (.string (some .typed)) rfl
  obtain ⟨-, hfails, -⟩ := Schema.tags_annotate refused
  refine ⟨haccepted, herased, ⟨p, hp, htext.mp ⟨_, rfl⟩, (htag _ rfl).symm⟩, ?_, hbare, hrefused, ?_⟩
  · rw [hothers _ fun tag => by cases tag <;> decide]
    exact haccepted
  · exact (hfails .int hbare).1.mp ⟨_, hrefused⟩

end FieldSeal
