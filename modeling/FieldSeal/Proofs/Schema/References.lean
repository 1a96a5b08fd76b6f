import FieldSeal.Proofs.Schema.Resolution

/-!
# Which definition a reference denotes

What a document defines and what it refers to can be read off its outline with no table of names:
`Outline.definitions` lists the full names of its definitions, and `Outline.references` its
references, each with the definitions around it and those that start before it in the document.
Where a reference leads is then a matter of lists as well (`Reference.target?`).

The parser carries a table instead, and `Names.Agrees` is what ties the two together: the open names
are those of the definitions around a place, and the names that are open or known are those of all
definitions that start before it. Resolving keeps this (`Outline.resolve_scoped`), so a name that
the table takes is new to the document and one that it finds is complete.

That no type is inside itself is a consequence of one name having one definition: a type inside itself
would be as large as a part of it.
-/

set_option autoImplicit false

namespace FieldSeal

/-! ## Definitions and references of a document -/

/-- A reference, the namespace at its place, the definitions it stands inside of and those that
start before it, by their full names. -/
structure Reference where
  name : String
  space : Option String
  enclosing : List String
  before : List String

namespace Reference

/-- The full names that the reference can mean, the first one first. -/
def candidates (r : Reference) : List String :=
  [if r.name.toList.contains '.' then r.name else qualify r.name r.space, r.name]

/-- The definition that the reference leads to. -/
def target? (r : Reference) : Option String := r.candidates.find? (· ∈ r.before)

/-- The reference is to a built-in type or to a definition that it is not a part of. -/
def Complete (r : Reference) : Prop :=
  Names.primitive? r.name = none → ∃ target, r.target? = some target ∧ target ∉ r.enclosing

end Reference

namespace Outline

mutual

/-- The full names that are defined in an outline inside a namespace, in the order of the document.
-/
def definitions (space : Option String) : Outline → List String
  | .malformed _ => []
  | .reference _ => []
  | .union members => memberDefinitions space members
  | .array items => items.definitions space
  | .map values => values.definitions space
  | .record declaration fields =>
    let name := Names.nameOf declaration space
    name.full :: fieldDefinitions name.space fields
  | .enum declaration _ => [(Names.nameOf declaration space).full]
  | .fixed declaration _ => [(Names.nameOf declaration space).full]
  | .tagged _ base => base.definitions space

def memberDefinitions (space : Option String) : List Outline → List String
  | [] => []
  | o :: rest => o.definitions space ++ memberDefinitions space rest

def fieldDefinitions (space : Option String) : List FieldOutline → List String
  | [] => []
  | .malformed _ :: rest => fieldDefinitions space rest
  | .field _ type :: rest => type.definitions space ++ fieldDefinitions space rest

end

mutual

/-- The references in an outline, which itself stands inside the enclosing definitions and behind
those before. -/
def references (space : Option String) (enclosing before : List String) :
    Outline → List Reference
  | .malformed _ => []
  | .reference name => [⟨name, space, enclosing, before⟩]
  | .union members => memberReferences space enclosing before members
  | .array items => items.references space enclosing before
  | .map values => values.references space enclosing before
  | .record declaration fields =>
    let name := Names.nameOf declaration space
    fieldReferences name.space (name.full :: enclosing) (name.full :: before) fields
  | .enum _ _ => []
  | .fixed _ _ => []
  | .tagged _ base => base.references space enclosing before

def memberReferences (space : Option String) (enclosing before : List String) :
    List Outline → List Reference
  | [] => []
  | o :: rest => o.references space enclosing before ++
    memberReferences space enclosing (o.definitions space ++ before) rest

def fieldReferences (space : Option String) (enclosing before : List String) :
    List FieldOutline → List Reference
  | [] => []
  | .malformed _ :: rest => fieldReferences space enclosing before rest
  | .field _ type :: rest => type.references space enclosing before ++
    fieldReferences space enclosing (type.definitions space ++ before) rest

end

end Outline

/-! ## The table of names and the lists -/

namespace Names

/-- The name is open or known. -/
def Declares (names : Names) (name : String) : Prop :=
  name ∈ names.opened ∨ (names.known.lookup name).isSome

/-- The table has the names that are around a place and before it. -/
structure Agrees (names : Names) (enclosing before : List String) : Prop where
  opened : ∀ name, name ∈ names.opened ↔ name ∈ enclosing
  declared : ∀ name, names.Declares name ↔ name ∈ before

theorem agrees_empty : Names.empty.Agrees [] [] := by
  constructor <;> simp [empty, Declares]

/-- A definition around a place starts before it. -/
theorem Agrees.subset {names : Names} {enclosing before : List String}
    (h : names.Agrees enclosing before) : enclosing ⊆ before := by
  intro name hname
  exact (h.declared name).mp (.inl ((h.opened name).mpr hname))

/-- A name that is opened is new, and is then around every place inside. -/
theorem Agrees.declare {names names' : Names} {name : TypeName} {enclosing before : List String}
    (h : names.Agrees enclosing before) (hd : names.declare name = .ok names') :
    name.full ∉ before ∧ names'.Agrees (name.full :: enclosing) (name.full :: before) := by
  obtain ⟨hunknown, hunopened, rfl⟩ := declare_eq_ok hd
  refine ⟨?_, ?_, ?_⟩
  · intro hbefore
    rcases (h.declared name.full).mpr hbefore with hopen | hknown
    · exact hunopened hopen
    · rw [hunknown] at hknown
      cases hknown
  · intro n
    rw [List.mem_cons, List.mem_cons, h.opened n]
  · intro n
    rw [List.mem_cons, ← h.declared n, Declares, Declares, List.mem_cons, or_assoc]

/-- A name that is closed stays declared, with all that has been declared inside. -/
@[simp] theorem declares_define {names : Names} {name : TypeName} {s : Schema} {n : String} :
    (names.define name s).Declares n ↔ n = name.full ∨ names.Declares n := by
  rw [Declares, Declares, lookup_define]
  by_cases hn : n = name.full
  · simp [hn]
  · simp [hn, Names.define]

theorem Agrees.define {names : Names} {name : TypeName} {s : Schema}
    {enclosing before : List String} (h : names.Agrees (name.full :: enclosing) before)
    (hnew : name.full ∉ enclosing) (hbefore : name.full ∈ before) :
    (names.define name s).Agrees enclosing before where
  opened n := by
    show n ∈ names.opened.filter (· != name.full) ↔ n ∈ enclosing
    rw [List.mem_filter, h.opened n, List.mem_cons, bne_iff_ne]
    constructor
    · rintro ⟨rfl | hn, hne⟩
      · exact absurd rfl hne
      · exact hn
    · intro hn
      refine ⟨.inr hn, ?_⟩
      rintro rfl
      exact hnew hn
  declared n := by
    rw [declares_define, h.declared n]
    constructor
    · rintro (rfl | hn)
      · exact hbefore
      · exact hn
    · exact .inr

theorem lookup?_eq_none {names : Names} {name : String} :
    names.lookup? name = none ↔ ¬ names.Declares name := by
  rw [lookup?, Declares]
  by_cases h : name ∈ names.opened
  · simp [h]
  · rw [if_neg (by simpa using h)]
    cases names.known.lookup name <;> simp [h]

theorem not_opened_of_lookup? {names : Names} {name : String} {s : Schema}
    (h : names.lookup? name = some (.ok s)) : name ∉ names.opened := by
  intro hopen
  rw [lookup?, if_pos (by simpa using hopen)] at h
  cases h

/-- What the table finds for a reference is its entry for the definition that the reference leads to.
-/
theorem exists_target_of_refer {names : Names} {space : Option String} {name : String} {s : Schema}
    {enclosing before : List String} (ha : names.Agrees enclosing before)
    (hprimitive : primitive? name = none) (h : names.refer space name = .ok s) :
    ∃ target, (Reference.mk name space enclosing before).target? = some target ∧
      names.lookup? target = some (.ok s) := by
  rw [refer, hprimitive] at h
  dsimp only at h
  rw [Reference.target?, Reference.candidates]
  dsimp only
  generalize (if name.toList.contains '.' then name else qualify name space) = full at h ⊢
  have hin : ∀ n found, names.lookup? n = some found → n ∈ before := by
    intro n found hn
    by_cases hdeclared : names.Declares n
    · exact (ha.declared n).mp hdeclared
    · rw [lookup?_eq_none.mpr hdeclared] at hn
      cases hn
  cases hfull : names.lookup? full with
  | some found =>
    rw [hfull, Option.some_or, Option.getD_some] at h
    subst h
    refine ⟨full, ?_, hfull⟩
    rw [List.find?_cons_of_pos (by simpa using hin full _ hfull)]
  | none =>
    have hnot : full ∉ before := fun hmem => lookup?_eq_none.mp hfull ((ha.declared full).mpr hmem)
    cases hname : names.lookup? name with
    | some found =>
      rw [hfull, hname, Option.none_or, Option.getD_some] at h
      subst h
      refine ⟨name, ?_, hname⟩
      rw [List.find?_cons_of_neg (by simpa using hnot),
        List.find?_cons_of_pos (by simpa using hin name _ hname)]
    | none =>
      rw [hfull, hname] at h
      cases h

/-- A name that the table finds is the name of a definition that is complete. -/
theorem complete_of_refer {names : Names} {space : Option String} {name : String} {s : Schema}
    {enclosing before : List String} (ha : names.Agrees enclosing before)
    (h : names.refer space name = .ok s) : (Reference.mk name space enclosing before).Complete := by
  intro hprimitive
  obtain ⟨target, htarget, hlookup⟩ := exists_target_of_refer ha hprimitive h
  refine ⟨target, htarget, fun henclosing => ?_⟩
  exact not_opened_of_lookup? hlookup ((ha.opened target).mpr henclosing)

end Names

/-- What resolving a part of a document has come to: the table has its definitions in it as well,
they are new and all different, and its references are complete. -/
structure Scoped (enclosing before definitions : List String) (references : List Reference)
    (names : Names) : Prop where
  agrees : names.Agrees enclosing (definitions ++ before)
  nodup : definitions.Nodup
  fresh : ∀ name ∈ definitions, name ∉ before
  complete : ∀ r ∈ references, r.Complete

namespace Scoped

variable {enclosing before : List String} {names : Names}

theorem nothing (h : names.Agrees enclosing before) : Scoped enclosing before [] [] names where
  agrees := h
  nodup := List.nodup_nil
  fresh _ h := absurd h List.not_mem_nil
  complete _ h := absurd h List.not_mem_nil

/-- One part and then another. -/
theorem append {ds ds' : List String} {rs rs' : List Reference} {names' : Names}
    (h : Scoped enclosing before ds rs names)
    (h' : Scoped enclosing (ds ++ before) ds' rs' names') :
    Scoped enclosing before (ds ++ ds') (rs ++ rs') names' where
  agrees := by
    refine ⟨h'.agrees.opened, fun name => ?_⟩
    rw [h'.agrees.declared name]
    simp only [List.mem_append]
    exact or_left_comm.trans or_assoc.symm
  nodup := by
    refine List.nodup_append.mpr ⟨h.nodup, h'.nodup, ?_⟩
    rintro name hname _ hname' rfl
    exact h'.fresh name hname' (List.mem_append_left _ hname)
  fresh name hname := by
    rcases List.mem_append.mp hname with hname | hname
    · exact h.fresh name hname
    · exact fun hbefore => h'.fresh name hname (List.mem_append_right _ hbefore)
  complete r hr := by
    rcases List.mem_append.mp hr with hr | hr
    · exact h.complete r hr
    · exact h'.complete r hr

/-- **A definition** is its name and what is defined and referred to inside it. -/
theorem define {name : TypeName} {s : Schema} {ds : List String} {rs : List Reference}
    {names₁ inside : Names} (ha : names.Agrees enclosing before)
    (hd : names.declare name = .ok names₁)
    (h : names₁.Agrees (name.full :: enclosing) (name.full :: before) →
      Scoped (name.full :: enclosing) (name.full :: before) ds rs inside) :
    Scoped enclosing before (name.full :: ds) rs (inside.define name s) := by
  obtain ⟨hnew, hopened⟩ := ha.declare hd
  have hinside := h hopened
  have hagrees : inside.Agrees (name.full :: enclosing) (name.full :: ds ++ before) := by
    refine ⟨hinside.agrees.opened, fun n => ?_⟩
    rw [hinside.agrees.declared n]
    simp only [List.mem_cons, List.mem_append, List.cons_append]
    exact or_left_comm
  refine ⟨hagrees.define (fun hn => hnew (ha.subset hn)) List.mem_cons_self, ?_, ?_,
    hinside.complete⟩
  · refine List.nodup_cons.mpr ⟨?_, hinside.nodup⟩
    exact fun hmem => hinside.fresh _ hmem List.mem_cons_self
  · intro n hn
    rcases List.mem_cons.mp hn with rfl | hn
    · exact hnew
    · exact fun hbefore => hinside.fresh n hn (List.mem_cons_of_mem _ hbefore)

end Scoped

/-! ## Resolving -/

namespace Outline

mutual

/-- **Resolving takes only names that are new and finds only definitions that are complete.** -/
theorem resolve_scoped : ∀ {o : Outline} {space : Option String} {names names' : Names} {s : Schema}
    {enclosing before : List String}, o.resolve space names = .ok (s, names') →
      names.Agrees enclosing before →
        Scoped enclosing before (o.definitions space) (o.references space enclosing before) names'
  | .malformed _, _, _, _, _, _, _, h, _ => by cases h
  | .reference name, _, names, _, _, _, _, h, ha => by
    obtain ⟨s, hs, h⟩ := bind_eq_ok.mp h
    cases h
    refine { Scoped.nothing ha with complete := ?_ }
    intro r hr
    rw [references, List.mem_singleton] at hr
    subst hr
    exact Names.complete_of_refer ha hs
  | .union members, _, _, _, _, _, _, h, ha => by
    obtain ⟨⟨ss, names₁⟩, h₁, h⟩ := bind_eq_ok.mp h
    cases h
    exact resolveMembers_scoped h₁ ha
  | .array items, _, _, _, _, _, _, h, ha => by
    obtain ⟨⟨t, names₁⟩, h₁, h⟩ := bind_eq_ok.mp h
    cases h
    have hbelow := resolve_scoped h₁ ha
    exact hbelow
  | .map values, _, _, _, _, _, _, h, ha => by
    obtain ⟨⟨t, names₁⟩, h₁, h⟩ := bind_eq_ok.mp h
    cases h
    have hbelow := resolve_scoped h₁ ha
    exact hbelow
  | .record declaration fields, _, _, _, _, _, _, h, ha => by
    obtain ⟨names₁, h₁, h⟩ := bind_eq_ok.mp h
    obtain ⟨⟨fs, names₂⟩, h₂, h⟩ := bind_eq_ok.mp h
    cases h
    exact Scoped.define ha h₁ fun ha₁ => resolveFields_scoped h₂ ha₁
  | .enum declaration symbols, _, _, _, _, _, _, h, ha => by
    obtain ⟨names₁, h₁, h⟩ := bind_eq_ok.mp h
    obtain ⟨texts, -, h⟩ := bind_eq_ok.mp h
    cases h
    exact Scoped.define ha h₁ .nothing
  | .fixed declaration size, _, _, _, _, _, _, h, ha => by
    obtain ⟨names₁, h₁, h⟩ := bind_eq_ok.mp h
    obtain ⟨n, -, h⟩ := bind_eq_ok.mp h
    cases h
    exact Scoped.define ha h₁ .nothing
  | .tagged tag base, _, _, _, _, _, _, h, ha => by
    obtain ⟨⟨t, names₁⟩, h₁, h⟩ := bind_eq_ok.mp h
    obtain ⟨_, -, h⟩ := bind_eq_ok.mp h
    cases h
    have hbase := resolve_scoped h₁ ha
    exact hbase

theorem resolveMembers_scoped : ∀ {os : List Outline} {space : Option String}
    {names names' : Names} {ss : List Schema} {enclosing before : List String},
      resolveMembers space os names = .ok (ss, names') → names.Agrees enclosing before →
        Scoped enclosing before (memberDefinitions space os)
          (memberReferences space enclosing before os) names'
  | [], _, _, _, _, _, _, h, ha => by
    cases h
    exact .nothing ha
  | o :: rest, _, _, _, _, _, _, h, ha => by
    obtain ⟨⟨s, names₁⟩, h₁, h⟩ := bind_eq_ok.mp h
    obtain ⟨⟨ss, names₂⟩, h₂, h⟩ := bind_eq_ok.mp h
    cases h
    have hfirst := resolve_scoped h₁ ha
    exact hfirst.append (resolveMembers_scoped h₂ hfirst.agrees)

theorem resolveFields_scoped : ∀ {fs : List FieldOutline} {record : TypeName} {position : Nat}
    {seen : List String} {names names' : Names} {fields : List Field}
    {enclosing before : List String},
      resolveFields record position seen fs names = .ok (fields, names') →
        names.Agrees enclosing before →
          Scoped enclosing before (fieldDefinitions record.space fs)
            (fieldReferences record.space enclosing before fs) names'
  | [], _, _, _, _, _, _, _, _, h, ha => by
    cases h
    exact .nothing ha
  | .malformed _ :: _, _, _, _, _, _, _, _, _, h, _ => by cases h
  | .field name type :: rest, _, _, _, _, _, _, _, _, h, ha => by
    rw [resolveFields] at h
    split at h
    · cases h
    · obtain ⟨⟨s, names₁⟩, h₁, h⟩ := bind_eq_ok.mp h
      obtain ⟨⟨fields, names₂⟩, h₂, h⟩ := bind_eq_ok.mp h
      cases h
      have hfirst := resolve_scoped h₁ ha
      exact hfirst.append (resolveFields_scoped h₂ hfirst.agrees)

end

end Outline

/-! ## No type is inside itself -/

/-- The schemas strictly below. -/
def Schema.nodesBelow (s : Schema) : List Schema := s.nodes.tail

theorem Schema.nodes_eq_cons (s : Schema) : s.nodes = s :: s.nodesBelow := by
  cases s <;> rfl

/-- A schema below another one is smaller. -/
theorem Schema.sizeOf_lt_of_below {x s : Schema} (h : x ∈ s.nodesBelow) : sizeOf x < sizeOf s := by
  have hpart : ∀ part : Schema, x ∈ part.nodes → (x ∈ part.nodesBelow → sizeOf x < sizeOf part) →
      sizeOf x ≤ sizeOf part := by
    intro part hx hbelow
    rw [nodes_eq_cons, List.mem_cons] at hx
    rcases hx with rfl | hx
    · exact Nat.le_refl _
    · exact Nat.le_of_lt (hbelow hx)
  induction s using Schema.induction with
  | record type ih =>
    obtain ⟨f, hf, hx⟩ := RecordType.mem_nodes.mp h
    have hle := hpart f.schema hx (ih f hf)
    have hfield := List.sizeOf_lt_of_mem hf
    obtain ⟨name, fields⟩ := type
    obtain ⟨field, position, schema⟩ := f
    rw [Field.mk.sizeOf_spec] at hfield
    rw [record.sizeOf_spec, RecordType.mk.sizeOf_spec]
    dsimp only at hle hfield
    omega
  | array items ih =>
    have hle := hpart items h ih
    rw [array.sizeOf_spec]
    omega
  | map values ih =>
    have hle := hpart values h ih
    rw [map.sizeOf_spec]
    omega
  | union members ih =>
    obtain ⟨m, hm, hx⟩ := mem_memberNodes.mp h
    have hle := hpart m hx (ih m hm)
    have hmember := List.sizeOf_lt_of_mem hm
    rw [union.sizeOf_spec]
    omega
  | null | boolean | int | long | float | double | bytes | string _ | enum _ | fixed _ =>
    exact absurd h List.not_mem_nil

/-- No named type has a node of its own full name below it. -/
theorem Schema.WellFormed.not_below_itself {s x y : Schema} (hs : s.WellFormed) (hx : x ∈ s.nodes)
    (hy : y ∈ x.nodesBelow) {name : String} (hname : x.fullName? = some name) :
    y.fullName? ≠ some name := by
  intro hsame
  have hin : y ∈ x.nodes := by
    rw [nodes_eq_cons]
    exact List.mem_cons_of_mem _ hy
  have heq := hs.oneDefinition x hx y (nodes_trans hin hx) name hname hsame
  subst heq
  exact Nat.lt_irrefl _ (sizeOf_lt_of_below hy)

/-! ## Schemas that have been read -/

/-- The table at the end of a document that is accepted: it has all definitions, and what stands in
the schema is what it has. -/
theorem Schema.exists_names_of_ofJson {document : Json} {s : Schema}
    (h : Schema.ofJson document = .ok s) :
    ∃ names : Names, names.Owns s ∧
      Scoped [] [] ((Outline.ofJson document).definitions none)
        ((Outline.ofJson document).references none [] []) names := by
  unfold Schema.ofJson at h
  cases hr : (Outline.ofJson document).resolve none .empty with
  | error e =>
    rw [hr] at h
    cases h
  | ok result =>
    rw [hr] at h
    cases h
    obtain ⟨-, -, howns⟩ := Outline.resolve_spec hr Names.consistent_empty
    exact ⟨result.2, howns, Outline.resolve_scoped hr Names.agrees_empty⟩

/-- A named type in a schema is one of the definitions of the document. -/
theorem Schema.fullName_mem_definitions {document : Json} {s x : Schema} {name : String}
    (h : Schema.ofJson document = .ok s) (hx : x ∈ s.nodes) (hname : x.fullName? = some name) :
    name ∈ (Outline.ofJson document).definitions none := by
  obtain ⟨names, howns, hscoped⟩ := exists_names_of_ofJson h
  have hknown : (names.known.lookup name).isSome := by
    rw [howns.known x hx name hname]
    rfl
  have hmem := (hscoped.agrees.declared name).mp (.inr hknown)
  rwa [List.append_nil] at hmem

end FieldSeal
