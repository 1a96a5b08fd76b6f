import FieldSeal.Proofs.Schema.Erasure
import FieldSeal.Proofs.Schema.References

/-!
# The sites of a schema document

A *site* is a place of a document where a schema stands, with what the document says around it: the
namespace there, and the definitions that start before it. `Json.head?` reads off the top of a schema
what kind it is and which documents inside it are schemas again, and with it sites are followed from
the root on, without a table of names and without any `Schema`:

* `Json.chain` goes down through objects that take their type from another one, and the schema that
  it ends in is what all of them denote (`Json.core`);
* `Site.sites` lists all sites below, in the order in which they are evaluated, so that an object
  comes after everything inside it;
* `Site.follow?` goes down to the site that a path of indices leads to. Where it meets a reference it
  goes on from the definition.

What the parser has in hand at a site is the outline of its document (`Outline.ofJson_of_head`).
-/

set_option autoImplicit false

namespace FieldSeal

/-! ## The top of a schema -/

/-- The kind of a schema, with the documents inside it as they stand. -/
inductive Head where
  | reference (name : String)
  /-- An object with another schema for its type. -/
  | nested (inner : Json)
  | union (members : List Json)
  | array (items : Json)
  | map (values : Json)
  | record (declaration : Declaration) (fields : List (String × Json))
  | enum (declaration : Declaration) (symbols : Member (List String))
  | fixed (declaration : Declaration) (size : Member Nat)

/-- The documents inside that are schemas themselves. -/
def Head.inside : Head → List Json
  | .nested inner => [inner]
  | .union members => members
  | .array items => [items]
  | .map values => [values]
  | .record _ fields => fields.map (·.2)
  | .reference _ | .enum _ _ | .fixed _ _ => []

/-- The declaration of a named type. -/
def Head.declaration? : Head → Option Declaration
  | .record declaration _ | .enum declaration _ | .fixed declaration _ => some declaration
  | _ => none

namespace Json

def declaration? (members : Table Json) : Option Declaration := do
  let name ← (Table.get? "name" members).bind asText?
  return ⟨name, (Table.get? "namespace" members).bind asText?⟩

def field? : Json → Option (String × Json)
  | .object members => do
    return (← (Table.get? "name" members).bind asText?, ← Table.get? "type" members)
  | _ => none

def fields? (members : Table Json) : Option (List (String × Json)) :=
  match Table.get? "fields" members with
  | some (.array items) => items.mapM field?
  | _ => none

/-- The kind of an object that has what its kind calls for. -/
def headOf? (members : Table Json) : Option Head :=
  match Table.get? "type" members with
  | none => none
  | some (.string kind) =>
    if kind = "record" ∨ kind = "error" then do
      return .record (← declaration? members) (← fields? members)
    else if kind = "enum" then do
      return .enum (← declaration? members) (Outline.symbols members)
    else if kind = "fixed" then do
      return .fixed (← declaration? members) (Outline.size members)
    else if kind = "array" then (Table.get? "items" members).map .array
    else if kind = "map" then (Table.get? "values" members).map .map
    else some (.reference kind)
  | some inner => some (.nested inner)

def head? : Json → Option Head
  | .string name => some (.reference name)
  | .array members => some (.union members)
  | .object members => headOf? members
  | _ => none

/-- The tag that an object carries itself. -/
def tag? : Json → Option Tag
  | .object members => Outline.tagOf? members
  | _ => none

/-- What there is in an object that is of a kind. -/
inductive HasHead (members : Table Json) : Head → Prop
  | record {kind : String} {declaration : Declaration} {fields : List (String × Json)}
      (htype : Table.get? "type" members = some (.string kind))
      (hkind : kind = "record" ∨ kind = "error") (hdeclaration : declaration? members = some declaration)
      (hfields : fields? members = some fields) : HasHead members (.record declaration fields)
  | enum {declaration : Declaration} (htype : Table.get? "type" members = some (.string "enum"))
      (hdeclaration : declaration? members = some declaration) :
      HasHead members (.enum declaration (Outline.symbols members))
  | fixed {declaration : Declaration} (htype : Table.get? "type" members = some (.string "fixed"))
      (hdeclaration : declaration? members = some declaration) :
      HasHead members (.fixed declaration (Outline.size members))
  | array {items : Json} (htype : Table.get? "type" members = some (.string "array"))
      (hitems : Table.get? "items" members = some items) : HasHead members (.array items)
  | map {values : Json} (htype : Table.get? "type" members = some (.string "map"))
      (hvalues : Table.get? "values" members = some values) : HasHead members (.map values)
  | reference {kind : String} (htype : Table.get? "type" members = some (.string kind))
      (hkind : kind ∉ ["record", "error", "enum", "fixed", "array", "map"]) :
      HasHead members (.reference kind)
  | nested {inner : Json} (htype : Table.get? "type" members = some inner)
      (hinner : inner.asText? = none) : HasHead members (.nested inner)

theorem hasHead_of_headOf? {members : Table Json} {head : Head} (h : headOf? members = some head) :
    HasHead members head := by
  rw [headOf?] at h
  split at h
  next => cases h
  next kind htype =>
    by_cases hrecord : kind = "record" ∨ kind = "error"
    · rw [if_pos hrecord] at h
      obtain ⟨declaration, hdeclaration, h⟩ := Option.bind_eq_some_iff.mp h
      obtain ⟨fields, hfields, h⟩ := Option.bind_eq_some_iff.mp h
      cases h
      exact .record htype hrecord hdeclaration hfields
    rw [if_neg hrecord] at h
    by_cases henum : kind = "enum"
    · rw [if_pos henum] at h
      obtain ⟨declaration, hdeclaration, h⟩ := Option.bind_eq_some_iff.mp h
      cases h
      exact .enum (henum ▸ htype) hdeclaration
    rw [if_neg henum] at h
    by_cases hfixed : kind = "fixed"
    · rw [if_pos hfixed] at h
      obtain ⟨declaration, hdeclaration, h⟩ := Option.bind_eq_some_iff.mp h
      cases h
      exact .fixed (hfixed ▸ htype) hdeclaration
    rw [if_neg hfixed] at h
    by_cases harray : kind = "array"
    · rw [if_pos harray] at h
      obtain ⟨items, hitems, rfl⟩ := Option.map_eq_some_iff.mp h
      exact .array (harray ▸ htype) hitems
    rw [if_neg harray] at h
    by_cases hmap : kind = "map"
    · rw [if_pos hmap] at h
      obtain ⟨values, hvalues, rfl⟩ := Option.map_eq_some_iff.mp h
      exact .map (hmap ▸ htype) hvalues
    · rw [if_neg hmap] at h
      cases h
      refine .reference htype ?_
      simp only [List.mem_cons, List.not_mem_nil, or_false]
      exact fun hkind => hkind.elim (fun h => hrecord (.inl h)) fun hkind =>
        hkind.elim (fun h => hrecord (.inr h)) (by simp [henum, hfixed, harray, hmap])
  next inner hnot htype =>
    cases h
    refine .nested htype ?_
    cases inner with
    | string kind => exact absurd rfl (hnot kind)
    | _ => rfl

/-! Documents inside are smaller, which is why what follows ends. -/

theorem sizeOf_get? {key : String} {j : Json} : ∀ {members : Table Json},
    Table.get? key members = some j → sizeOf j < sizeOf members
  | [], h => by cases h
  | (k, i) :: rest, h => by
    rw [Table.get?] at h
    rw [List.cons.sizeOf_spec, Prod.mk.sizeOf_spec]
    split at h
    · cases h
      omega
    · have := sizeOf_get? h
      omega

theorem sizeOf_field? {j : Json} {f : String × Json} (h : j.field? = some f) :
    sizeOf f.2 < sizeOf j := by
  cases j with
  | object members =>
    obtain ⟨name, -, h⟩ := Option.bind_eq_some_iff.mp h
    obtain ⟨type, htype, h⟩ := Option.bind_eq_some_iff.mp h
    cases h
    have hsize := sizeOf_get? htype
    show sizeOf type < sizeOf (Json.object members)
    rw [object.sizeOf_spec]
    omega
  | _ => cases h

theorem sizeOf_fields {items : List Json} {fields : List (String × Json)}
    (h : items.mapM field? = some fields) {f : String × Json} (hf : f ∈ fields) :
    sizeOf f.2 < sizeOf items := by
  induction items generalizing fields with
  | nil =>
    cases h
    cases hf
  | cons j rest ih =>
    rw [List.mapM_cons] at h
    obtain ⟨first, hfirst, h⟩ := Option.bind_eq_some_iff.mp h
    obtain ⟨others, hothers, h⟩ := Option.bind_eq_some_iff.mp h
    cases h
    rw [List.cons.sizeOf_spec]
    rcases List.mem_cons.mp hf with rfl | hf
    · have := sizeOf_field? hfirst
      omega
    · have := ih hothers hf
      omega

theorem sizeOf_inside {j x : Json} {head : Head} (h : j.head? = some head) (hx : x ∈ head.inside) :
    sizeOf x < sizeOf j := by
  cases j with
  | array members =>
    cases h
    have hsize := List.sizeOf_lt_of_mem (show x ∈ members from hx)
    rw [array.sizeOf_spec]
    omega
  | object members =>
    have hmember : ∀ {key : String} {j : Json}, Table.get? key members = some j →
        sizeOf j < sizeOf (Json.object members) := by
      intro key j hget
      have hsize := sizeOf_get? hget
      rw [object.sizeOf_spec]
      omega
    cases hasHead_of_headOf? h with
    | record htype hkind hdeclaration hfields =>
      obtain ⟨f, hf, rfl⟩ := List.mem_map.mp hx
      rw [fields?] at hfields
      split at hfields
      next items hitems =>
        have hfield := sizeOf_fields hfields hf
        have hsize := hmember hitems
        rw [array.sizeOf_spec] at hsize
        omega
      next => cases hfields
    | array htype hitems => exact List.mem_singleton.mp hx ▸ hmember hitems
    | map htype hvalues => exact List.mem_singleton.mp hx ▸ hmember hvalues
    | nested htype => exact List.mem_singleton.mp hx ▸ hmember htype
    | enum | fixed | reference => cases hx
  | string name =>
    cases h
    cases hx
  | null | bool _ | number _ => cases h

/-! ## Objects that are nested by their types -/

/-- A schema and those that it goes down to as long as one takes its type from the next. -/
def chain (j : Json) : List Json :=
  match _h : j.head? with
  | some (.nested inner) => j :: inner.chain
  | _ => [j]
termination_by j
decreasing_by exact sizeOf_inside _h List.mem_cons_self

/-- The schema at the end, which takes its type from no other. -/
def core (j : Json) : Json :=
  match _h : j.head? with
  | some (.nested inner) => inner.core
  | _ => j
termination_by j
decreasing_by exact sizeOf_inside _h List.mem_cons_self

/-- The tag of what the schema denotes: the outermost one on the way down decides. -/
def chainTag? (j : Json) : Option Tag := j.chain.findSome? tag?

variable {j inner : Json} {head : Head}

theorem core_nested (h : j.head? = some (.nested inner)) : j.core = inner.core := by
  rw [core]
  split
  next inner' h' =>
    rw [h] at h'
    cases h'
    rfl
  next hnot => exact absurd h (hnot inner)

theorem core_of_head (h : j.head? = some head) (hn : ∀ inner, head ≠ .nested inner) : j.core = j := by
  rw [core]
  split
  next inner h' =>
    rw [h] at h'
    cases h'
    exact absurd rfl (hn inner)
  next => rfl

theorem chainTag?_nested (h : j.head? = some (.nested inner)) :
    j.chainTag? = j.tag?.or inner.chainTag? := by
  rw [chainTag?, chain]
  split
  next inner' h' =>
    rw [h] at h'
    cases h'
    rw [List.findSome?_cons, chainTag?]
    cases j.tag? <;> rfl
  next hnot => exact absurd h (hnot inner)

theorem chainTag?_of_head (h : j.head? = some head) (hn : ∀ inner, head ≠ .nested inner) :
    j.chainTag? = j.tag? := by
  rw [chainTag?, chain]
  split
  next inner h' =>
    rw [h] at h'
    cases h'
    exact absurd rfl (hn inner)
  next =>
    rw [List.findSome?_cons]
    cases j.tag? <;> rfl

end Json

/-! ## Sites -/

structure Site where
  space : Option String
  before : List String
  json : Json

namespace Site

/-- The document as a whole. -/
def root (document : Json) : Site := ⟨none, [], document⟩

/-- Sites that follow one another, each one behind the definitions in those before it. -/
def row (space : Option String) (before : List String) : List Json → List Site
  | [] => []
  | j :: rest => ⟨space, before, j⟩ :: row space ((Outline.ofJson j).definitions space ++ before) rest

/-- The sites right inside. Those of a record are in its own namespace, and its name comes before
them. -/
def parts (p : Site) : List Site :=
  match p.json.head? with
  | some (.record declaration fields) =>
    let name := Names.nameOf declaration p.space
    row name.space (name.full :: p.before) (fields.map (·.2))
  | some head => row p.space p.before head.inside
  | none => []

theorem json_of_mem_row {p : Site} {space : Option String} : ∀ {before : List String}
    {inside : List Json}, p ∈ row space before inside → p.json ∈ inside
  | _, [], h => by cases h
  | _, _ :: _, h => by
    rcases List.mem_cons.mp h with rfl | h
    · exact List.mem_cons_self
    · exact List.mem_cons_of_mem _ (json_of_mem_row h)

theorem sizeOf_part {p q : Site} (h : q ∈ p.parts) : sizeOf q.json < sizeOf p.json := by
  rw [parts] at h
  split at h
  next hhead => exact Json.sizeOf_inside hhead (json_of_mem_row h)
  next hhead => exact Json.sizeOf_inside hhead (json_of_mem_row h)
  next => cases h

/-- Induction on sites, from those inside outwards. -/
theorem induction {motive : Site → Prop} (step : ∀ p : Site, (∀ q ∈ p.parts, motive q) → motive p)
    (p : Site) : motive p :=
  step p fun q _ => induction step q
termination_by p.json
decreasing_by exact sizeOf_part ‹_›

/-- The site and all sites inside it, in the order of evaluation: what is inside comes first. -/
def sites (p : Site) : List Site :=
  p.parts.attach.flatMap (fun q => q.1.sites) ++ [p]
termination_by p.json
decreasing_by exact sizeOf_part q.2

theorem sites_eq (p : Site) : p.sites = p.parts.flatMap sites ++ [p] := by
  rw [sites, List.flatMap_subtype (g := sites) (fun _ _ => rfl), List.unattach_attach]

theorem mem_sites_self (p : Site) : p ∈ p.sites := by
  rw [sites_eq]
  exact List.mem_append_right _ List.mem_cons_self

theorem sites_subset {p q : Site} (h : q ∈ p.parts) : q.sites ⊆ p.sites := by
  intro r hr
  rw [sites_eq]
  exact List.mem_append_left _ (List.mem_flatMap.mpr ⟨q, h, hr⟩)

/-! ## What a site denotes -/

/-- What the schema at the site takes its type from in the end. -/
def core (p : Site) : Site := { p with json := p.json.core }

/-- The full name that is defined here. -/
def declared? (p : Site) : Option String := do
  let declaration ← (← p.json.head?).declaration?
  return (Names.nameOf declaration p.space).full

/-- The definition that a reference from here leads to, by its full name. -/
def target? (p : Site) (name : String) : Option String :=
  if (Names.primitive? name).isSome then none
  else (Reference.mk name p.space [] p.before).target?

/-- It denotes a string. -/
def isText (p : Site) : Bool :=
  match p.json.core.head? with
  | some (.reference name) => name == "string"
  | _ => false

/-- The name of the type that a schema of this kind stands for. -/
def nameOfHead (p : Site) : Head → String
  | .reference name => (p.target? name).getD name
  | .union _ => "union"
  | .array _ => "array"
  | .map _ => "map"
  | .record declaration _ | .enum declaration _ | .fixed declaration _ =>
    (Names.nameOf declaration p.space).full
  | .nested _ => ""

/-- The name of the type that it denotes. -/
def typeName (p : Site) : String := (p.json.core.head?.map p.nameOfHead).getD ""

/-- It carries a tag that only a string may have. -/
def misplaced (p : Site) : Bool := p.json.tag?.isSome && !p.isText

/-- The site of the definition: itself, or the one among the sites of the document that a reference
leads to. -/
def definition? (document : List Site) (p : Site) : Option Site :=
  match p.json.core.head? with
  | some (.reference name) =>
    (p.target? name).bind fun full => document.find? (·.declared? == some full)
  | _ => some p.core

/-- The site below that a path of indices leads to. -/
def follow? (document : List Site) : Site → List Nat → Option Site
  | p, [] => some p
  | p, i :: path =>
    (p.definition? document).bind fun d => d.parts[i]?.bind fun q => q.follow? document path

end Site

namespace Site

variable {p : Site} {head : Head}

theorem core_of_head (h : p.json.head? = some head) (hn : ∀ inner, head ≠ .nested inner) :
    p.core = p := by
  rw [core, Json.core_of_head h hn]

theorem parts_of_head (h : p.json.head? = some head)
    (hrecord : ∀ declaration fields, head ≠ .record declaration fields) :
    p.parts = row p.space p.before head.inside := by
  rw [parts, h]
  cases head with
  | record declaration fields => exact absurd rfl (hrecord declaration fields)
  | _ => rfl

theorem declared?_of_head (h : p.json.head? = some head) {declaration : Declaration}
    (hd : head.declaration? = some declaration) :
    p.declared? = some (Names.nameOf declaration p.space).full := by
  rw [declared?, h, Option.bind_eq_bind, Option.bind_some, hd]
  rfl

theorem typeName_of_head (h : p.json.head? = some head) (hn : ∀ inner, head ≠ .nested inner) :
    p.typeName = p.nameOfHead head := by
  rw [typeName, Json.core_of_head h hn, h]
  rfl

theorem isText_of_head (h : p.json.head? = some head) (hn : ∀ inner, head ≠ .nested inner)
    (hr : ∀ name, head ≠ .reference name) : p.isText = false := by
  rw [isText, Json.core_of_head h hn, h]
  cases head with
  | reference name => exact absurd rfl (hr name)
  | _ => rfl

theorem definition?_of_head (document : List Site) (h : p.json.head? = some head)
    (hn : ∀ inner, head ≠ .nested inner) (hr : ∀ name, head ≠ .reference name) :
    p.definition? document = some p := by
  rw [definition?, Json.core_of_head h hn, h, core_of_head h hn]
  cases head with
  | reference name => exact absurd rfl (hr name)
  | _ => rfl

end Site

/-- The schemas right below: those of the fields of a record, the members of a union, the items of an
array and the values of a map. -/
def Schema.children : Schema → List Schema
  | .record type => type.fields.map (·.schema)
  | .array items => [items]
  | .map values => [values]
  | .union members => members
  | _ => []

/-- The schema below that a path of indices leads to. -/
def Schema.at? : Schema → List Nat → Option Schema
  | s, [] => some s
  | s, i :: path => s.children[i]?.bind fun t => t.at? path

/-! ## The outline at a site -/

def Head.outline : Head → Outline
  | .reference name => .reference name
  | .nested inner => Outline.ofJson inner
  | .union members => .union (Outline.ofJsons members)
  | .array items => .array (Outline.ofJson items)
  | .map values => .map (Outline.ofJson values)
  | .record declaration fields =>
    .record declaration (fields.map fun f => .field f.1 (Outline.ofJson f.2))
  | .enum declaration symbols => .enum declaration symbols
  | .fixed declaration size => .fixed declaration size

namespace Outline

theorem partsOf_eq (members : Table Json) : partsOf members =
    ⟨(Table.get? "type" members).map ofJson, (Table.get? "items" members).map ofJson,
      (Table.get? "values" members).map ofJson,
      ((Table.get? "fields" members).map fieldsOf).getD [.malformed .listMissing]⟩ := by
  induction members with
  | nil => rfl
  | cons e rest ih =>
    obtain ⟨key, j⟩ := e
    simp only [partsOf, Table.get?, ih]
    by_cases htype : key = "type"
    · simp [htype]
    by_cases hitems : key = "items"
    · simp [hitems]
    by_cases hvalues : key = "values"
    · simp [hvalues]
    by_cases hfields : key = "fields"
    · simp [hfields]
    · simp [htype, hitems, hvalues, hfields]

theorem declared_of_declaration? {members : Table Json} {declaration : Declaration}
    (h : Json.declaration? members = some declaration) (body : Declaration → Outline) :
    declared members body = body declaration := by
  obtain ⟨name, hname, h⟩ := Option.bind_eq_some_iff.mp h
  cases h
  obtain ⟨j, hget, hj⟩ := Option.bind_eq_some_iff.mp hname
  cases j with
  | string text =>
    cases hj
    rw [declared, hget]
  | _ => cases hj

theorem exists_declared_malformed {members : Table Json} (h : Json.declaration? members = none)
    (body : Declaration → Outline) : ∃ fault, declared members body = .malformed fault := by
  rw [declared]
  cases hget : Table.get? "name" members with
  | none => exact ⟨_, rfl⟩
  | some j =>
    cases j with
    | string text =>
      rw [Json.declaration?, hget] at h
      cases h
    | _ => exact ⟨_, rfl⟩

theorem fieldOf_of_field? {j : Json} {f : String × Json} (h : j.field? = some f) :
    fieldOf j = .field f.1 (ofJson f.2) := by
  cases j with
  | object members =>
    obtain ⟨name, hname, h⟩ := Option.bind_eq_some_iff.mp h
    obtain ⟨type, htype, h⟩ := Option.bind_eq_some_iff.mp h
    cases h
    obtain ⟨named, hget, hnamed⟩ := Option.bind_eq_some_iff.mp hname
    cases named with
    | string text =>
      cases hnamed
      rw [fieldOf, fieldOfParts, hget, partsOf_eq, htype]
      rfl
    | _ => cases hnamed
  | _ => cases h

theorem fieldsOfItems_of_fields {items : List Json} {fields : List (String × Json)}
    (h : items.mapM Json.field? = some fields) :
    fieldsOfItems items = fields.map fun f => .field f.1 (ofJson f.2) := by
  induction items generalizing fields with
  | nil =>
    cases h
    rfl
  | cons j rest ih =>
    rw [List.mapM_cons] at h
    obtain ⟨first, hfirst, h⟩ := Option.bind_eq_some_iff.mp h
    obtain ⟨others, hothers, h⟩ := Option.bind_eq_some_iff.mp h
    cases h
    rw [fieldsOfItems, fieldOf_of_field? hfirst, ih hothers]
    rfl

/-- **The outline of a schema is that of its kind**, under the tag that it carries. -/
theorem ofJson_of_head {j : Json} {head : Head} (h : j.head? = some head) :
    ofJson j = withTag j.tag? head.outline := by
  cases j with
  | string name =>
    cases h
    rfl
  | array members =>
    cases h
    rfl
  | object members =>
    rw [ofJson, ofParts_eq, partsOf_eq, Json.tag?]
    congr 1
    rw [baseOfParts]
    cases Json.hasHead_of_headOf? h with
    | record htype hkind hdeclaration hfields =>
      rw [htype]
      dsimp only
      rw [if_pos hkind, declared_of_declaration? hdeclaration]
      rw [Json.fields?] at hfields
      split at hfields
      next items hitems =>
        rw [hitems, Option.map_some, Option.getD_some, fieldsOf, fieldsOfItems_of_fields hfields]
        rfl
      next => cases hfields
    | enum htype hdeclaration =>
      rw [htype]
      exact declared_of_declaration? hdeclaration fun d => .enum d (symbols members)
    | fixed htype hdeclaration =>
      rw [htype]
      exact declared_of_declaration? hdeclaration fun d => .fixed d (size members)
    | array htype hitems =>
      rw [htype, hitems]
      rfl
    | map htype hvalues =>
      rw [htype, hvalues]
      rfl
    | reference htype hkind =>
      simp only [List.mem_cons, List.not_mem_nil, or_false, not_or] at hkind
      obtain ⟨hrecord, herror, henum, hfixed, harray, hmap⟩ := hkind
      rw [htype]
      dsimp only
      rw [if_neg (not_or.mpr ⟨hrecord, herror⟩), if_neg henum, if_neg hfixed, if_neg harray,
        if_neg hmap]
      rfl
    | @nested inner htype hinner =>
      rw [htype]
      cases inner with
      | string kind => cases hinner
      | _ => rfl
  | null | bool _ | number _ => cases h

/-! A document that is no schema is refused, whatever its tags are. -/

theorem fieldOf_of_none {j : Json} (h : j.field? = none) :
    (∃ fault, fieldOf j = .malformed fault) ∨
      ∃ name fault, fieldOf j = .field name (.malformed fault) := by
  cases j with
  | object members =>
    rw [fieldOf, fieldOfParts, partsOf_eq]
    cases hname : Table.get? "name" members with
    | none => exact .inl ⟨_, rfl⟩
    | some named =>
      cases named with
      | string name =>
        cases htype : Table.get? "type" members with
        | none => exact .inr ⟨_, _, rfl⟩
        | some type =>
          rw [Json.field?, hname, htype] at h
          cases h
      | _ => exact .inl ⟨_, rfl⟩
  | _ => exact .inl ⟨_, rfl⟩

theorem fields_of_resolveFields {items : List Json} {record : TypeName} {position : Nat}
    {seen : List String} {names names' : Names} {fields : List Field}
    (h : resolveFields record position seen
      (keepTagsOfFields (fun _ => false) (fieldsOfItems items)) names = .ok (fields, names')) :
    ∃ found, items.mapM Json.field? = some found := by
  induction items generalizing position seen names names' fields with
  | nil => exact ⟨[], rfl⟩
  | cons j rest ih =>
    rw [fieldsOfItems, keepTagsOfFields] at h
    cases hfield : j.field? with
    | some f =>
      rw [fieldOf_of_field? hfield, FieldOutline.keepTags, resolveFields] at h
      split at h
      next => cases h
      next =>
        obtain ⟨⟨s, names₁⟩, -, h⟩ := bind_eq_ok.mp h
        obtain ⟨⟨others, names₂⟩, hrest, -⟩ := bind_eq_ok.mp h
        obtain ⟨found, hfound⟩ := ih hrest
        rw [List.mapM_cons, hfield, hfound]
        exact ⟨_, rfl⟩
    | none =>
      rcases fieldOf_of_none hfield with ⟨fault, hj⟩ | ⟨name, fault, hj⟩
      · rw [hj] at h
        cases h
      · rw [hj, FieldOutline.keepTags, resolveFields] at h
        split at h <;> cases h

theorem exists_fields {members : Table Json} {record : TypeName} {position : Nat}
    {seen : List String} {names names' : Names} {fields : List Field}
    (h : resolveFields record position seen (keepTagsOfFields (fun _ => false)
      (((Table.get? "fields" members).map fieldsOf).getD [.malformed .listMissing])) names
        = .ok (fields, names')) : ∃ found, Json.fields? members = some found := by
  rw [Json.fields?]
  cases hlist : Table.get? "fields" members with
  | none =>
    rw [hlist] at h
    cases h
  | some j =>
    rw [hlist] at h
    cases j with
    | array items => exact fields_of_resolveFields h
    | _ => cases h

@[simp] theorem untagged_withTag (tag : Option Tag) (o : Outline) :
    (withTag tag o).untagged = o.untagged := by
  cases tag <;> rfl

theorem exists_declaration {members : Table Json} {body : Declaration → Outline}
    {space : Option String} {names : Names} {result : Schema × Names}
    (h : (declared members body).untagged.resolve space names = .ok result) :
    ∃ declaration, Json.declaration? members = some declaration := by
  cases hdeclaration : Json.declaration? members with
  | some declaration => exact ⟨declaration, rfl⟩
  | none =>
    obtain ⟨fault, hfault⟩ := exists_declared_malformed hdeclaration body
    rw [hfault] at h
    cases h

theorem exists_headOf {members : Table Json} {space : Option String} {names : Names}
    {result : Schema × Names}
    (h : (baseOfParts members (partsOf members)).untagged.resolve space names = .ok result) :
    ∃ head, Json.headOf? members = some head := by
  rw [partsOf_eq, baseOfParts] at h
  rw [Json.headOf?]
  cases htype : Table.get? "type" members with
  | none =>
    rw [htype] at h
    cases h
  | some type =>
    cases type with
    | string kind =>
      rw [htype] at h
      dsimp only at h ⊢
      split at h
      next hkind =>
        rw [if_pos hkind]
        obtain ⟨declaration, hdeclaration⟩ := exists_declaration h
        rw [declared_of_declaration? hdeclaration] at h
        obtain ⟨names₁, -, h⟩ := bind_eq_ok.mp h
        obtain ⟨⟨found, names₂⟩, hresolved, -⟩ := bind_eq_ok.mp h
        obtain ⟨fields, hfields⟩ := exists_fields hresolved
        rw [hdeclaration, hfields]
        exact ⟨_, rfl⟩
      next hkind =>
      rw [if_neg hkind]
      split at h
      next henum =>
        obtain ⟨declaration, hdeclaration⟩ := exists_declaration h
        rw [if_pos henum, hdeclaration]
        exact ⟨_, rfl⟩
      next henum =>
      rw [if_neg henum]
      split at h
      next hfixed =>
        obtain ⟨declaration, hdeclaration⟩ := exists_declaration h
        rw [if_pos hfixed, hdeclaration]
        exact ⟨_, rfl⟩
      next hfixed =>
      rw [if_neg hfixed]
      split at h
      next harray =>
        rw [if_pos harray]
        cases hitems : Table.get? "items" members with
        | some items => exact ⟨_, rfl⟩
        | none =>
          rw [hitems] at h
          cases h
      next harray =>
      rw [if_neg harray]
      split at h
      next hmap =>
        rw [if_pos hmap]
        cases hvalues : Table.get? "values" members with
        | some values => exact ⟨_, rfl⟩
        | none =>
          rw [hvalues] at h
          cases h
      next hmap =>
        rw [if_neg hmap]
        exact ⟨_, rfl⟩
    | _ => exact ⟨_, rfl⟩

theorem exists_head {j : Json} {space : Option String} {names : Names} {result : Schema × Names}
    (h : (ofJson j).untagged.resolve space names = .ok result) : ∃ head, j.head? = some head := by
  cases j with
  | object members =>
    rw [ofJson, ofParts_eq, untagged_withTag] at h
    exact exists_headOf h
  | string _ | array _ => exact ⟨_, rfl⟩
  | null | bool _ | number _ => cases h

/-! ## What is defined at the sites -/

mutual

/-- Tags define no names. -/
theorem definitions_keepTags (keep : Tag → Bool) : ∀ (o : Outline) (space : Option String),
    (o.keepTags keep).definitions space = o.definitions space
  | .malformed _, _ | .reference _, _ | .enum _ _, _ | .fixed _ _, _ => rfl
  | .union members, space => memberDefinitions_keepTags keep members space
  | .array items, space => definitions_keepTags keep items space
  | .map values, space => definitions_keepTags keep values space
  | .record declaration fields, space =>
    congrArg (List.cons _)
      (fieldDefinitions_keepTags keep fields (Names.nameOf declaration space).space)
  | .tagged tag base, space => by
    have hbase := definitions_keepTags keep base space
    rw [keepTags]
    split <;> exact hbase

theorem memberDefinitions_keepTags (keep : Tag → Bool) : ∀ (os : List Outline)
    (space : Option String),
      memberDefinitions space (keepTagsOfMembers keep os) = memberDefinitions space os
  | [], _ => rfl
  | o :: rest, space => by
    rw [keepTagsOfMembers, memberDefinitions, definitions_keepTags keep o,
      memberDefinitions_keepTags keep rest]
    rfl

theorem fieldDefinitions_keepTags (keep : Tag → Bool) : ∀ (fs : List FieldOutline)
    (space : Option String),
      fieldDefinitions space (keepTagsOfFields keep fs) = fieldDefinitions space fs
  | [], _ => rfl
  | .malformed _ :: rest, space => fieldDefinitions_keepTags keep rest space
  | .field _ type :: rest, space => by
    rw [keepTagsOfFields, FieldOutline.keepTags, fieldDefinitions, definitions_keepTags keep type,
      fieldDefinitions_keepTags keep rest]
    rfl

end

@[simp] theorem definitions_withTag (tag : Option Tag) (o : Outline) (space : Option String) :
    (withTag tag o).definitions space = o.definitions space := by
  cases tag <;> rfl

theorem fieldDefinitions_eq (space : Option String) (fields : List (String × Json)) :
    fieldDefinitions space (fields.map fun f => .field f.1 (ofJson f.2))
      = memberDefinitions space (ofJsons (fields.map (·.2))) := by
  induction fields with
  | nil => rfl
  | cons f rest ih => exact congrArg (_ ++ ·) ih

end Outline

namespace Site

/-- The definitions at a site are its own and those inside, which come behind it. -/
theorem definitions_of_head {p : Site} {head : Head} (h : p.json.head? = some head) :
    ∃ space, p.parts = row space (p.declared?.toList ++ p.before) head.inside ∧
      (Outline.ofJson p.json).definitions p.space
        = p.declared?.toList ++ Outline.memberDefinitions space (Outline.ofJsons head.inside) := by
  rw [Outline.ofJson_of_head h, Outline.definitions_withTag, parts, declared?, h]
  cases head with
  | record declaration fields =>
    refine ⟨_, rfl, ?_⟩
    rw [Head.outline, Outline.definitions, Outline.fieldDefinitions_eq]
    rfl
  | nested inner => exact ⟨_, rfl, (List.append_nil _).symm⟩
  | array items => exact ⟨_, rfl, (List.append_nil _).symm⟩
  | map values => exact ⟨_, rfl, (List.append_nil _).symm⟩
  | reference | union => exact ⟨_, rfl, rfl⟩
  | enum | fixed => exact ⟨p.space, rfl, rfl⟩

/-- The parser goes through at the site, as far as it depends on anything but tags. -/
def Resolves (p : Site) : Prop :=
  ∃ names result, (Outline.ofJson p.json).untagged.resolve p.space names = .ok result

theorem resolves_members {space : Option String} {inside : List Json} {before : List String}
    {names : Names} {result : List Schema × Names}
    (h : Outline.resolveMembers space
      (keepTagsOfMembers (fun _ => false) (Outline.ofJsons inside)) names = .ok result) :
    ∀ q ∈ row space before inside, q.Resolves := by
  induction inside generalizing before names result with
  | nil => exact fun q hq => absurd hq List.not_mem_nil
  | cons j rest ih =>
    obtain ⟨⟨s, names₁⟩, hfirst, h⟩ := bind_eq_ok.mp h
    obtain ⟨⟨ss, names₂⟩, hrest, -⟩ := bind_eq_ok.mp h
    exact List.forall_mem_cons.mpr ⟨⟨names, _, hfirst⟩, ih hrest⟩

theorem resolves_fields {record : TypeName} {fields : List (String × Json)} {position : Nat}
    {seen before : List String} {names : Names} {result : List Field × Names}
    (h : Outline.resolveFields record position seen (keepTagsOfFields (fun _ => false)
      (fields.map fun f => .field f.1 (Outline.ofJson f.2))) names = .ok result) :
    ∀ q ∈ row record.space before (fields.map (·.2)), q.Resolves := by
  induction fields generalizing position seen before names result with
  | nil => exact fun q hq => absurd hq List.not_mem_nil
  | cons f rest ih =>
    rw [List.map_cons, keepTagsOfFields, FieldOutline.keepTags, Outline.resolveFields] at h
    split at h
    next => cases h
    next =>
      obtain ⟨⟨s, names₁⟩, hfirst, h⟩ := bind_eq_ok.mp h
      obtain ⟨⟨fs, names₂⟩, hrest, -⟩ := bind_eq_ok.mp h
      exact List.forall_mem_cons.mpr ⟨⟨names, _, hfirst⟩, ih hrest⟩

namespace Resolves

variable {p : Site}

theorem head (h : p.Resolves) : ∃ head, p.json.head? = some head := by
  obtain ⟨names, result, h⟩ := h
  exact Outline.exists_head h

/-- Where the parser goes through, it goes through right inside. -/
theorem part (h : p.Resolves) : ∀ q ∈ p.parts, q.Resolves := by
  obtain ⟨head, hhead⟩ := h.head
  obtain ⟨names, result, h⟩ := h
  rw [Outline.ofJson_of_head hhead, Outline.untagged_withTag] at h
  rw [parts, hhead]
  cases head with
  | nested inner => exact List.forall_mem_singleton.mpr ⟨names, result, h⟩
  | union members =>
    obtain ⟨⟨ss, names₁⟩, h, -⟩ := bind_eq_ok.mp h
    exact resolves_members h
  | array items | map values =>
    obtain ⟨r, h, -⟩ := bind_eq_ok.mp h
    exact List.forall_mem_singleton.mpr ⟨names, r, h⟩
  | record declaration fields =>
    obtain ⟨names₁, -, h⟩ := bind_eq_ok.mp h
    obtain ⟨⟨fs, names₂⟩, h, -⟩ := bind_eq_ok.mp h
    exact resolves_fields h
  | reference | enum | fixed => exact fun q hq => absurd hq List.not_mem_nil

/-- The definitions in the outline of a site are those at the sites there, each as often. -/
theorem declared_perm (h : p.Resolves) :
    (p.sites.filterMap declared?).Perm ((Outline.ofJson p.json).definitions p.space) := by
  induction p using Site.induction with
  | step p ih =>
    have hown : [p].filterMap declared? = p.declared?.toList := by
      cases h : p.declared? <;> simp [h]
    have hrow : ∀ {space : Option String} {before : List String} {inside : List Json},
        row space before inside ⊆ p.parts →
          (((row space before inside).flatMap sites).filterMap declared?).Perm
            (Outline.memberDefinitions space (Outline.ofJsons inside)) := by
      intro space before inside hsub
      induction inside generalizing before with
      | nil => exact .refl _
      | cons j rest ihrest =>
        obtain ⟨hfirst, hrest⟩ := List.cons_subset.mp hsub
        rw [row, List.flatMap_cons, List.filterMap_append]
        exact (ih _ hfirst (h.part _ hfirst)).append (ihrest hrest)
    obtain ⟨head, hhead⟩ := h.head
    obtain ⟨space, hparts, hdefinitions⟩ := definitions_of_head hhead
    rw [sites_eq, List.filterMap_append, hown, hdefinitions, hparts]
    exact List.perm_append_comm.trans ((hrow (hparts ▸ List.Subset.refl _)).append_left _)

end Resolves

end Site

end FieldSeal
