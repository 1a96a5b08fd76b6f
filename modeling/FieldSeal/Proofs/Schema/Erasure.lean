import FieldSeal.Proofs.Schema.Resolution

/-!
# Documents without their logical types

`Json.erase` takes the `logicalType` members out of a document, in the objects that stand for schemas
and nowhere else: the object of a field, an attribute and a symbol are left as they are. Which of them
go is up to a test on their values.

All that is left of a logical type in an outline is the tag that it names, so an erased document has
the outline of the document with fewer tags in it (`Outline.ofJson_erase`). Logical types that are no
tags leave nothing behind (`Schema.ofJson_erase_of_keeps`), and without any tag a document that is
accepted is still accepted, with the same schema but for the tags (`Outline.resolve_untagged`).
-/

set_option autoImplicit false

namespace FieldSeal

/-! ## Erasing in a document -/

namespace Json

mutual

/-- The document without those logical types that the test drops. -/
def erase (drop : Json → Bool) : Json → Json
  | .array items => .array (eraseItems drop items)
  | .object members =>
    let dropped := ((Table.get? "logicalType" members).map drop).getD false
    let kind := (Table.get? "type" members).bind asText?
    .object (eraseMembers drop dropped kind members)
  | j => j

def eraseItems (drop : Json → Bool) : List Json → List Json
  | [] => []
  | j :: rest => j.erase drop :: eraseItems drop rest

/-- The members of an object, of which the kind of type says which of them hold schemas. -/
def eraseMembers (drop : Json → Bool) (dropped : Bool) (kind : Option String) :
    List (String × Json) → List (String × Json)
  | [] => []
  | (key, j) :: rest =>
    if key = "logicalType" ∧ dropped = true then eraseMembers drop dropped kind rest
    else
      let erased :=
        if key = "type" ∨ key = "items" ∧ kind = some "array" ∨ key = "values" ∧ kind = some "map" then
          j.erase drop
        else if key = "fields" ∧ (kind = some "record" ∨ kind = some "error") then
          eraseFields drop j
        else j
      (key, erased) :: eraseMembers drop dropped kind rest

def eraseFields (drop : Json → Bool) : Json → Json
  | .array items => .array (eraseFieldItems drop items)
  | j => j

def eraseFieldItems (drop : Json → Bool) : List Json → List Json
  | [] => []
  | j :: rest => eraseField drop j :: eraseFieldItems drop rest

/-- The object of a field is no schema itself, but its type is one. -/
def eraseField (drop : Json → Bool) : Json → Json
  | .object members => .object (eraseMembers drop false none members)
  | j => j

end

/-- What becomes of a member that is kept. -/
def eraseMember (drop : Json → Bool) (kind : Option String) (key : String) (j : Json) : Json :=
  if key = "type" ∨ key = "items" ∧ kind = some "array" ∨ key = "values" ∧ kind = some "map" then
    j.erase drop
  else if key = "fields" ∧ (kind = some "record" ∨ kind = some "error") then eraseFields drop j
  else j

theorem get?_eraseMembers (drop : Json → Bool) (dropped : Bool) (kind : Option String)
    (key : String) (members : List (String × Json)) :
    Table.get? key (eraseMembers drop dropped kind members) =
      if key = "logicalType" ∧ dropped = true then none
      else (Table.get? key members).map (eraseMember drop kind key) := by
  induction members with
  | nil => simp [eraseMembers, Table.get?]
  | cons e rest ih =>
    obtain ⟨k, j⟩ := e
    rw [eraseMembers]
    by_cases hk : k = "logicalType" ∧ dropped = true
    · rw [if_pos hk, ih]
      by_cases hkey : key = "logicalType" ∧ dropped = true
      · rw [if_pos hkey, if_pos hkey]
      · have hne : k ≠ key := by
          rintro rfl
          exact hkey hk
        rw [if_neg hkey, if_neg hkey, Table.get?, if_neg hne]
    · rw [if_neg hk, Table.get?, Table.get?, ih]
      by_cases hne : k = key
      · subst hne
        rw [if_pos rfl, if_pos rfl, if_neg hk]
        rfl
      · rw [if_neg hne, if_neg hne]

end Json

/-! ## Fewer tags in an outline -/

mutual

/-- The outline with those tags that the test keeps. -/
def Outline.keepTags (keep : Tag → Bool) : Outline → Outline
  | .malformed fault => .malformed fault
  | .reference name => .reference name
  | .union members => .union (keepTagsOfMembers keep members)
  | .array items => .array (items.keepTags keep)
  | .map values => .map (values.keepTags keep)
  | .record declaration fields => .record declaration (keepTagsOfFields keep fields)
  | .enum declaration symbols => .enum declaration symbols
  | .fixed declaration size => .fixed declaration size
  | .tagged tag base => if keep tag then .tagged tag (base.keepTags keep) else base.keepTags keep

def keepTagsOfMembers (keep : Tag → Bool) : List Outline → List Outline
  | [] => []
  | o :: rest => o.keepTags keep :: keepTagsOfMembers keep rest

def keepTagsOfFields (keep : Tag → Bool) : List FieldOutline → List FieldOutline
  | [] => []
  | f :: rest => f.keepTags keep :: keepTagsOfFields keep rest

def FieldOutline.keepTags (keep : Tag → Bool) : FieldOutline → FieldOutline
  | .malformed fault => .malformed fault
  | .field name type => .field name (type.keepTags keep)

end

namespace Outline

/-- The parts of an object; those that its kind does not look at stay as they are. -/
def Parts.keepTags (keep : Tag → Bool) (kind : Option String) (parts : Parts) : Parts where
  type := parts.type.map (·.keepTags keep)
  items := if kind = some "array" then parts.items.map (·.keepTags keep) else parts.items
  values := if kind = some "map" then parts.values.map (·.keepTags keep) else parts.values
  fields :=
    if kind = some "record" ∨ kind = some "error" then keepTagsOfFields keep parts.fields
    else parts.fields

/-- The tag that an object carries. -/
def tagOf? (members : Table Json) : Option Tag :=
  ((Table.get? "logicalType" members).bind Json.asText?).bind Tag.ofName?

def withTag : Option Tag → Outline → Outline
  | none, o => o
  | some tag, o => .tagged tag o

/-- The outline of an object without regard to its own tag. -/
def baseOfParts (members : Table Json) (parts : Parts) : Outline :=
  match Table.get? "type" members with
  | none => .malformed .withoutType
  | some (.string kind) =>
    if kind = "record" ∨ kind = "error" then declared members fun d => .record d parts.fields
    else if kind = "enum" then declared members fun d => .enum d (symbols members)
    else if kind = "fixed" then declared members fun d => .fixed d (size members)
    else if kind = "array" then
      match parts.items with
      | some items => .array items
      | none => .malformed (.missing "items")
    else if kind = "map" then
      match parts.values with
      | some values => .map values
      | none => .malformed (.missing "values")
    else .reference kind
  | some _ => parts.type.getD default

theorem ofParts_eq (members : Table Json) (parts : Parts) :
    ofParts members parts = withTag (tagOf? members) (baseOfParts members parts) := by
  rw [ofParts, tagOf?]
  cases (Table.get? "logicalType" members).bind Json.asText? with
  | none => rfl
  | some name => cases h : Tag.ofName? name <;> simp only [Option.bind_some, h] <;> rfl

theorem keepTags_withTag (keep : Tag → Bool) (tag : Option Tag) (o : Outline) :
    (withTag tag o).keepTags keep = withTag (tag.filter keep) (o.keepTags keep) := by
  cases tag with
  | none => rfl
  | some tag => cases h : keep tag <;> simp [withTag, keepTags, Option.filter, h]

@[simp] theorem keepTags_declared (keep : Tag → Bool) (members : Table Json)
    (body : Declaration → Outline) :
    (declared members body).keepTags keep = declared members fun d => (body d).keepTags keep := by
  unfold declared
  split <;> rfl

/-! ## The outline of an erased document -/

/-- The tags that a test leaves in place. -/
def kept (drop : Json → Bool) (tag : Tag) : Bool := !drop (.string tag.name)

theorem name_of_ofName? {name : String} {tag : Tag} (h : Tag.ofName? name = some tag) :
    name = tag.name := by
  rw [Tag.ofName?] at h
  by_cases hinline : name = Tag.inline.name
  · rw [if_pos hinline] at h
    cases h
    exact hinline
  · rw [if_neg hinline] at h
    by_cases htyped : name = Tag.typed.name
    · rw [if_pos htyped] at h
      cases h
      exact htyped
    · rw [if_neg htyped] at h
      cases h

section

variable (drop : Json → Bool) (members : Table Json)

/-- An object as it is erased. -/
def erasedMembers : Table Json :=
  Json.eraseMembers drop (((Table.get? "logicalType" members).map drop).getD false)
    ((Table.get? "type" members).bind Json.asText?) members

theorem tagOf?_erased :
    tagOf? (erasedMembers drop members) = (tagOf? members).filter (kept drop) := by
  rw [tagOf?, tagOf?, erasedMembers, Json.get?_eraseMembers]
  cases hlogical : Table.get? "logicalType" members with
  | none => simp
  | some j =>
    have hvalue : Json.eraseMember drop ((Table.get? "type" members).bind Json.asText?)
        "logicalType" j = j := by
      simp [Json.eraseMember]
    cases j with
    | string name =>
      rw [Option.map_some, Option.map_some, Option.getD_some, hvalue, Option.bind_some,
        Json.asText?, Option.bind_some]
      cases htag : Tag.ofName? name with
      | none => split <;> simp [Json.asText?, htag]
      | some tag =>
        obtain rfl := name_of_ofName? htag
        cases hdrop : drop (.string tag.name) <;> simp [Json.asText?, htag, kept, hdrop, Option.filter]
    | _ => split <;> simp [hvalue, Json.asText?]

theorem get?_erased {key : String} (hlogical : key ≠ "logicalType") (htype : key ≠ "type")
    (hitems : key ≠ "items") (hvalues : key ≠ "values") (hfields : key ≠ "fields") :
    Table.get? key (erasedMembers drop members) = Table.get? key members := by
  rw [erasedMembers, Json.get?_eraseMembers, if_neg (fun h => hlogical h.1)]
  have hvalue : Json.eraseMember drop ((Table.get? "type" members).bind Json.asText?) key = id := by
    funext j
    simp [Json.eraseMember, htype, hitems, hvalues, hfields]
  rw [hvalue, Option.map_id]
  rfl

theorem get?_type_erased : Table.get? "type" (erasedMembers drop members)
    = (Table.get? "type" members).map (·.erase drop) := by
  rw [erasedMembers, Json.get?_eraseMembers, if_neg (fun h => by simp at h)]
  rfl

/-- The outline of an erased object, once those of its parts are known. -/
theorem ofParts_erased (parts : Parts) :
    ofParts (erasedMembers drop members)
        (parts.keepTags (kept drop) ((Table.get? "type" members).bind Json.asText?))
      = (ofParts members parts).keepTags (kept drop) := by
  rw [ofParts_eq, ofParts_eq, keepTags_withTag, tagOf?_erased]
  congr 1
  have hname : Table.get? "name" (erasedMembers drop members) = Table.get? "name" members :=
    get?_erased _ _ (by decide) (by decide) (by decide) (by decide) (by decide)
  have hspace : Table.get? "namespace" (erasedMembers drop members)
      = Table.get? "namespace" members :=
    get?_erased _ _ (by decide) (by decide) (by decide) (by decide) (by decide)
  have hsymbols : symbols (erasedMembers drop members) = symbols members := by
    rw [symbols, get?_erased _ _ (by decide) (by decide) (by decide) (by decide) (by decide), symbols]
  have hsize : size (erasedMembers drop members) = size members := by
    rw [size, get?_erased _ _ (by decide) (by decide) (by decide) (by decide) (by decide), size]
  have hdeclared : ∀ body, declared (erasedMembers drop members) body = declared members body := by
    intro body
    rw [declared, hname, hspace, declared]
  rw [baseOfParts, get?_type_erased, baseOfParts]
  cases htype : Table.get? "type" members with
  | none => rfl
  | some j =>
    cases j with
    | string kind =>
      simp only [Option.map_some, Json.erase, Option.bind_some, Json.asText?, hdeclared, hsymbols,
        hsize, Parts.keepTags, Option.some.injEq]
      split
      next => simp [keepTags]
      next =>
      split
      next => simp only [keepTags_declared, keepTags]
      next =>
      split
      next => simp only [keepTags_declared, keepTags]
      next =>
      split
      next h => cases parts.items <;> simp [keepTags]
      next =>
      split
      next h => cases parts.values <;> simp [keepTags]
      next => rfl
    | _ =>
      simp only [Option.map_some, Json.erase, Parts.keepTags]
      cases parts.type <;> rfl

end

theorem fieldOfParts_erased (drop : Json → Bool) (members : Table Json) (parts : Parts) :
    fieldOfParts (Json.eraseMembers drop false none members) (parts.keepTags (kept drop) none)
      = (fieldOfParts members parts).keepTags (kept drop) := by
  have hname : Table.get? "name" (Json.eraseMembers drop false none members)
      = Table.get? "name" members := by
    rw [Json.get?_eraseMembers]
    cases Table.get? "name" members <;> simp [Json.eraseMember]
  rw [fieldOfParts, fieldOfParts, hname]
  cases Table.get? "name" members with
  | none => rfl
  | some j =>
    cases j with
    | string name =>
      cases htype : parts.type <;> simp [Parts.keepTags, FieldOutline.keepTags, keepTags, htype]
    | _ => rfl

mutual

/-- **An erased document has the outline of the document with fewer tags.** -/
theorem ofJson_erase (drop : Json → Bool) : ∀ j : Json,
    ofJson (j.erase drop) = (ofJson j).keepTags (kept drop)
  | .string _ => rfl
  | .array items => congrArg Outline.union (ofJsons_erase drop items)
  | .object members => by
    rw [ofJson, ← ofParts_erased, ← partsOf_erase]
    rfl
  | .null | .bool _ | .number _ => rfl

theorem ofJsons_erase (drop : Json → Bool) : ∀ items : List Json,
    ofJsons (Json.eraseItems drop items) = keepTagsOfMembers (kept drop) (ofJsons items)
  | [] => rfl
  | j :: rest => by
    rw [Json.eraseItems, ofJsons, ofJson_erase drop j, ofJsons_erase drop rest]
    rfl

theorem partsOf_erase (drop : Json → Bool) : ∀ (dropped : Bool) (kind : Option String)
    (members : List (String × Json)), partsOf (Json.eraseMembers drop dropped kind members)
      = (partsOf members).keepTags (kept drop) kind
  | _, kind, [] => by
    simp [Json.eraseMembers, partsOf, Parts.none, Parts.keepTags, keepTagsOfFields,
      FieldOutline.keepTags]
  | dropped, kind, (key, j) :: rest => by
    have hrest := partsOf_erase drop dropped kind rest
    have hj := ofJson_erase drop j
    have hfields := fieldsOf_erase drop j
    rw [Json.eraseMembers]
    by_cases hlogical : key = "logicalType" ∧ dropped = true
    · rw [if_pos hlogical, hrest]
      simp [partsOf, hlogical.1]
    · rw [if_neg hlogical, partsOf, partsOf, hrest]
      by_cases htype : key = "type"
      · simp [htype, hj, Parts.keepTags]
      by_cases hitems : key = "items"
      · by_cases hkind : kind = some "array" <;> simp [hitems, hkind, hj, Parts.keepTags]
      by_cases hvalues : key = "values"
      · by_cases hkind : kind = some "map" <;> simp [hvalues, hkind, hj, Parts.keepTags]
      by_cases hkey : key = "fields"
      · by_cases hkind : kind = some "record" ∨ kind = some "error" <;>
          simp [hkey, hkind, hfields, Parts.keepTags]
      · simp [htype, hitems, hvalues, hkey]

theorem fieldsOf_erase (drop : Json → Bool) : ∀ j : Json,
    fieldsOf (Json.eraseFields drop j) = keepTagsOfFields (kept drop) (fieldsOf j)
  | .array items => fieldsOfItems_erase drop items
  | .null | .bool _ | .number _ | .string _ | .object _ => rfl

theorem fieldsOfItems_erase (drop : Json → Bool) : ∀ items : List Json,
    fieldsOfItems (Json.eraseFieldItems drop items)
      = keepTagsOfFields (kept drop) (fieldsOfItems items)
  | [] => rfl
  | j :: rest => by
    rw [Json.eraseFieldItems, fieldsOfItems, fieldOf_erase drop j, fieldsOfItems_erase drop rest]
    rfl

theorem fieldOf_erase (drop : Json → Bool) : ∀ j : Json,
    fieldOf (Json.eraseField drop j) = (fieldOf j).keepTags (kept drop)
  | .object members => by
    rw [fieldOf, ← fieldOfParts_erased, ← partsOf_erase]
    rfl
  | .null | .bool _ | .number _ | .string _ | .array _ => rfl

end

mutual

/-- An outline with all its tags is itself. -/
theorem keepTags_all : ∀ o : Outline, o.keepTags (fun _ => true) = o
  | .malformed _ | .reference _ | .enum _ _ | .fixed _ _ => rfl
  | .union members => congrArg _ (keepTagsOfMembers_all members)
  | .array items => congrArg _ (keepTags_all items)
  | .map values => congrArg _ (keepTags_all values)
  | .record _ fields => congrArg _ (keepTagsOfFields_all fields)
  | .tagged tag base => congrArg (Outline.tagged tag) (keepTags_all base)

theorem keepTagsOfMembers_all : ∀ os : List Outline, keepTagsOfMembers (fun _ => true) os = os
  | [] => rfl
  | o :: rest => by rw [keepTagsOfMembers, keepTags_all o, keepTagsOfMembers_all rest]

theorem keepTagsOfFields_all : ∀ fs : List FieldOutline, keepTagsOfFields (fun _ => true) fs = fs
  | [] => rfl
  | .malformed fault :: rest => by
    rw [keepTagsOfFields, keepTagsOfFields_all rest, FieldOutline.keepTags]
  | .field name type :: rest => by
    rw [keepTagsOfFields, keepTagsOfFields_all rest, FieldOutline.keepTags, keepTags_all type]

end

/-- The outline without tags. -/
def untagged (o : Outline) : Outline := o.keepTags fun _ => false

end Outline

/-- **A logical type that is no tag changes nothing.** -/
theorem Schema.ofJson_erase_of_keeps {drop : Json → Bool}
    (h : ∀ tag : Tag, drop (.string tag.name) = false) (document : Json) :
    Schema.ofJson (document.erase drop) = Schema.ofJson document := by
  have hkept : Outline.kept drop = fun _ => true := by
    funext tag
    rw [Outline.kept, h tag]
    rfl
  rw [Schema.ofJson, Schema.ofJson, Outline.ofJson_erase, hkept, Outline.keepTags_all]

/-- Where every logical type is dropped no tag is left. -/
theorem Outline.ofJson_erase_all (document : Json) :
    Outline.ofJson (document.erase fun _ => true) = (Outline.ofJson document).untagged :=
  Outline.ofJson_erase _ document

/-! ## Schemas without tags -/

mutual

/-- The schema with the tags of its strings removed. -/
def Schema.untagged : Schema → Schema
  | .string _ => .string none
  | .record type => .record type.untagged
  | .array items => .array items.untagged
  | .map values => .map values.untagged
  | .union members => .union (untaggedMembers members)
  | s => s

def RecordType.untagged : RecordType → RecordType
  | ⟨name, fields⟩ => ⟨name, untaggedFields fields⟩

def untaggedFields : List Field → List Field
  | [] => []
  | ⟨name, position, schema⟩ :: rest => ⟨name, position, schema.untagged⟩ :: untaggedFields rest

def untaggedMembers : List Schema → List Schema
  | [] => []
  | s :: rest => s.untagged :: untaggedMembers rest

end

namespace Names

/-- The names with their definitions as they are without tags. -/
def untagged (names : Names) : Names :=
  ⟨names.known.map fun e => (e.1, e.2.untagged), names.opened⟩

@[simp] theorem lookup_untagged (names : Names) (name : String) :
    names.untagged.known.lookup name = (names.known.lookup name).map (·.untagged) := by
  obtain ⟨known, opened⟩ := names
  show (known.map _).lookup name = (known.lookup name).map _
  induction known with
  | nil => rfl
  | cons e rest ih =>
    obtain ⟨n, s⟩ := e
    rw [List.map_cons, List.lookup_cons, List.lookup_cons, ih]
    cases name == n <;> rfl

@[simp] theorem lookup?_untagged (names : Names) (full : String) :
    names.untagged.lookup? full = (names.lookup? full).map (·.map (·.untagged)) := by
  rw [lookup?, lookup?, lookup_untagged]
  show (if names.opened.contains full = true then _ else _) = _
  split
  · rfl
  · cases names.known.lookup full <;> rfl

theorem primitive?_untagged {name : String} {s : Schema} (h : primitive? name = some s) :
    s.untagged = s := by
  unfold primitive? at h
  repeat' split at h
  all_goals cases h
  all_goals rfl

theorem refer_untagged (names : Names) (space : Option String) (name : String) :
    names.untagged.refer space name = (names.refer space name).map (·.untagged) := by
  rw [refer, refer]
  cases hprimitive : primitive? name with
  | some s => exact congrArg Except.ok (primitive?_untagged hprimitive).symm
  | none =>
    dsimp only
    rw [lookup?_untagged, lookup?_untagged]
    generalize names.lookup? _ = full
    cases full with
    | some found => rfl
    | none => cases names.lookup? name <;> rfl

theorem declare_untagged (names : Names) (name : TypeName) :
    names.untagged.declare name = (names.declare name).map (·.untagged) := by
  rw [declare, declare, lookup_untagged, Option.isSome_map]
  show (if ((names.known.lookup name.full).isSome || names.opened.contains name.full) = true
    then _ else _) = _
  split <;> rfl

theorem declare_untagged_eq_ok {names names' : Names} {name : TypeName}
    (h : names.declare name = .ok names') : names.untagged.declare name = .ok names'.untagged := by
  rw [declare_untagged, h]
  rfl

end Names

namespace Outline

mutual

/-- **Without its tags a document that is accepted is accepted**, and means the same but for them. -/
theorem resolve_untagged : ∀ {o : Outline} {space : Option String} {names names' : Names}
    {s : Schema}, o.resolve space names = .ok (s, names') →
      o.untagged.resolve space names.untagged = .ok (s.untagged, names'.untagged)
  | .malformed _, _, _, _, _, h => by cases h
  | .reference name, _, _, _, _, h => by
    obtain ⟨s, hs, h⟩ := bind_eq_ok.mp h
    cases h
    refine bind_eq_ok.mpr ⟨_, ?_, rfl⟩
    rw [Names.refer_untagged, hs]
    rfl
  | .union members, _, _, _, _, h => by
    obtain ⟨⟨ss, names₁⟩, h₁, h⟩ := bind_eq_ok.mp h
    cases h
    exact bind_eq_ok.mpr ⟨_, resolveMembers_untagged h₁, rfl⟩
  | .array items, _, _, _, _, h => by
    obtain ⟨⟨t, names₁⟩, h₁, h⟩ := bind_eq_ok.mp h
    cases h
    exact bind_eq_ok.mpr ⟨_, resolve_untagged h₁, rfl⟩
  | .map values, _, _, _, _, h => by
    obtain ⟨⟨t, names₁⟩, h₁, h⟩ := bind_eq_ok.mp h
    cases h
    exact bind_eq_ok.mpr ⟨_, resolve_untagged h₁, rfl⟩
  | .record declaration fields, _, _, _, _, h => by
    obtain ⟨names₁, h₁, h⟩ := bind_eq_ok.mp h
    obtain ⟨⟨fs, names₂⟩, h₂, h⟩ := bind_eq_ok.mp h
    cases h
    exact bind_eq_ok.mpr ⟨_, Names.declare_untagged_eq_ok h₁,
      bind_eq_ok.mpr ⟨_, resolveFields_untagged h₂, rfl⟩⟩
  | .enum declaration symbols, _, _, _, _, h => by
    obtain ⟨names₁, h₁, h⟩ := bind_eq_ok.mp h
    obtain ⟨texts, h₂, h⟩ := bind_eq_ok.mp h
    cases h
    exact bind_eq_ok.mpr ⟨_, Names.declare_untagged_eq_ok h₁, bind_eq_ok.mpr ⟨_, h₂, rfl⟩⟩
  | .fixed declaration size, _, _, _, _, h => by
    obtain ⟨names₁, h₁, h⟩ := bind_eq_ok.mp h
    obtain ⟨n, h₂, h⟩ := bind_eq_ok.mp h
    cases h
    exact bind_eq_ok.mpr ⟨_, Names.declare_untagged_eq_ok h₁, bind_eq_ok.mpr ⟨_, h₂, rfl⟩⟩
  | .tagged tag base, _, _, _, _, h => by
    obtain ⟨⟨t, names₁⟩, h₁, h⟩ := bind_eq_ok.mp h
    obtain ⟨_, hcheck, h⟩ := bind_eq_ok.mp h
    cases h
    -- Only a string passes the check, and it loses whatever tag it had.
    cases t with
    | string inner =>
      have hbase := resolve_untagged h₁
      exact hbase
    | _ => cases hcheck

theorem resolveMembers_untagged : ∀ {os : List Outline} {space : Option String}
    {names names' : Names} {ss : List Schema}, resolveMembers space os names = .ok (ss, names') →
      resolveMembers space (keepTagsOfMembers (fun _ => false) os) names.untagged
        = .ok (untaggedMembers ss, names'.untagged)
  | [], _, _, _, _, h => by
    cases h
    rfl
  | o :: rest, _, _, _, _, h => by
    obtain ⟨⟨s, names₁⟩, h₁, h⟩ := bind_eq_ok.mp h
    obtain ⟨⟨ss, names₂⟩, h₂, h⟩ := bind_eq_ok.mp h
    cases h
    exact bind_eq_ok.mpr ⟨_, resolve_untagged h₁,
      bind_eq_ok.mpr ⟨_, resolveMembers_untagged h₂, rfl⟩⟩

theorem resolveFields_untagged : ∀ {fs : List FieldOutline} {record : TypeName} {position : Nat}
    {seen : List String} {names names' : Names} {fields : List Field},
      resolveFields record position seen fs names = .ok (fields, names') →
        resolveFields record position seen (keepTagsOfFields (fun _ => false) fs) names.untagged
          = .ok (untaggedFields fields, names'.untagged)
  | [], _, _, _, _, _, _, h => by
    cases h
    rfl
  | .malformed _ :: _, _, _, _, _, _, _, h => by cases h
  | .field name type :: rest, _, _, seen, _, _, _, h => by
    rw [resolveFields] at h
    rw [keepTagsOfFields, FieldOutline.keepTags, resolveFields]
    split at h
    · cases h
    next hnew =>
      obtain ⟨⟨s, names₁⟩, h₁, h⟩ := bind_eq_ok.mp h
      obtain ⟨⟨fields, names₂⟩, h₂, h⟩ := bind_eq_ok.mp h
      cases h
      rw [if_neg hnew]
      exact bind_eq_ok.mpr ⟨_, resolve_untagged h₁,
        bind_eq_ok.mpr ⟨_, resolveFields_untagged h₂, rfl⟩⟩

end

end Outline

end FieldSeal
