import FieldSeal.Proofs.Schema.Sites

/-!
# Every name in a document that is accepted

What the parser checks about names is said of the outline of a document (`Outline.definitions`,
`Outline.references`). Here it is said of the document: a definition is a site that declares a name
(`Site.declared?`), and a reference is a site whose schema is one (`Site.Refers`). The definitions are
the same ones, each as often (`Site.Resolves.declared_perm`).

A reference is listed in the outline of every site around it, and what is listed there as enclosing it
are the names that are declared on the way (`Site.exists_reference`). So a reference that is complete
stands outside of the definition that it leads to, and this definition is a site of the document.

`Schema.ofJson_sound` puts this together with `Schema.wellFormed_of_ofJson`.
-/

set_option autoImplicit false

namespace FieldSeal

namespace Outline

@[simp] theorem references_withTag (tag : Option Tag) (o : Outline) (space : Option String)
    (enclosing before : List String) :
    (withTag tag o).references space enclosing before = o.references space enclosing before := by
  cases tag <;> rfl

theorem fieldReferences_eq (space : Option String) (enclosing before : List String)
    (fields : List (String × Json)) :
    fieldReferences space enclosing before (fields.map fun f => .field f.1 (ofJson f.2))
      = memberReferences space enclosing before (ofJsons (fields.map (·.2))) := by
  induction fields generalizing before with
  | nil => rfl
  | cons f rest ih => exact congrArg (_ ++ ·) (ih _)

end Outline

namespace Site

/-- The site holds a reference of this name. -/
def Refers (p : Site) (name : String) : Prop := p.json.head? = some (.reference name)

theorem references_row {space : Option String} {enclosing before : List String}
    {inside : List Json} {q : Site} (hq : q ∈ row space before inside) :
    (Outline.ofJson q.json).references q.space enclosing q.before
      ⊆ Outline.memberReferences space enclosing before (Outline.ofJsons inside) := by
  induction inside generalizing before with
  | nil => exact absurd hq List.not_mem_nil
  | cons j rest ih =>
    rw [Outline.ofJsons, Outline.memberReferences]
    rcases List.mem_cons.mp hq with rfl | hq
    · exact List.subset_append_left _ _
    · exact List.subset_append_of_subset_right _ (ih hq)

/-- What is listed right inside is listed outside, and stands inside of what is declared there. -/
theorem references_part {p q : Site} (hq : q ∈ p.parts) (enclosing : List String) :
    (Outline.ofJson q.json).references q.space (p.declared?.toList ++ enclosing) q.before
      ⊆ (Outline.ofJson p.json).references p.space enclosing p.before := by
  cases hhead : p.json.head? with
  | none =>
    rw [parts, hhead] at hq
    exact absurd hq List.not_mem_nil
  | some head =>
    rw [Outline.ofJson_of_head hhead, Outline.references_withTag, declared?, hhead]
    rw [parts, hhead] at hq
    cases head with
    | record declaration fields =>
      rw [Head.outline, Outline.references, Outline.fieldReferences_eq]
      exact references_row hq
    | nested | array | map =>
      obtain rfl := List.mem_singleton.mp hq
      exact List.Subset.refl _
    | union members => exact references_row hq
    | reference | enum | fixed => exact absurd hq List.not_mem_nil

/-- What is listed at a site is listed at every site around it. -/
theorem references_site {p q : Site} (hq : q ∈ p.sites) (enclosing : List String) :
    ∃ around, enclosing ⊆ around ∧ (Outline.ofJson q.json).references q.space around q.before
      ⊆ (Outline.ofJson p.json).references p.space enclosing p.before := by
  induction p using Site.induction generalizing enclosing with
  | step p ih =>
    rw [sites_eq, List.mem_append, List.mem_singleton, List.mem_flatMap] at hq
    rcases hq with ⟨part, hpart, hq⟩ | rfl
    · obtain ⟨around, haround, hsub⟩ := ih part hpart hq (p.declared?.toList ++ enclosing)
      exact ⟨around, fun n hn => haround (List.mem_append_right _ hn),
        List.Subset.trans hsub (references_part hpart enclosing)⟩
    · exact ⟨enclosing, List.Subset.refl _, List.Subset.refl _⟩

theorem references_of_refers {p : Site} {name : String} (h : p.Refers name)
    (enclosing : List String) : (Outline.ofJson p.json).references p.space enclosing p.before
      = [⟨name, p.space, enclosing, p.before⟩] := by
  rw [Outline.ofJson_of_head h, Outline.references_withTag]
  rfl

/-- Every reference is listed. -/
theorem exists_reference {document p : Site} {name : String} (hp : p ∈ document.sites)
    (h : p.Refers name) (enclosing : List String) : ∃ around, enclosing ⊆ around ∧
      ⟨name, p.space, around, p.before⟩
        ∈ (Outline.ofJson document.json).references document.space enclosing document.before := by
  obtain ⟨around, haround, hsub⟩ := references_site hp enclosing
  refine ⟨around, haround, hsub ?_⟩
  rw [references_of_refers h]
  exact List.mem_singleton_self _

/-- A reference inside a definition is listed with the name of this definition around it. -/
theorem exists_reference_inside {document p q : Site} {name full : String}
    (hq : q ∈ document.sites) (hfull : q.declared? = some full) (hp : p ∈ q.sites)
    (h : p.Refers name) : ∃ around, full ∈ around ∧
      ⟨name, p.space, around, p.before⟩
        ∈ (Outline.ofJson document.json).references document.space [] document.before := by
  obtain ⟨around, -, hsub⟩ := references_site hq []
  rw [sites_eq, List.mem_append, List.mem_singleton, List.mem_flatMap] at hp
  rcases hp with ⟨part, hpart, hp⟩ | rfl
  · obtain ⟨inner, hinner, hlisted⟩ := exists_reference hp h (q.declared?.toList ++ around)
    refine ⟨inner, hinner (List.mem_append_left _ ?_), hsub (references_part hpart around hlisted)⟩
    rw [hfull]
    exact List.mem_singleton_self full
  · -- A reference declares nothing.
    rw [declared?, h] at hfull
    cases hfull

theorem before_row {space : Option String} {before : List String} {inside : List Json} {q : Site}
    (hq : q ∈ row space before inside) :
    (Outline.ofJson q.json).definitions q.space ++ q.before
      ⊆ Outline.memberDefinitions space (Outline.ofJsons inside) ++ before := by
  induction inside generalizing before with
  | nil => exact absurd hq List.not_mem_nil
  | cons j rest ih =>
    intro name hname
    rw [Outline.ofJsons, Outline.memberDefinitions]
    rcases List.mem_cons.mp hq with rfl | hq
    · simp only [List.mem_append] at hname ⊢
      exact hname.imp_left .inl
    · have hrest := ih hq hname
      simp only [List.mem_append] at hrest ⊢
      exact (or_left_comm.mp hrest).elim (fun h => .inl (.inl h)) (Or.imp_left .inr)

/-- The names at a site and before it are those at the sites around it and before them. -/
theorem before_site {p q : Site} (hq : q ∈ p.sites) :
    (Outline.ofJson q.json).definitions q.space ++ q.before
      ⊆ (Outline.ofJson p.json).definitions p.space ++ p.before := by
  induction p using Site.induction with
  | step p ih =>
    rw [sites_eq, List.mem_append, List.mem_singleton, List.mem_flatMap] at hq
    rcases hq with ⟨part, hpart, hq⟩ | rfl
    · refine List.Subset.trans (ih part hpart hq) ?_
      cases hhead : p.json.head? with
      | none =>
        rw [parts, hhead] at hpart
        exact absurd hpart List.not_mem_nil
      | some head =>
        obtain ⟨space, hparts, hdefinitions⟩ := definitions_of_head hhead
        intro name hname
        have hrow := before_row (hparts ▸ hpart) hname
        simp only [hdefinitions, List.mem_append] at hrow ⊢
        exact (or_left_comm.mp hrow).elim (fun h => .inl (.inl h)) (Or.imp_left .inr)
    · exact List.Subset.refl _

end Site

/-! ## Documents that are accepted -/

variable {document : Json} {s : Schema}

theorem Site.resolves_of_ofJson (h : Schema.ofJson document = .ok s) :
    (Site.root document).Resolves := by
  obtain ⟨⟨_, names⟩, hrun, rfl⟩ := map_eq_ok.mp h
  exact ⟨_, _, Outline.resolve_untagged hrun⟩

/-- The names that are declared at the sites of the document are the definitions of its outline. -/
theorem Site.root_declared_perm (h : Schema.ofJson document = .ok s) :
    ((Site.root document).sites.filterMap Site.declared?).Perm
      ((Outline.ofJson document).definitions none) :=
  (Site.resolves_of_ofJson h).declared_perm

/-- A reference leads to a name that is declared at a site, and stands nowhere inside of this site. -/
theorem Site.exists_target (h : Schema.ofJson document = .ok s) {p : Site} {name : String}
    (hp : p ∈ (Site.root document).sites) (hname : p.Refers name)
    (hprimitive : Names.primitive? name = none) :
    ∃ full, p.target? name = some full ∧
      ∃ q ∈ (Site.root document).sites, q.declared? = some full ∧ p ∉ q.sites := by
  obtain ⟨names, -, hscoped⟩ := Schema.exists_names_of_ofJson h
  -- Where a reference leads does not depend on what is around it.
  have hcomplete : ∀ around, ⟨name, p.space, around, p.before⟩
      ∈ (Outline.ofJson document).references none [] [] →
        ∃ full, p.target? name = some full ∧ full ∉ around := by
    intro around hlisted
    have htarget : (Reference.mk name p.space around p.before).target? = p.target? name := by
      rw [Site.target?, hprimitive]
      rfl
    rw [← htarget]
    exact hscoped.complete _ hlisted hprimitive
  obtain ⟨around, -, hlisted⟩ := Site.exists_reference hp hname []
  obtain ⟨full, hfull, -⟩ := hcomplete around hlisted
  have hdefined : full ∈ (Outline.ofJson document).definitions none := by
    have hbefore : full ∈ p.before := by
      rw [Site.target?, hprimitive] at hfull
      simpa using List.find?_some hfull
    simpa [Site.root] using Site.before_site hp (List.mem_append_right _ hbefore)
  obtain ⟨q, hq, hdeclared⟩ :=
    List.mem_filterMap.mp ((Site.root_declared_perm h).mem_iff.mpr hdefined)
  refine ⟨full, hfull, q, hq, hdeclared, fun hinside => ?_⟩
  obtain ⟨around', hin, hlisted'⟩ := Site.exists_reference_inside hq hdeclared hinside hname
  obtain ⟨full', hfull', hout⟩ := hcomplete around' hlisted'
  obtain rfl := Option.some.inj (hfull.symm.trans hfull')
  exact hout hin

/-- **Every schema that the parser accepts is well formed.** In each record the fields are in place
and have different names; nodes of one name are the same, and it is defined in the document; no type
is inside itself. And of the document: no name is defined twice, and every reference leads to a
definition that is complete where the reference stands. The definitions are the sites that declare a
name, and the definition that a reference leads to is a site that the reference is not inside of. -/
theorem Schema.ofJson_sound {document : Json} {s : Schema} (h : Schema.ofJson document = .ok s) :
    (∀ type, Schema.record type ∈ s.nodes →
      (∀ (i : Nat) (f : Field), type.fields[i]? = some f → f.position = i) ∧
        (type.fields.map (·.name)).Nodup) ∧
    (∀ x ∈ s.nodes, ∀ y ∈ s.nodes, ∀ name,
      x.fullName? = some name → y.fullName? = some name → x = y) ∧
    (∀ x ∈ s.nodes, ∀ name, x.fullName? = some name →
      name ∈ (Outline.ofJson document).definitions none) ∧
    (∀ x ∈ s.nodes, ∀ name, x.fullName? = some name →
      ∀ y ∈ x.nodesBelow, y.fullName? ≠ some name) ∧
    ((Outline.ofJson document).definitions none).Nodup ∧
    (∀ r ∈ (Outline.ofJson document).references none [] [],
      Names.primitive? r.name = none →
        ∃ target, r.target? = some target ∧ target ∉ r.enclosing) ∧
    ((Site.root document).sites.filterMap Site.declared?).Perm
      ((Outline.ofJson document).definitions none) ∧
    ∀ p ∈ (Site.root document).sites, ∀ name, p.json.head? = some (.reference name) →
      Names.primitive? name = none → ∃ full, p.target? name = some full ∧
        ∃ q ∈ (Site.root document).sites, q.declared? = some full ∧ p ∉ q.sites := by
  have hs := Schema.wellFormed_of_ofJson h
  obtain ⟨names, -, hscoped⟩ := exists_names_of_ofJson h
  refine ⟨?_, hs.oneDefinition, fun x hx name => fullName_mem_definitions h hx, ?_, hscoped.nodup,
    hscoped.complete, Site.root_declared_perm h, fun p hp name => Site.exists_target h hp⟩
  · intro type ht
    exact ⟨(hs.records type ht).positioned, (hs.records type ht).distinct⟩
  · intro x hx name hname y hy
    exact hs.not_below_itself hx hy hname

/-- A bare reference in a namespace, to a definition beside it in the same record. -/
theorem Schema.ofJson_sound_line :
    let document : Json := .object [("fields", .array [
        .object [("name", .string "from"), ("type", .object [("name", .string "Point"),
          ("symbols", .array [.string "near", .string "far"]), ("type", .string "enum")])],
        .object [("name", .string "to"), ("type", .string "Point")]]),
      ("name", .string "Line"), ("namespace", .string "geo"), ("type", .string "record")]
    let point : Schema := .enum ⟨⟨"Point", some "geo"⟩, ["near", "far"]⟩
    let line : Schema := .record ⟨⟨"Line", some "geo"⟩, [⟨"from", 0, point⟩, ⟨"to", 1, point⟩]⟩
    let reference : Site := ⟨some "geo", ["geo.Point", "geo.Line"], .string "Point"⟩
    Schema.ofJson document = .ok line ∧
      ((Outline.ofJson document).definitions none).Nodup ∧
      (Outline.ofJson document).references none [] []
        = [⟨"Point", some "geo", ["geo.Line"], ["geo.Point", "geo.Line"]⟩] ∧
      (Reference.mk "Point" (some "geo") ["geo.Line"] ["geo.Point", "geo.Line"]).target?
        = some "geo.Point" ∧
      ∃ q ∈ (Site.root document).sites, q.declared? = some "geo.Point" ∧ reference ∉ q.sites := by
  intro document point line reference
  have h : Schema.ofJson document = .ok line := by rfl
  obtain ⟨-, -, -, -, hdefinitions, -, -, hreferences⟩ := Schema.ofJson_sound h
  have hpart : reference ∈ (Site.root document).parts := List.mem_cons_of_mem _ List.mem_cons_self
  obtain ⟨full, htarget, hq⟩ := hreferences reference
    (Site.sites_subset hpart reference.mem_sites_self) "Point" rfl (by decide)
  obtain rfl : full = "geo.Point" := by
    have hline : reference.target? "Point" = some "geo.Point" := by decide
    exact Option.some.inj (htarget.symm.trans hline)
  exact ⟨h, hdefinitions, by rfl, by decide, hq⟩

end FieldSeal
