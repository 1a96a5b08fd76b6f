import FieldSeal.Table

/-!
# What a table has

A table is made by entering entries one after the other, and two kinds of entries come out of it as
they went in: entries that are in ascending order are a table already, and of entries with different
keys each is found under its key.

`Gathers` says of any entries what the table of them is, without entering them: an ascending table
is known from its members, and its members are the entries with no later one for their key.
-/

set_option autoImplicit false

namespace FieldSeal.Table

variable {α : Type}

/-! ## Entries in ascending order -/

theorem put_last {key : String} {a : α} {t : Table α} (h : ∀ e ∈ t, e.1 < key) :
    put key a t = t ++ [(key, a)] := by
  induction t with
  | nil => rfl
  | cons e rest ih =>
    obtain ⟨k, b⟩ := e
    have hk : k < key := h (k, b) List.mem_cons_self
    have hne : ¬ key = k := by
      intro he
      rw [he] at hk
      exact String.lt_irrefl k hk
    have hrest := ih fun e he => h e (List.mem_cons_of_mem _ he)
    rw [put, if_neg (String.lt_asymm hk), if_neg hne, hrest, List.cons_append]

theorem foldl_put : ∀ {entries t : Table α}, Ascending (t ++ entries) →
    entries.foldl (fun t e => put e.1 e.2 t) t = t ++ entries
  | [], t, _ => by simp
  | (key, a) :: rest, t, h => by
    have hlast : ∀ e ∈ t, e.1 < key := fun e he =>
      (List.pairwise_append.mp h).2.2 e he (key, a) List.mem_cons_self
    rw [List.foldl_cons, put_last hlast, foldl_put (by simpa using h)]
    simp

theorem ofList_ascending {entries : Table α} (h : Ascending entries) :
    ofList entries = entries :=
  foldl_put (t := []) h

/-! ## Entries with different keys -/

theorem get?_put (key asked : String) (a : α) (t : Table α) :
    get? asked (put key a t) = if key = asked then some a else get? asked t := by
  induction t with
  | nil => rfl
  | cons e rest ih =>
    obtain ⟨k, b⟩ := e
    rw [put]
    split
    · rfl
    · split
      next he =>
        subst he
        simp only [get?]
        split <;> rfl
      next hne =>
        simp only [get?, ih]
        by_cases hk : k = asked
        · rw [if_pos hk, if_pos hk, if_neg fun h => hne (h.trans hk.symm)]
        · rw [if_neg hk, if_neg hk]

theorem get?_foldl_put {key : String} : ∀ {entries t : Table α}, (∀ e ∈ entries, e.1 ≠ key) →
    get? key (entries.foldl (fun t e => put e.1 e.2 t) t) = get? key t
  | [], _, _ => rfl
  | e :: rest, t, h => by
    rw [List.foldl_cons, get?_foldl_put fun e he => h e (List.mem_cons_of_mem _ he), get?_put,
      if_neg (h e List.mem_cons_self)]

/-- An entry is found under its key when no later one has the same key. -/
theorem get?_ofList {key : String} {a : α} {entries : Table α} (h : (entries.map (·.1)).Nodup)
    (hmem : (key, a) ∈ entries) : get? key (ofList entries) = some a := by
  obtain ⟨before, after, rfl⟩ := List.append_of_mem hmem
  rw [List.map_append, List.map_cons, List.nodup_append] at h
  have hafter : ∀ e ∈ after, e.1 ≠ key := by
    intro e he hk
    exact (List.nodup_cons.mp h.2.1).1 (List.mem_map.mpr ⟨e, he, hk⟩)
  rw [ofList, List.foldl_append, List.foldl_cons, get?_foldl_put hafter, get?_put, if_pos rfl]

/-! ## The order of a table -/

/-- A key that comes after another one stays after it, whatever else is entered. -/
theorem lt_of_mem_put {key : String} {a : α} {k : String} {t : Table α} (hk : k < key)
    (ht : ∀ e ∈ t, k < e.1) : ∀ e ∈ put key a t, k < e.1 := by
  induction t with
  | nil =>
    intro e he
    rw [put, List.mem_singleton] at he
    rw [he]
    exact hk
  | cons first rest ih =>
    obtain ⟨k', b⟩ := first
    have hfirst : k < k' := ht (k', b) List.mem_cons_self
    have hrest : ∀ e ∈ rest, k < e.1 := fun e he => ht e (List.mem_cons_of_mem _ he)
    intro e he
    rw [put] at he
    split at he
    · rcases List.mem_cons.mp he with rfl | he
      · exact hk
      · exact ht e he
    · split at he
      · rcases List.mem_cons.mp he with rfl | he
        · exact hk
        · exact hrest e he
      · rcases List.mem_cons.mp he with rfl | he
        · exact hfirst
        · exact ih hrest e he

theorem ascending_put (key : String) (a : α) {t : Table α} (h : Ascending t) :
    Ascending (put key a t) := by
  induction t with
  | nil => exact List.pairwise_singleton _ _
  | cons e rest ih =>
    obtain ⟨k, b⟩ := e
    have hpair := List.pairwise_cons.mp h
    rw [put]
    split
    next hlt =>
      refine List.pairwise_cons.mpr ⟨?_, h⟩
      intro e he
      rcases List.mem_cons.mp he with rfl | he
      · exact hlt
      · exact String.lt_trans hlt (hpair.1 e he)
    next hlt =>
      split
      next heq =>
        subst heq
        exact List.pairwise_cons.mpr hpair
      next hne =>
        have hk : k < key := Std.lt_of_le_of_ne (String.not_lt.mp hlt) (Ne.symm hne)
        exact List.pairwise_cons.mpr ⟨lt_of_mem_put hk hpair.1, ih hpair.2⟩

theorem ascending_foldl_put {entries t : Table α} (h : Ascending t) :
    Ascending (entries.foldl (fun t e => put e.1 e.2 t) t) := by
  induction entries generalizing t with
  | nil => exact h
  | cons e rest ih => exact ih (ascending_put e.1 e.2 h)

theorem ascending_ofList (entries : List (String × α)) : Ascending (ofList entries) :=
  ascending_foldl_put List.Pairwise.nil

theorem length_put_le (key : String) (a : α) (t : Table α) :
    (put key a t).length ≤ t.length + 1 := by
  induction t with
  | nil => exact Nat.le_refl 1
  | cons e rest ih =>
    obtain ⟨k, b⟩ := e
    rw [put]
    split
    · exact Nat.le_refl _
    · split
      · simp
      · simpa using ih

/-- There are not more keys than entries. -/
theorem length_ofList_le (entries : List (String × α)) :
    (ofList entries).length ≤ entries.length := by
  have hfold : ∀ t : Table α, (entries.foldl (fun t e => put e.1 e.2 t) t).length
      ≤ entries.length + t.length := by
    induction entries with
    | nil => simp
    | cons e rest ih =>
      intro t
      have hput := length_put_le e.1 e.2 t
      have hrest := ih (put e.1 e.2 t)
      rw [List.foldl_cons, List.length_cons]
      omega
  exact hfold []

/-- An ascending table is known from its members. -/
theorem ascending_ext {t t' : Table α} (h : Ascending t) (h' : Ascending t')
    (hmem : ∀ key a, (key, a) ∈ t ↔ (key, a) ∈ t') : t = t' := by
  have nodup {t : Table α} (h : Ascending t) : t.Nodup := by
    apply List.Pairwise.imp _ h
    intro a b hab he
    rw [he] at hab
    exact String.lt_irrefl _ hab
  have hperm : t.Perm t' :=
    (List.perm_ext_iff_of_nodup (nodup h) (nodup h')).mpr fun e => hmem e.1 e.2
  apply List.Perm.eq_of_pairwise _ h h' hperm
  intro a b _ _ hab hba
  exact absurd hba (String.lt_asymm hab)

/-! ## The members of a table -/

theorem mem_of_get? {key : String} {a : α} {t : Table α} (h : get? key t = some a) :
    (key, a) ∈ t := by
  induction t with
  | nil => cases h
  | cons e rest ih =>
    obtain ⟨k, b⟩ := e
    rw [get?] at h
    split at h
    next hk =>
      cases h
      rw [hk]
      exact List.mem_cons_self
    next => exact List.mem_cons_of_mem _ (ih h)

/-- In an ascending table each member is found. -/
theorem get?_eq_some {key : String} {a : α} {t : Table α} (h : Ascending t) :
    get? key t = some a ↔ (key, a) ∈ t := by
  refine ⟨mem_of_get?, fun hm => ?_⟩
  induction t with
  | nil => cases hm
  | cons e rest ih =>
    obtain ⟨k, b⟩ := e
    obtain ⟨hfirst, hrest⟩ := List.pairwise_cons.mp h
    rw [get?]
    rcases List.mem_cons.mp hm with he | hm
    · rw [Prod.mk.injEq] at he
      rw [if_pos he.1.symm, he.2]
    · have hne : k ≠ key := by
        intro hk
        have hlt : k < key := hfirst (key, a) hm
        rw [hk] at hlt
        exact String.lt_irrefl _ hlt
      rw [if_neg hne, ih hrest hm]

theorem mem_put {key k : String} {a b : α} {t : Table α} (h : Ascending t) :
    (k, b) ∈ put key a t ↔ (k = key ∧ b = a) ∨ (k ≠ key ∧ (k, b) ∈ t) := by
  rw [← get?_eq_some (ascending_put key a h), ← get?_eq_some h, get?_put]
  by_cases hk : key = k
  · rw [if_pos hk]
    simp [hk, eq_comm]
  · rw [if_neg hk]
    simp [Ne.symm hk]

/-- The value is the last one that was entered for the key. -/
def LastEntered (entries : List (String × α)) (key : String) (a : α) : Prop :=
  ∃ before after, entries = before ++ (key, a) :: after ∧ ∀ e ∈ after, e.1 ≠ key

theorem lastEntered_cons {e : String × α} {rest : List (String × α)} {key : String} {a : α} :
    LastEntered (e :: rest) key a
      ↔ LastEntered rest key a ∨ (e = (key, a) ∧ ∀ e ∈ rest, e.1 ≠ key) := by
  constructor
  · rintro ⟨before, after, heq, hafter⟩
    cases before with
    | nil =>
      rw [List.nil_append, List.cons.injEq] at heq
      obtain ⟨rfl, rfl⟩ := heq
      exact .inr ⟨rfl, hafter⟩
    | cons first before =>
      rw [List.cons_append, List.cons.injEq] at heq
      exact .inl ⟨before, after, heq.2, hafter⟩
  · rintro (⟨before, after, heq, hafter⟩ | ⟨rfl, hrest⟩)
    · exact ⟨e :: before, after, by rw [heq, List.cons_append], hafter⟩
    · exact ⟨[], rest, rfl, hrest⟩

theorem mem_foldl_put {key : String} {a : α} {entries t : Table α} (h : Ascending t) :
    (key, a) ∈ entries.foldl (fun t e => put e.1 e.2 t) t
      ↔ LastEntered entries key a ∨ ((∀ e ∈ entries, e.1 ≠ key) ∧ (key, a) ∈ t) := by
  induction entries generalizing t with
  | nil =>
    have hnone : ¬ LastEntered [] key a := by
      rintro ⟨before, after, heq, -⟩
      cases before <;> cases heq
    simp [hnone]
  | cons e rest ih =>
    obtain ⟨k, b⟩ := e
    rw [List.foldl_cons, ih (ascending_put k b h), mem_put h, lastEntered_cons,
      List.forall_mem_cons, Prod.mk.injEq]
    constructor
    · rintro (hlast | ⟨hrest, ⟨rfl, rfl⟩ | ⟨hk, hm⟩⟩)
      · exact .inl (.inl hlast)
      · exact .inl (.inr ⟨⟨rfl, rfl⟩, hrest⟩)
      · exact .inr ⟨⟨Ne.symm hk, hrest⟩, hm⟩
    · rintro ((hlast | ⟨⟨rfl, rfl⟩, hrest⟩) | ⟨⟨hk, hrest⟩, hm⟩)
      · exact .inl hlast
      · exact .inr ⟨hrest, .inl ⟨rfl, rfl⟩⟩
      · exact .inr ⟨hrest, .inr ⟨Ne.symm hk, hm⟩⟩

/-- The table has each key of the entries once, in ascending order, with the last value entered for
it. -/
structure Gathers (entries : List (String × α)) (t : Table α) : Prop where
  ascending : Ascending t
  mem_iff : ∀ key a, (key, a) ∈ t ↔ LastEntered entries key a

theorem gathers_ofList (entries : List (String × α)) : Gathers entries (ofList entries) where
  ascending := ascending_ofList entries
  mem_iff key a := by
    rw [ofList, mem_foldl_put List.Pairwise.nil]
    simp

theorem gathers_iff {entries : List (String × α)} {t : Table α} :
    Gathers entries t ↔ t = ofList entries := by
  constructor
  · intro h
    have hlist := gathers_ofList entries
    exact ascending_ext h.ascending hlist.ascending fun key a =>
      (h.mem_iff key a).trans (hlist.mem_iff key a).symm
  · rintro rfl
    exact gathers_ofList entries

end FieldSeal.Table
