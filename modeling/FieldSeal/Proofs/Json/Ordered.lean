import FieldSeal.Json.Reader
import FieldSeal.Proofs.Table

/-!
# Documents that have been read are in order

The objects of a tree are tables, and `Json.Ordered` says that they are in ascending key order all
the way down. A reader enters the members of an object one after the other, so what it makes of a
text is in order whatever the order and however often a key is there.
-/

set_option autoImplicit false

namespace FieldSeal

/-- A table has no member that was not entered. -/
theorem Table.mem_of_mem_ofList {α : Type} {e : String × α} {entries : List (String × α)}
    (h : e ∈ ofList entries) : e ∈ entries := by
  obtain ⟨before, later, rfl, -⟩ := ((gathers_ofList entries).mem_iff e.1 e.2).mp h
  exact List.mem_append_right _ List.mem_cons_self

namespace Json

@[simp] theorem orderedItems_iff {js : List Json} : OrderedItems js ↔ ∀ j ∈ js, j.Ordered := by
  induction js with
  | nil => simp [OrderedItems]
  | cons j rest ih => simp [OrderedItems, ih]

@[simp] theorem orderedMembers_iff {es : List (String × Json)} :
    OrderedMembers es ↔ ∀ e ∈ es, e.2.Ordered := by
  induction es with
  | nil => simp [OrderedMembers]
  | cons e rest ih =>
    obtain ⟨key, j⟩ := e
    simp [OrderedMembers, ih]

theorem Ordered.member {members : Table Json} (h : (Json.object members).Ordered) {key : String}
    {j : Json} (hj : Table.get? key members = some j) : j.Ordered := by
  rw [Ordered, orderedMembers_iff] at h
  exact h.2 _ (Table.mem_of_get? hj)

/-! ## What is read -/

theorem ordered_ofList {es : List (String × Json)} (h : ∀ e ∈ es, e.2.Ordered) :
    (Json.object (Table.ofList es)).Ordered := by
  rw [Ordered, orderedMembers_iff]
  exact ⟨Table.ascending_ofList es, fun e he => h e (Table.mem_of_mem_ofList he)⟩

mutual

theorem ordered_toJson? : ∀ (w : Written) (depth : Nat) {j : Json}, w.toJson? depth = some j →
    j.Ordered
  | .null, _, j, h => by
    cases h
    exact trivial
  | .bool _, _, j, h => by
    cases h
    exact trivial
  | .numeral n, _, j, h => by
    obtain ⟨number, -, rfl⟩ := Option.map_eq_some_iff.mp h
    exact trivial
  | .text pieces, _, j, h => by
    obtain ⟨text, -, rfl⟩ := Option.map_eq_some_iff.mp h
    exact trivial
  | .array items, depth, j, h => by
    cases depth with
    | zero => cases h
    | succ depth =>
      obtain ⟨js, hjs, rfl⟩ := Option.map_eq_some_iff.mp h
      rw [Ordered, orderedItems_iff]
      exact ordered_itemsToJson? items depth hjs
  | .object members, depth, j, h => by
    cases depth with
    | zero => cases h
    | succ depth =>
      obtain ⟨es, hes, rfl⟩ := Option.map_eq_some_iff.mp h
      exact ordered_ofList (ordered_membersToJson? members depth hes)

theorem ordered_itemsToJson? : ∀ (ws : List Written) (depth : Nat) {js : List Json},
    Written.itemsToJson? depth ws = some js → ∀ j ∈ js, j.Ordered
  | [], _, js, h => by
    cases h
    exact fun _ hj => absurd hj List.not_mem_nil
  | w :: rest, depth, js, h => by
    obtain ⟨j, hj, h⟩ := Option.bind_eq_some_iff.mp h
    obtain ⟨others, hothers, h⟩ := Option.bind_eq_some_iff.mp h
    cases h
    exact List.forall_mem_cons.mpr
      ⟨ordered_toJson? w depth hj, ordered_itemsToJson? rest depth hothers⟩

theorem ordered_membersToJson? : ∀ (ws : List (List Piece × Written)) (depth : Nat)
    {es : List (String × Json)}, Written.membersToJson? depth ws = some es →
      ∀ e ∈ es, e.2.Ordered
  | [], _, es, h => by
    cases h
    exact fun _ he => absurd he List.not_mem_nil
  | (key, w) :: rest, depth, es, h => by
    obtain ⟨text, -, h⟩ := Option.bind_eq_some_iff.mp h
    obtain ⟨j, hj, h⟩ := Option.bind_eq_some_iff.mp h
    obtain ⟨others, hothers, h⟩ := Option.bind_eq_some_iff.mp h
    cases h
    exact List.forall_mem_cons.mpr
      ⟨ordered_toJson? w depth hj, ordered_membersToJson? rest depth hothers⟩

end

/-- **A document that has been read from a text is in order.** -/
theorem ordered_of_ofText? {text : String} {j : Json} (h : ofText? text = some j) : j.Ordered := by
  obtain ⟨w, -, hw⟩ := Option.bind_eq_some_iff.mp h
  exact ordered_toJson? w maxDepth hw

end Json

end FieldSeal
