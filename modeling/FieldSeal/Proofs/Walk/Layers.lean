import FieldSeal.Proofs.Walk.Turns
import FieldSeal.Proofs.Walk.Visits
import Mathlib.Data.List.Forall2

/-!
# Sealing several times and opening as often

Encrypting a value several times does not treat its slots alike. A text under the inline tag takes
a further layer with every run, since nothing shows that it has one already. A text under the typed
tag takes one layer in the first run and is passed over from then on, and on the way back it is
opened in the first run and passed over again. So half-way a value may have inline texts under
three layers beside typed texts under none, and no equation between values describes the 2n states
of the round trip.

`Slot.Under` does: what stands in a slot now is what stood there first, under at most the layers
that are still to be taken off. Encrypting goes up one in it, decrypting goes down one and cannot
fail, and at the bottom is the slot as it was. A walk keeps the blank of a value, so this lifts
from slots to values without a second look at the schema, and **opening gives back what was
sealed** (`Schema.open_all_of_seal_all`), whether or not the value fits the schema.
-/

set_option autoImplicit false

namespace FieldSeal

/-- The value of a walk that did not fail. -/
def Outcome.result {α : Type} (o : Outcome α) : Except CipherError α :=
  match o.failure with
  | none => .ok o.value
  | some e => .error e

theorem Outcome.result_eq_ok {α : Type} {o : Outcome α} {a : α} :
    o.result = .ok a ↔ o.failure = none ∧ o.value = a := by
  rw [Outcome.result]
  cases o.failure <;> simp

/-- One walk after the other along the same schema, each with an index of its own, up to the first
that fails. -/
def Schema.runAll (s : Schema) : List (Walk × FieldIndex) → Value → Except CipherError Value
  | [], v => .ok v
  | (w, index) :: rest, v => (w.run s v index).result.bind (s.runAll rest)

/-! ## Values that have not been encrypted -/

/-- No text in the value is marked as encrypted. -/
def Value.Unencrypted (v : Value) : Prop := ∀ text, Value.tagged (.encrypted text) ∉ v.parts

/-! ## Layers -/

variable {D : String → Except CipherError String} {n : Nat}

/-- Opening the first text the given number of times gives the second. -/
inductive Peels (D : String → Except CipherError String) : Nat → String → String → Prop
  | bare (text : String) : Peels D 0 text text
  | layer {n : Nat} {text inner core : String} (h : D text = .ok inner)
      (hp : Peels D n inner core) : Peels D (n + 1) text core

/-- What stands in the second slot is what stands in the first, under at most the given number of
layers: under all of them at the inline tag, under one or none at the typed tag. -/
inductive Slot.Under (D : String → Except CipherError String) : Nat → Slot → Slot → Prop
  | inline {n : Nat} {text sealed : String} (h : Peels D n sealed text) :
      Under D n (.inline text) (.inline sealed)
  | passed {n : Nat} (text : String) : Under D n (.typed (.plain text)) (.typed (.plain text))
  | marked {n : Nat} {text sealed : String} (h : D sealed = .ok text) :
      Under D (n + 1) (.typed (.plain text)) (.typed (.encrypted sealed))

namespace Slot.Under

theorem refl {c : Slot} (h : ∀ text, c ≠ .typed (.encrypted text)) : Under D 0 c c := by
  cases c with
  | inline text => exact .inline (.bare text)
  | typed t =>
    cases t with
    | plain text => exact .passed text
    | encrypted text => exact absurd rfl (h text)

theorem eq_of_zero {c c' : Slot} (h : Under D 0 c c') : c' = c := by
  cases h with
  | inline h => cases h; rfl
  | passed => rfl

/-- Encrypting puts on one layer. -/
theorem turn_encrypt {E : Leaf} (hE : ∀ i text sealed, E i text = .ok sealed → D sealed = .ok text)
    {c c' d : Slot} (h : Under D n c c') {i : Nat} (ht : Walk.turn ⟨.encrypt, E⟩ i c' = .ok d) :
    Under D (n + 1) c d := by
  cases h with
  | inline hp =>
    simp only [Walk.turn, handed?, tolerant] at ht
    split at ht
    next sealed hs =>
      cases ht
      exact .inline (.layer (hE _ _ _ hs) hp)
    next => simp at ht
  | passed text =>
    simp only [Walk.turn, handed?, tolerant] at ht
    split at ht
    next sealed hs =>
      cases ht
      exact .marked (hE _ _ _ hs)
    next => simp at ht
  | marked hD =>
    -- Passed over: there is room for one layer more, and it stays empty.
    simp only [Walk.turn, handed?, Except.ok.injEq] at ht
    subst ht
    exact .marked hD

/-- Decrypting takes off one layer, and does not fail. -/
theorem turn_decrypt {c c' : Slot} (h : Under D (n + 1) c c') (i : Nat) :
    ∃ d, Walk.turn ⟨.decrypt, fun _ => D⟩ i c' = .ok d ∧ Under D n c d := by
  cases h with
  | inline hp =>
    cases hp with
    | layer hD hp => exact ⟨_, by simp only [Walk.turn, handed?, hD]; rfl, .inline hp⟩
  | passed text => exact ⟨_, rfl, .passed text⟩
  | marked hD => exact ⟨_, by simp only [Walk.turn, handed?, hD]; rfl, .passed _⟩

end Slot.Under

/-! ## From slots to values -/

theorem Walk.turnAll_encrypt_under {E : Leaf}
    (hE : ∀ i text sealed, E i text = .ok sealed → D sealed = .ok text) {cs cs' : List Slot}
    (h : List.Forall₂ (Slot.Under D n) cs cs') {calls : List String}
    (hf : (Walk.turnAll ⟨.encrypt, E⟩ cs' calls).failure = none) :
    List.Forall₂ (Slot.Under D (n + 1)) cs (Walk.turnAll ⟨.encrypt, E⟩ cs' calls).slots := by
  induction h generalizing calls with
  | nil => exact .nil
  | cons hc _ ih =>
    rw [Walk.turnAll] at hf ⊢
    split at hf
    next ht => exact .cons (hc.turn_encrypt hE ht) (ih hf)
    next => simp at hf

theorem Walk.turnAll_decrypt_under {cs cs' : List Slot}
    (h : List.Forall₂ (Slot.Under D (n + 1)) cs cs') (calls : List String) :
    (Walk.turnAll ⟨.decrypt, fun _ => D⟩ cs' calls).failure = none ∧
      List.Forall₂ (Slot.Under D n) cs (Walk.turnAll ⟨.decrypt, fun _ => D⟩ cs' calls).slots := by
  induction h generalizing calls with
  | nil => exact ⟨rfl, .nil⟩
  | cons hc _ ih =>
    rw [Walk.turnAll]
    obtain ⟨d, ht, hd⟩ := hc.turn_decrypt calls.length
    rw [ht]
    exact ⟨(ih _).1, .cons hd (ih _).2⟩

/-- The second value is the first, each slot of it under at most the given number of layers. -/
structure Schema.Under (D : String → Except CipherError String) (s : Schema) (n : Nat)
    (v w : Value) : Prop where
  blank_eq : s.blank w = s.blank v
  slots : List.Forall₂ (Slot.Under D n) (s.slots v) (s.slots w)

namespace Schema.Under

variable {s : Schema} {v w : Value}

theorem refl (h : v.Unencrypted) : s.Under D 0 v v := by
  refine ⟨rfl, List.forall₂_same.mpr fun c hc => .refl ?_⟩
  rintro text rfl
  exact h text (Schema.part_of_mem_slots hc)

theorem eq_of_zero (h : s.Under D 0 v w) : w = v := by
  refine Schema.eq_of_blank_eq s w v h.blank_eq ?_
  have hs := h.slots.imp fun _ _ hc => hc.eq_of_zero.symm
  exact (List.forall₂_eq_eq_eq ▸ hs : s.slots v = s.slots w).symm

theorem run_encrypt {E : Leaf} (hE : ∀ i text sealed, E i text = .ok sealed → D sealed = .ok text)
    (h : s.Under D n v w) {index : FieldIndex} (hi : index.Sound) {u : Value}
    (hu : (Walk.run ⟨.encrypt, E⟩ s w index).result = .ok u) : s.Under D (n + 1) v u := by
  have hw := Walk.run_follows (w := ⟨.encrypt, E⟩) hi s w
  obtain ⟨hf, rfl⟩ := Outcome.result_eq_ok.mp hu
  refine ⟨hw.blank_eq.trans h.blank_eq, ?_⟩
  rw [hw.slots_eq]
  exact Walk.turnAll_encrypt_under hE h.slots (hw.failure_eq ▸ hf)

theorem run_decrypt (h : s.Under D (n + 1) v w) {index : FieldIndex} (hi : index.Sound) :
    ∃ u, (Walk.run ⟨.decrypt, fun _ => D⟩ s w index).result = .ok u ∧ s.Under D n v u := by
  have hw := Walk.run_follows (w := ⟨.decrypt, fun _ => D⟩) hi s w
  obtain ⟨hf, hs⟩ := Walk.turnAll_decrypt_under h.slots []
  have hresult := Outcome.result_eq_ok.mpr ⟨hw.failure_eq.trans hf, rfl⟩
  refine ⟨_, hresult, hw.blank_eq.trans h.blank_eq, ?_⟩
  rw [hw.slots_eq]
  exact hs

/-- Runs that encrypt put on a layer each. -/
theorem runAll_encrypt (seals : List (Leaf × FieldIndex))
    (hE : ∀ p ∈ seals, ∀ i text sealed, p.1 i text = .ok sealed → D sealed = .ok text)
    (hi : ∀ p ∈ seals, p.2.Sound) (h : s.Under D n v w) {u : Value}
    (hu : s.runAll (seals.map fun p => (⟨.encrypt, p.1⟩, p.2)) w = .ok u) :
    s.Under D (n + seals.length) v u := by
  induction seals generalizing n w with
  | nil =>
    cases hu
    exact h
  | cons p rest ih =>
    rw [List.map_cons, Schema.runAll] at hu
    cases hr : (Walk.run ⟨.encrypt, p.1⟩ s w p.2).result with
    | error e =>
      rw [hr] at hu
      exact absurd hu (by simp [Except.bind])
    | ok x =>
      rw [hr] at hu
      have hx := h.run_encrypt (hE p List.mem_cons_self) (hi p List.mem_cons_self) hr
      have hrest := ih (fun q hq => hE q (List.mem_cons_of_mem _ hq))
        (fun q hq => hi q (List.mem_cons_of_mem _ hq)) hx hu
      rwa [Nat.add_right_comm, Nat.add_assoc, ← List.length_cons] at hrest

/-- As many runs that decrypt as there are layers succeed and take them all off. -/
theorem runAll_decrypt (opens : List FieldIndex) (hi : ∀ index ∈ opens, index.Sound)
    (h : s.Under D opens.length v w) :
    s.runAll (opens.map fun index => (⟨.decrypt, fun _ => D⟩, index)) w = .ok v := by
  induction opens generalizing w with
  | nil => rw [h.eq_of_zero]; rfl
  | cons index rest ih =>
    obtain ⟨x, hx, hu⟩ := h.run_decrypt (hi index List.mem_cons_self)
    rw [List.map_cons, Schema.runAll, hx]
    exact ih (fun j hj => hi j (List.mem_cons_of_mem _ hj)) hu

end Schema.Under

/-- **Opening a value as often as it was sealed gives it back**: if runs that encrypt all succeed,
as many runs that decrypt all succeed and end at the value that was there before. Each run may have
another leaf function and another index, and the value need not fit the schema. -/
theorem Schema.open_all_of_seal_all (s : Schema) {v w : Value} (hv : v.Unencrypted)
    (seals : List (Leaf × FieldIndex)) (opens : List FieldIndex)
    (hlen : opens.length = seals.length)
    (hD : ∀ p ∈ seals, ∀ i text sealed, p.1 i text = .ok sealed → D sealed = .ok text)
    (hseals : ∀ p ∈ seals, p.2.Reachable) (hopens : ∀ index ∈ opens, index.Reachable)
    (h : s.runAll (seals.map fun p => (⟨.encrypt, p.1⟩, p.2)) v = .ok w) :
    s.runAll (opens.map fun index => (⟨.decrypt, fun _ => D⟩, index)) w = .ok v := by
  have hu := (Schema.Under.refl (D := D) (s := s) hv).runAll_encrypt seals hD
    (fun p hp => (hseals p hp).sound) h
  rw [Nat.zero_add, ← hlen] at hu
  exact hu.runAll_decrypt opens fun index hindex => (hopens index hindex).sound

/-- Puts a letter in front of a text, another one at every call of a walk. -/
def stamp : Leaf := fun i text => .ok (String.ofList (Char.ofNat (65 + i) :: text.toList))

def unstamp (text : String) : Except CipherError String :=
  match text.toList with
  | _ :: rest => .ok (String.ofList rest)
  | [] => .error .notText

theorem unstamp_of_stamp (i : Nat) (text sealed : String) (h : stamp i text = .ok sealed) :
    unstamp sealed = .ok text := by
  rw [stamp, Except.ok.injEq] at h
  rw [← h, unstamp, String.toList_ofList]
  simp only [String.ofList_toList]

/-- Two letters on the inline text and one on the typed text; both bare again at the end. -/
theorem Schema.open_all_of_seal_all_stamped :
    let s : Schema := .array (.union [.string (some .inline), .string (some .typed)])
    let v : Value := .array [.string "a", .tagged (.plain "b")]
    let w : Value := .array [.string "AAa", .tagged (.encrypted "Bb")]
    s.runAll [(⟨.encrypt, stamp⟩, .empty), (⟨.encrypt, stamp⟩, .empty)] v = .ok w ∧
      s.runAll [(⟨.decrypt, fun _ => unstamp⟩, .empty), (⟨.decrypt, fun _ => unstamp⟩, .empty)] w
        = .ok v := by
  intro s v w
  have hv : v.Unencrypted := by
    simp [v, Value.Unencrypted]
  have hw : s.runAll [(⟨.encrypt, stamp⟩, .empty), (⟨.encrypt, stamp⟩, .empty)] v = .ok w := by rfl
  refine ⟨hw, s.open_all_of_seal_all hv [(stamp, .empty), (stamp, .empty)] [.empty, .empty] rfl
    ?_ ?_ ?_ hw⟩
  · intro p hp
    have : p = (stamp, .empty) := by simpa using hp
    subst this
    exact unstamp_of_stamp
  · intro p hp
    have : p = (stamp, .empty) := by simpa using hp
    subst this
    exact .empty
  · intro index hindex
    have : index = .empty := by simpa using hindex
    subst this
    exact .empty

end FieldSeal
