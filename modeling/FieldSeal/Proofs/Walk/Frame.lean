import FieldSeal.Proofs.Walk.Order

/-!
# What a walk touches

A walk changes the targets that it comes to, each once and in the order of the value, and it leaves
all else as it was, also when it ends half-way. `Walk.Touches` says this of an outcome in full: which
texts were handed over, where the walk ended, what stands where an answer came, and that every other
part is the same node as before.

The way there is over the row of slots. `turnAll` on a row that is cut in two is the turns of the one
part and then those of the other, so what becomes of a single slot is known from the row before it
(`Walk.slots_split`), and so is whether the walk comes to it (`Walk.reached_iff`).
-/

set_option autoImplicit false

namespace FieldSeal

namespace Walk

variable (w : Walk)

/-! ## One turn -/

theorem turn_eq_error {n : Nat} {c : Slot} {e : CipherError} :
    w.turn n c = .error e ↔ ∃ text, c.handed? w.direction = some text ∧
      w.leaf n text = .error e ∧ c.tolerant w.direction = false := by
  rw [turn]
  cases c.handed? w.direction with
  | none => simp
  | some text =>
    cases hl : w.leaf n text <;> cases c.tolerant w.direction <;> simp [hl]

/-- The slot after its turn; a refusal leaves it as it is. -/
def turned (n : Nat) (c : Slot) : Slot :=
  match w.turn n c with
  | .ok d => d
  | .error _ => c

theorem turned_of_answer {n : Nat} {c : Slot} {text answer : String}
    (hc : c.handed? w.direction = some text) (h : w.leaf n text = .ok answer) :
    w.turned n c = c.answered w.direction answer := by
  simp only [turned, turn, hc, h]

theorem turned_eq_self {n : Nat} {c : Slot}
    (h : ∀ text answer, c.handed? w.direction = some text → w.leaf n text ≠ .ok answer) :
    w.turned n c = c := by
  rw [turned, turn]
  cases hc : c.handed? w.direction with
  | none => rfl
  | some text =>
    cases hl : w.leaf n text with
    | ok answer => exact absurd hl (h text answer hc)
    | error e => cases c.tolerant w.direction <;> simp [hl]

/-! ## A row of turns, cut in two -/

/-- The texts that a row of slots has to hand over. -/
def toHand (cs : List Slot) : List String := cs.filterMap (·.handed? w.direction)

variable {w}

@[simp] theorem toHand_nil : w.toHand [] = [] := rfl

@[simp] theorem toHand_cons (c : Slot) (rest : List Slot) :
    w.toHand (c :: rest) = (c.handed? w.direction).toList ++ w.toHand rest := by
  rw [toHand, List.filterMap_cons]
  cases c.handed? w.direction <;> rfl

@[simp] theorem toHand_append (a b : List Slot) : w.toHand (a ++ b) = w.toHand a ++ w.toHand b :=
  List.filterMap_append

@[simp] theorem length_turnAll (cs : List Slot) (calls : List String) :
    (w.turnAll cs calls).slots.length = cs.length := by
  induction cs generalizing calls with
  | nil => rfl
  | cons c rest ih =>
    rw [turnAll]
    cases w.turn calls.length c with
    | ok d => exact congrArg (· + 1) (ih _)
    | error e => rfl

/-- A walk that does not end hands over everything there is. -/
theorem calls_eq_of_none {cs : List Slot} {calls : List String}
    (h : (w.turnAll cs calls).failure = none) :
    (w.turnAll cs calls).calls = calls ++ w.toHand cs := by
  induction cs generalizing calls with
  | nil => simp [turnAll]
  | cons c rest ih =>
    rw [turnAll] at h ⊢
    cases ht : w.turn calls.length c with
    | ok d =>
      rw [ht] at h
      refine (ih h).trans ?_
      rw [toHand_cons, List.append_assoc]
    | error e =>
      rw [ht] at h
      cases h

theorem failure_append_eq_none {a b : List Slot} {calls : List String} :
    (w.turnAll (a ++ b) calls).failure = none ↔
      (w.turnAll a calls).failure = none ∧
        (w.turnAll b (calls ++ w.toHand a)).failure = none := by
  rw [turnAll_append]
  cases h : (w.turnAll a calls).failure with
  | none => simp [calls_eq_of_none h]
  | some e => simp

theorem failure_cons_eq_none {c : Slot} {rest : List Slot} {calls : List String}
    (h : (w.turnAll (c :: rest) calls).failure = none) :
    ∃ d, w.turn calls.length c = .ok d := by
  rw [turnAll] at h
  cases ht : w.turn calls.length c with
  | ok d => exact ⟨d, rfl⟩
  | error e =>
    rw [ht] at h
    cases h

/-- A walk that ends does so at some slot: those before it had their turns, and its text is the last
that is handed over. -/
theorem failure_eq_some {cs : List Slot} {calls : List String} {e : CipherError}
    (h : (w.turnAll cs calls).failure = some e) :
    ∃ before c after, cs = before ++ c :: after ∧ (w.turnAll before calls).failure = none ∧
      w.turn (calls ++ w.toHand before).length c = .error e ∧
      (w.turnAll cs calls).calls = calls ++ w.toHand (before ++ [c]) := by
  induction cs generalizing calls with
  | nil => cases h
  | cons c rest ih =>
    rw [turnAll] at h ⊢
    cases ht : w.turn calls.length c with
    | error e' =>
      rw [ht] at h
      cases h
      exact ⟨[], c, rest, rfl, rfl, by simpa using ht, by simp⟩
    | ok d =>
      rw [ht] at h
      obtain ⟨before, c', after, rfl, hbefore, hturn, hcalls⟩ := ih h
      refine ⟨c :: before, c', after, rfl, ?_, ?_, ?_⟩
      · rw [turnAll, ht]
        exact hbefore
      · rwa [toHand_cons, ← List.append_assoc]
      · exact hcalls.trans (by simp)

/-- The texts that have been handed over are no more than there are. -/
theorem length_calls_le (cs : List Slot) (calls : List String) :
    (w.turnAll cs calls).calls.length ≤ (calls ++ w.toHand cs).length := by
  cases h : (w.turnAll cs calls).failure with
  | none => exact Nat.le_of_eq (congrArg List.length (calls_eq_of_none h))
  | some e =>
    obtain ⟨before, c, after, rfl, -, -, hcalls⟩ := failure_eq_some h
    simp [hcalls]

/-- What has been handed over before stays in front. -/
theorem prefix_calls (cs : List Slot) (calls : List String) :
    calls <+: (w.turnAll cs calls).calls := by
  induction cs generalizing calls with
  | nil => exact List.prefix_rfl
  | cons c rest ih =>
    rw [turnAll]
    cases w.turn calls.length c with
    | ok d => exact (List.prefix_append _ _).trans (ih _)
    | error e => exact List.prefix_append _ _

/-- The text of the first slot is handed over in any case. -/
theorem prefix_calls_cons (c : Slot) (rest : List Slot) (calls : List String) :
    calls ++ (c.handed? w.direction).toList <+: (w.turnAll (c :: rest) calls).calls := by
  rw [turnAll]
  cases w.turn calls.length c with
  | ok d => exact prefix_calls _ _
  | error e => exact List.prefix_rfl

/-- What becomes of a slot: its turn, if the walk comes to it. -/
theorem slots_split (before after : List Slot) (c : Slot) (calls : List String) :
    (w.turnAll (before ++ c :: after) calls).slots[before.length]? =
      some (match (w.turnAll before calls).failure with
        | none => w.turned (calls ++ w.toHand before).length c
        | some _ => c) := by
  rw [turnAll_append]
  cases h : (w.turnAll before calls).failure with
  | some e => simp
  | none =>
    simp only [calls_eq_of_none h]
    rw [List.getElem?_append_right (Nat.le_of_eq (length_turnAll _ _)), length_turnAll,
      Nat.sub_self, turnAll, turned]
    cases w.turn (calls ++ w.toHand before).length c <;> rfl

/-- The walk comes to a slot that has something to hand over if and only if there are more calls than
the slots before it make. -/
theorem reached_iff (before after : List Slot) (calls : List String) {c : Slot} {text : String}
    (hc : c.handed? w.direction = some text) :
    (w.turnAll before calls).failure = none ↔
      (calls ++ w.toHand before).length
        < (w.turnAll (before ++ c :: after) calls).calls.length := by
  rw [turnAll_append]
  cases h : (w.turnAll before calls).failure with
  | some e =>
    have hle := length_calls_le (w := w) before calls
    simp only [reduceCtorEq, false_iff, Nat.not_lt]
    exact hle
  | none =>
    simp only [calls_eq_of_none h, true_iff]
    have hlt := (prefix_calls_cons (w := w) c after (calls ++ w.toHand before)).length_le
    rw [hc] at hlt
    simp at hlt ⊢
    omega

end Walk

/-! ## The stop in a run -/

/-- A run leaves at a stop what its turn makes of it, if the walk comes to it. -/
theorem Walk.at?_run_of_split {w : Walk} {index : FieldIndex} (hi : index.Sound) {s : Schema}
    {v : Value} {before after : List Stop} {stop : Stop}
    (hs : s.stops v = before ++ stop :: after) :
    Value.at? stop.path (w.run s v index).value =
      some (match (w.turnAll (before.map Stop.slot) []).failure with
        | none => w.turned (w.toHand (before.map Stop.slot)).length stop.slot
        | some _ => stop.slot).value := by
  have hrun := w.run_follows hi s v
  have hslots : s.slots v = before.map Stop.slot ++ stop.slot :: after.map Stop.slot := by
    rw [Schema.slots, hs, List.map_append, List.map_cons]
  have hsplit := slots_split (w := w) (before.map Stop.slot) (after.map Stop.slot) stop.slot []
  rw [← hslots, ← hrun.slots_eq, List.length_map, Schema.slots, List.getElem?_map,
    Option.map_eq_some_iff] at hsplit
  obtain ⟨found, hfound, hslot⟩ := hsplit
  -- The stop of the result with that slot is at the same path: one blank, one way.
  have hplace : ((s.stops (w.run s v index).value).map Stop.place)[before.length]?
      = some stop.place := by
    rw [Schema.stops_congr hrun.blank_eq, hs]
    simp
  rw [List.getElem?_map, hfound, Option.map_some, Option.some.injEq] at hplace
  have hat := Schema.at?_of_mem_stops (List.mem_of_getElem? hfound)
  rwa [(Prod.mk.inj hplace).1, hslot] at hat

/-! ## Targets and their numbers -/

theorem exists_split_of_filter {α : Type} {p : α → Bool} {a : α} : ∀ {l : List α} {n : Nat},
    (l.filter p)[n]? = some a → ∃ before after, l = before ++ a :: after ∧ p a = true ∧
      (before.filter p).length = n
  | [], n, h => by simp at h
  | b :: rest, n, h => by
    by_cases hb : p b = true
    · rw [List.filter_cons_of_pos hb] at h
      cases n with
      | zero =>
        cases h
        exact ⟨[], rest, rfl, hb, rfl⟩
      | succ n =>
        obtain ⟨before, after, rfl, ha, hn⟩ := exists_split_of_filter h
        exact ⟨b :: before, after, rfl, ha, by simp [List.filter_cons_of_pos hb, hn]⟩
    · rw [List.filter_cons_of_neg hb] at h
      obtain ⟨before, after, rfl, ha, hn⟩ := exists_split_of_filter h
      exact ⟨b :: before, after, rfl, ha, by simp [List.filter_cons_of_neg hb, hn]⟩

theorem getElem?_filter_split {α : Type} {p : α → Bool} {a : α} (before after : List α)
    (ha : p a = true) : ((before ++ a :: after).filter p)[(before.filter p).length]? = some a := by
  simp [List.filter_append, List.filter_cons_of_pos ha]

theorem Stop.isTarget_iff {d : Direction} {stop : Stop} :
    stop.isTarget d = true ↔ stop.slot.handed? d = some stop.slot.text := by
  rw [isTarget, Option.isSome_iff_exists]
  constructor
  · intro ⟨text, h⟩
    rw [h, Slot.handed?_eq h]
  · intro h
    exact ⟨_, h⟩

/-- The texts to hand over are those of the targets. -/
theorem Walk.toHand_slots (w : Walk) (stops : List Stop) :
    w.toHand (stops.map Stop.slot)
      = (stops.filter (Stop.isTarget w.direction)).map (·.slot.text) := by
  induction stops with
  | nil => rfl
  | cons stop rest ih =>
    rw [List.map_cons, toHand_cons, ih]
    by_cases h : stop.isTarget w.direction = true
    · rw [List.filter_cons_of_pos h, Stop.isTarget_iff.mp h]
      rfl
    · rw [List.filter_cons_of_neg h]
      rw [Stop.isTarget, Option.not_isSome_iff_eq_none] at h
      rw [h]
      rfl

/-! ## Nodes -/

/-- The node at the top of a value, without what is in its parts: of a record the type and how many
fields it has, of an array the length, of a map the keys, and all of a value without parts. -/
def Value.node : Value → Value
  | .record r => .record ⟨r.type, r.fields.map fun _ => .null⟩
  | .array vs => .array (vs.map fun _ => .null)
  | .map es => .map (es.map fun e => (e.1, .null))
  | v => v

theorem Value.node_shape {v : Value} (h : v.isText = false) : v.shape.node = v.node := by
  cases v <;> simp_all [isText, mapTexts, node, mapTextsOfItems_eq_map, mapTextsOfEntries_eq_map,
    Function.comp_def]

/-- Where no stop is, a value of the same blank has the same node. -/
theorem Schema.node_of_blank_eq {s : Schema} {v u : Value} (hb : s.blank u = s.blank v) {path : Path}
    (hn : ∀ stop ∈ s.stops v, stop.path ≠ path) :
    (Value.at? path u).map Value.node = (Value.at? path v).map Value.node := by
  have hat : ∀ x : Value, Value.at? path x.shape = (Value.at? path x).map Value.shape :=
    Value.at?_mapTexts _ _ path
  have hshape : (Value.at? path u).map Value.shape = (Value.at? path v).map Value.shape := by
    rw [← hat, ← hat, shape_eq_of_blank_eq hb]
  cases hv : Value.at? path v with
  | none =>
    rw [hv, Option.map_none, Option.map_eq_none_iff] at hshape
    rw [hshape]
  | some x =>
    cases hx : x.isText with
    | true =>
      obtain ⟨c, rfl⟩ := Slot.exists_of_isText hx
      rw [at?_of_blank_eq hb hv hn]
    | false =>
      rw [hv, Option.map_some, Option.map_eq_some_iff] at hshape
      obtain ⟨y, hy, he⟩ := hshape
      have hyText : y.isText = false := by rw [← Value.isText_shape, he, Value.isText_shape, hx]
      rw [hy, Option.map_some, Option.map_some, ← Value.node_shape hyText, he, Value.node_shape hx]

/-! ## What a run touches -/

namespace Walk

/-- The text of the target with the number is refused, and not at a place where that is no matter: the
walk ends there. -/
def EndsAt (w : Walk) (targets : List Stop) (n : Nat) (e : CipherError) : Prop :=
  ∃ stop, targets[n]? = some stop ∧ w.leaf n stop.slot.text = .error e ∧
    stop.slot.tolerant w.direction = false

/-- The target with the number is among those of the first so many calls and gets the answer. -/
def AnswersAt (w : Walk) (targets : List Stop) (calls n : Nat) (stop : Stop) (answer : String) :
    Prop :=
  n < calls ∧ targets[n]? = some stop ∧ w.leaf n stop.slot.text = .ok answer

/-- The outcome of a walk, as far as the value and the calls go: each target is called at most once,
in order, up to the first refusal that counts, and nothing but the targets that got an answer has
changed. -/
structure Touches (w : Walk) (s : Schema) (v : Value) (o : Outcome Value) : Prop where
  ordered : (s.targets w.direction v).Pairwise fun a b => a.path < b.path
  texts : ∀ stop ∈ s.targets w.direction v, Value.at? stop.path v = some stop.slot.value
  steered : ∀ u : Value, u.erased = v.erased →
    (s.targets w.direction u).map (·.path) = (s.targets w.direction v).map (·.path)
  finished : o.failure = none →
    o.trace.calls = (s.targets w.direction v).map (·.slot.text) ∧
      ∀ n e, ¬ w.EndsAt (s.targets w.direction v) n e
  failed : ∀ e, o.failure = some e → ∃ n, w.EndsAt (s.targets w.direction v) n e ∧
    o.trace.calls = ((s.targets w.direction v).take (n + 1)).map (·.slot.text) ∧
      ∀ m < n, ∀ e, ¬ w.EndsAt (s.targets w.direction v) m e
  answered : ∀ n stop answer,
    w.AnswersAt (s.targets w.direction v) o.trace.calls.length n stop answer →
      Value.at? stop.path o.value = some (stop.slot.answered w.direction answer).value
  untouched : ∀ path, (∀ n stop answer,
      w.AnswersAt (s.targets w.direction v) o.trace.calls.length n stop answer →
        stop.path ≠ path) →
    (Value.at? path o.value).map Value.node = (Value.at? path v).map Value.node

variable {w : Walk} {s : Schema} {v : Value} {index : FieldIndex}

/-- A walk does not end at a target of a row that it gets through. -/
theorem not_endsAt {stops : List Stop} (h : (w.turnAll (stops.map Stop.slot) []).failure = none)
    (n : Nat) (e : CipherError) : ¬ w.EndsAt (stops.filter (Stop.isTarget w.direction)) n e := by
  intro hends
  obtain ⟨stop, hs, hleaf, htolerant⟩ := hends
  obtain ⟨before, after, rfl, htarget, hn⟩ := exists_split_of_filter hs
  rw [List.map_append, List.map_cons, failure_append_eq_none] at h
  obtain ⟨d, hd⟩ := failure_cons_eq_none h.2
  have hnumber : ([] ++ w.toHand (before.map Stop.slot)).length = n := by
    rw [List.nil_append, toHand_slots, List.length_map, hn]
  rw [hnumber] at hd
  have herror := w.turn_eq_error.mpr ⟨_, Stop.isTarget_iff.mp htarget, hleaf, htolerant⟩
  rw [hd] at herror
  cases herror

/-- Whether the walk comes to a target is a matter of how many calls there are. -/
theorem reached_target (hi : index.Sound) {before after : List Stop} {stop : Stop}
    (hs : s.stops v = before ++ stop :: after) (ht : stop.isTarget w.direction = true) :
    (w.turnAll (before.map Stop.slot) []).failure = none ↔
      (before.filter (Stop.isTarget w.direction)).length
        < (w.run s v index).trace.calls.length := by
  have hreached := reached_iff (before.map Stop.slot) (after.map Stop.slot) []
    (Stop.isTarget_iff.mp ht)
  rw [List.nil_append, toHand_slots, List.length_map, ← List.map_cons, ← List.map_append,
    ← hs] at hreached
  rw [(w.run_follows hi s v).calls_eq]
  exact hreached

theorem finished_run (hi : index.Sound) (h : (w.run s v index).failure = none) :
    (w.run s v index).trace.calls = (s.targets w.direction v).map (·.slot.text) ∧
      ∀ n e, ¬ w.EndsAt (s.targets w.direction v) n e := by
  have hrun := w.run_follows hi s v
  rw [hrun.failure_eq] at h
  refine ⟨?_, not_endsAt h⟩
  rw [hrun.calls_eq, calls_eq_of_none h, List.nil_append]
  exact w.toHand_slots (s.stops v)

theorem failed_run (hi : index.Sound) {e : CipherError}
    (h : (w.run s v index).failure = some e) :
    ∃ n, w.EndsAt (s.targets w.direction v) n e ∧
      (w.run s v index).trace.calls
        = ((s.targets w.direction v).take (n + 1)).map (·.slot.text) ∧
      ∀ m < n, ∀ e, ¬ w.EndsAt (s.targets w.direction v) m e := by
  have hrun := w.run_follows hi s v
  rw [hrun.failure_eq] at h
  obtain ⟨slots, c, others, hs, hbefore, hturn, hcalls⟩ := failure_eq_some h
  -- The same cut in the row of stops.
  obtain ⟨before, rest, hstops, rfl, hrest⟩ := List.map_eq_append_iff.mp hs
  obtain ⟨stop, after, rfl, rfl, rfl⟩ := List.map_eq_cons_iff.mp hrest
  obtain ⟨text, hhanded, hleaf, htolerant⟩ := w.turn_eq_error.mp hturn
  have htarget : stop.isTarget w.direction = true := by rw [Stop.isTarget, hhanded]; rfl
  have htargets : s.targets w.direction v = before.filter (Stop.isTarget w.direction) ++
      stop :: after.filter (Stop.isTarget w.direction) := by
    rw [Schema.targets, hstops, List.filter_append, List.filter_cons_of_pos htarget]
  refine ⟨(before.filter (Stop.isTarget w.direction)).length, ⟨stop, ?_, ?_, htolerant⟩, ?_, ?_⟩
  · rw [Schema.targets, hstops]
    exact getElem?_filter_split before after htarget
  · rwa [List.nil_append, toHand_slots, List.length_map, Slot.handed?_eq hhanded] at hleaf
  · rw [hrun.calls_eq, hcalls, htargets, List.take_length_add_append, List.take_succ_cons,
      List.take_zero, List.nil_append, ← List.map_singleton, ← List.map_append, toHand_slots,
      List.filter_append, List.filter_cons_of_pos htarget, List.filter_nil]
  · intro m hm e' hends
    obtain ⟨other, ho, hrefused⟩ := hends
    rw [htargets, List.getElem?_append_left hm] at ho
    exact not_endsAt hbefore m e' ⟨other, ho, hrefused⟩

theorem answered_run (hi : index.Sound) {n : Nat} {stop : Stop} {answer : String}
    (h : w.AnswersAt (s.targets w.direction v) (w.run s v index).trace.calls.length n stop answer) :
    Value.at? stop.path (w.run s v index).value
      = some (stop.slot.answered w.direction answer).value := by
  obtain ⟨hn, hs, hl⟩ := h
  obtain ⟨before, after, hstops, htarget, rfl⟩ := exists_split_of_filter hs
  have hreached := (reached_target hi hstops htarget).mpr hn
  rw [at?_run_of_split hi hstops, hreached]
  dsimp only
  rw [toHand_slots, List.length_map, turned_of_answer w (Stop.isTarget_iff.mp htarget) hl]

theorem untouched_run (hi : index.Sound) {path : Path}
    (h : ∀ n stop answer,
      w.AnswersAt (s.targets w.direction v) (w.run s v index).trace.calls.length n stop answer →
        stop.path ≠ path) :
    (Value.at? path (w.run s v index).value).map Value.node
      = (Value.at? path v).map Value.node := by
  rcases s.split_stops v path with ⟨before, stop, after, hstops, rfl⟩ | hbeside
  · rw [at?_run_of_split hi hstops, Schema.at?_of_mem_stops (by rw [hstops]; simp)]
    cases hreached : (w.turnAll (before.map Stop.slot) []).failure with
    | some e => rfl
    | none =>
      dsimp only
      rw [turned_eq_self]
      intro text answer hhanded hl
      have htarget : stop.isTarget w.direction = true := by rw [Stop.isTarget, hhanded]; rfl
      rw [toHand_slots, List.length_map, Slot.handed?_eq hhanded] at hl
      refine h _ stop answer ⟨(reached_target hi hstops htarget).mp hreached, ?_, hl⟩ rfl
      rw [Schema.targets, hstops]
      exact getElem?_filter_split before after htarget
  · exact Schema.node_of_blank_eq (w.run_follows hi s v).blank_eq hbeside

/-- **A run touches its targets and nothing else**, whatever the cipher does and wherever the run
ends. -/
theorem run_touches (hi : index.Reachable) (w : Walk) (s : Schema) (v : Value) :
    w.Touches s v (w.run s v index) where
  ordered := s.targets_ordered w.direction v
  texts stop hs := Schema.at?_of_mem_stops (List.mem_filter.mp hs).1
  steered u hu := by
    simpa [Function.comp_def, Stop.place] using congrArg (List.map Prod.fst)
      (Schema.targets_congr (s := s) (d := w.direction) hu)
  finished := finished_run hi.sound
  failed e := failed_run hi.sound
  answered n stop answer := answered_run hi.sound
  untouched path := untouched_run hi.sound

/-- A bare text that does not open, a text that does, one that does not and so ends the run, and one
behind it. Only the second is another one afterwards. -/
theorem run_touches_half_way :
    let type : RecordType := ⟨⟨"Card", none⟩, [⟨"owner", 0, .string (some .inline)⟩,
      ⟨"pins", 1, .array (.string (some .typed))⟩, ⟨"code", 2, .string (some .typed)⟩]⟩
    let w : Walk := ⟨.decrypt, fun _ text => if text = "x" then .ok "y" else .error .unauthentic⟩
    let v : Value := .record ⟨type, [.string "ann",
      .array [.tagged (.encrypted "x"), .tagged (.encrypted "z")], .tagged (.encrypted "x")]⟩
    let o := w.run (.record type) v .empty
    FieldIndex.empty.Reachable ∧ o.trace.calls = ["ann", "x", "z"] ∧
      o.failure = some .unauthentic ∧
      Value.at? [1, 0] o.value = some (.tagged (.plain "y")) ∧
      (Value.at? [1, 1] o.value).map Value.node = some (.tagged (.encrypted "z")) ∧
      (Value.at? [2] o.value).map Value.node = some (.tagged (.encrypted "x")) := by
  intro type w v o
  have h := run_touches .empty w (.record type) v
  have hcalls : o.trace.calls = ["ann", "x", "z"] := by rfl
  have htargets : (Schema.record type).targets w.direction v =
      [⟨[0], .inline "ann"⟩, ⟨[1, 0], .typed (.encrypted "x")⟩, ⟨[1, 1], .typed (.encrypted "z")⟩,
        ⟨[2], .typed (.encrypted "x")⟩] := by rfl
  have hanswered : ∀ n stop answer, w.AnswersAt ((Schema.record type).targets w.direction v)
      o.trace.calls.length n stop answer → stop.path = [1, 0] := by
    intro n stop answer ⟨hn, hs, hl⟩
    rw [htargets] at hs
    rw [hcalls] at hn
    match n with
    | 0 => cases hs; cases hl
    | 1 => cases hs; rfl
    | 2 => cases hs; cases hl
    | n + 3 => exact absurd hn (by simp)
  refine ⟨.empty, hcalls, by rfl, ?_, ?_, ?_⟩
  · exact h.answered 1 ⟨[1, 0], .typed (.encrypted "x")⟩ "y"
      ⟨by rw [hcalls]; decide, by rw [htargets]; rfl, by rfl⟩
  · refine (h.untouched [1, 1] ?_).trans (by rfl)
    intro n stop answer ha he
    rw [hanswered n stop answer ha] at he
    cases he
  · refine (h.untouched [2] ?_).trans (by rfl)
    intro n stop answer ha he
    rw [hanswered n stop answer ha] at he
    cases he

end Walk

end FieldSeal
