import FieldSeal.Proofs.Walk.Frame

/-!
# Texts that do not open

Nothing shows whether a bare text has been encrypted, so one that does not open is left as it is, and
the walk goes on. A marked text that does not open is another matter: it ends the walk. What a run
that decrypts does can therefore be read off the row of its slots, and only the marked ones count
(`Walk.failure_opening`).

Either way a text that does not open stays, at whatever place it is and however the run ends, so a
run with the wrong key does no harm: it changes nothing, and it fails if it comes to a marked text.
-/

set_option autoImplicit false

namespace FieldSeal

section

variable (D : String → Except CipherError String)

/-- A walk that decrypts by the function, whatever the number of the call. -/
def Walk.opening : Walk := ⟨.decrypt, fun _ => D⟩

/-- The refusal of a text that is marked as encrypted; no other slot can end a walk. -/
def Slot.refusal? : Slot → Option CipherError
  | .typed (.encrypted text) =>
    match D text with
    | .ok _ => none
    | .error e => some e
  | _ => none

/-- Every text in the row that is marked as encrypted opens. -/
def OpensMarked (cs : List Slot) : Prop :=
  ∀ text, Slot.typed (.encrypted text) ∈ cs → ∃ answer, D text = .ok answer

end

variable {D : String → Except CipherError String}

theorem Slot.refusal?_eq_some {c : Slot} {e : CipherError} :
    c.refusal? D = some e ↔ ∃ text, c = .typed (.encrypted text) ∧ D text = .error e := by
  cases c with
  | inline text => simp [refusal?]
  | typed t =>
    cases t with
    | plain text => simp [refusal?]
    | encrypted text => cases h : D text <;> simp [refusal?, h]

theorem opensMarked_iff {cs : List Slot} :
    OpensMarked D cs ↔ ∀ c ∈ cs, c.refusal? D = none := by
  constructor
  · intro h c hc
    cases hr : c.refusal? D with
    | none => rfl
    | some e =>
      obtain ⟨text, rfl, he⟩ := Slot.refusal?_eq_some.mp hr
      obtain ⟨answer, ha⟩ := h text hc
      rw [he] at ha
      cases ha
  · intro h text hc
    cases hd : D text with
    | ok answer => exact ⟨answer, rfl⟩
    | error e =>
      have hr := h _ hc
      rw [Slot.refusal?_eq_some.mpr ⟨text, rfl, hd⟩] at hr
      cases hr

namespace Walk

/-- A turn fails as the marked text does, and a bare text is no matter. -/
theorem turn_opening (n : Nat) (c : Slot) :
    (opening D).turn n c = match c.refusal? D with
      | none => .ok ((opening D).turned n c)
      | some e => .error e := by
  cases c with
  | inline text =>
    cases h : D text <;> simp [turned, turn, opening, Slot.refusal?, h]
  | typed t =>
    cases t with
    | plain text => simp [turned, turn, opening, Slot.refusal?]
    | encrypted text =>
      cases h : D text <;>
        simp [turned, turn, opening, Slot.refusal?, h]

/-- **A walk that decrypts fails with the first marked text that does not open.** -/
theorem failure_opening (cs : List Slot) (calls : List String) :
    ((opening D).turnAll cs calls).failure = cs.findSome? (Slot.refusal? D) := by
  induction cs generalizing calls with
  | nil => rfl
  | cons c rest ih =>
    rw [turnAll, turn_opening, List.findSome?_cons]
    cases c.refusal? D with
    | none => exact ih _
    | some e => rfl

/-- A row of slots that no turn changes stays as it is. -/
theorem slots_eq_self {w : Walk} {cs : List Slot} (h : ∀ n, ∀ c ∈ cs, w.turned n c = c)
    (calls : List String) : (w.turnAll cs calls).slots = cs := by
  induction cs generalizing calls with
  | nil => rfl
  | cons c rest ih =>
    obtain ⟨hc, hrest⟩ : w.turned calls.length c = c ∧ ∀ n, ∀ c ∈ rest, w.turned n c = c :=
      ⟨h _ c List.mem_cons_self, fun n d hd => h n d (List.mem_cons_of_mem c hd)⟩
    rw [turnAll]
    cases ht : w.turn calls.length c with
    | error e => rfl
    | ok d =>
      obtain rfl : d = c := by simpa [turned, ht] using hc
      exact congrArg (d :: ·) (ih hrest _)

/-- The walk comes to every slot with no marked text before it that does not open. -/
theorem prefix_calls_opening {before after : List Slot} {c : Slot} (h : OpensMarked D before) :
    (opening D).toHand (before ++ [c])
      <+: ((opening D).turnAll (before ++ c :: after) []).calls := by
  have hbefore : ((opening D).turnAll before []).failure = none := by
    rw [failure_opening, List.findSome?_eq_none_iff]
    exact opensMarked_iff.mp h
  rw [turnAll_append, hbefore]
  dsimp only
  rw [calls_eq_of_none hbefore, toHand_append, toHand_cons, toHand_nil, List.append_nil]
  exact prefix_calls_cons c after ((opening D).toHand before)

/-! ## The policy -/

/-- What an outcome of a walk that decrypts owes, whichever texts open. -/
structure Opens (D : String → Except CipherError String) (s : Schema) (v : Value)
    (o : Outcome Value) : Prop where
  succeeds : o.failure = none ↔ OpensMarked D (s.slots v)
  fails : ∀ e, o.failure = some e ↔ ∃ before text after,
    s.slots v = before ++ .typed (.encrypted text) :: after ∧ D text = .error e ∧
      OpensMarked D before
  goes_on : ∀ before c after, s.slots v = before ++ c :: after → OpensMarked D before →
    (before ++ [c]).filterMap (·.handed? .decrypt) <+: o.trace.calls
  answered : ∀ before stop after text answer, s.stops v = before ++ stop :: after →
    OpensMarked D (before.map (·.slot)) → stop.slot.handed? .decrypt = some text →
      D text = .ok answer →
        Value.at? stop.path o.value = some (stop.slot.answered .decrypt answer).value
  kept : ∀ path c e, Value.at? path v = some (Slot.value c) → D c.text = .error e →
    Value.at? path o.value = some c.value
  wrong_key : (∀ text, ∃ e, D text = .error e) →
    o.value = v ∧ (o.failure ≠ none ↔ ∃ text, Slot.typed (.encrypted text) ∈ s.slots v)

variable {s : Schema} {v : Value} {index : FieldIndex}

theorem failure_run_opening (hi : index.Sound) :
    ((opening D).run s v index).failure = (s.slots v).findSome? (Slot.refusal? D) := by
  rw [((opening D).run_follows hi s v).failure_eq, failure_opening]

theorem run_opening_eq_none (hi : index.Sound) :
    ((opening D).run s v index).failure = none ↔ OpensMarked D (s.slots v) := by
  rw [failure_run_opening hi, List.findSome?_eq_none_iff, opensMarked_iff]

theorem run_opening_eq_some (hi : index.Sound) {e : CipherError} :
    ((opening D).run s v index).failure = some e ↔ ∃ before text after,
      s.slots v = before ++ .typed (.encrypted text) :: after ∧ D text = .error e ∧
        OpensMarked D before := by
  rw [failure_run_opening hi, List.findSome?_eq_some_iff]
  constructor
  · intro ⟨before, c, after, hs, hc, hbefore⟩
    obtain ⟨text, rfl, he⟩ := Slot.refusal?_eq_some.mp hc
    exact ⟨before, text, after, hs, he, opensMarked_iff.mpr hbefore⟩
  · intro ⟨before, text, after, hs, he, hbefore⟩
    exact ⟨before, _, after, hs, Slot.refusal?_eq_some.mpr ⟨text, rfl, he⟩,
      opensMarked_iff.mp hbefore⟩

/-- A turn does not change a slot with a text that does not open. -/
theorem turned_of_refused {n : Nat} {c : Slot} {e : CipherError} (h : D c.text = .error e) :
    (opening D).turned n c = c := by
  apply turned_eq_self
  intro text answer hc ha
  change D text = .ok answer at ha
  rw [Slot.handed?_eq hc, h] at ha
  cases ha

theorem kept_run (hi : index.Sound) {path : Path} {c : Slot} {e : CipherError}
    (hat : Value.at? path v = some c.value) (h : D c.text = .error e) :
    Value.at? path ((opening D).run s v index).value = some c.value := by
  rcases s.split_stops v path with ⟨before, stop, after, hstops, rfl⟩ | hbeside
  · have hslot : stop.slot = c := by
      rw [Schema.at?_of_mem_stops (by rw [hstops]; simp), Option.some.injEq] at hat
      exact Slot.value_inj hat
    rw [at?_run_of_split hi hstops, hslot, turned_of_refused h]
    split <;> rfl
  · exact Schema.at?_of_blank_eq ((opening D).run_follows hi s v).blank_eq hat hbeside

/-- A text that the walk comes to and that opens is replaced by what it opens to. -/
theorem answered_run_opening (hi : index.Sound) {before after : List Stop} {stop : Stop}
    {text answer : String} (hstops : s.stops v = before ++ stop :: after)
    (hbefore : OpensMarked D (before.map (·.slot)))
    (hhanded : stop.slot.handed? .decrypt = some text) (h : D text = .ok answer) :
    Value.at? stop.path ((opening D).run s v index).value
      = some (stop.slot.answered .decrypt answer).value := by
  have hreached : ((opening D).turnAll (before.map Stop.slot) []).failure = none := by
    rw [failure_opening, List.findSome?_eq_none_iff]
    exact opensMarked_iff.mp hbefore
  rw [at?_run_of_split hi hstops, hreached]
  dsimp only
  rw [turned_of_answer (opening D) hhanded h]
  rfl

theorem run_wrong_key (hi : index.Sound) (h : ∀ text, ∃ e, D text = .error e) :
    ((opening D).run s v index).value = v := by
  apply run_value_eq hi rfl
  refine (slots_eq_self ?_ []).symm
  intro n c _
  obtain ⟨e, he⟩ := h c.text
  exact turned_of_refused he

/-- **Decrypting fails for marked texts only, and keeps every text that does not open.** Each text that
the walk comes to and that opens is replaced. -/
theorem run_opens (hi : index.Reachable) (cipher : Cipher) (s : Schema) (v : Value) :
    Opens cipher.decrypt s v ((cipher.walk .decrypt).run s v index) where
  succeeds := run_opening_eq_none hi.sound
  fails e := run_opening_eq_some hi.sound
  goes_on before c after hs hb := by
    rw [((cipher.walk .decrypt).run_follows hi.sound s v).calls_eq, hs]
    exact prefix_calls_opening hb
  answered before stop after text answer := answered_run_opening hi.sound
  kept path c e := kept_run hi.sound
  wrong_key h := by
    refine ⟨run_wrong_key hi.sound h, ?_⟩
    constructor
    · intro hn
      obtain ⟨e, he⟩ := Option.ne_none_iff_exists'.mp hn
      obtain ⟨before, text, after, hs, -, -⟩ := (run_opening_eq_some hi.sound).mp he
      exact ⟨text, by rw [hs]; simp⟩
    · intro ⟨text, hm⟩ hn
      obtain ⟨answer, ha⟩ := (run_opening_eq_none hi.sound).mp hn text hm
      obtain ⟨e, he⟩ := h text
      cases he.symm.trans ha

/-- A key that opens one text, and one that opens none. With the first, the bare text is refused and
the walk goes on to the marked ones, up to one that does not open; the second changes nothing. -/
theorem run_opens_card :
    let type : RecordType := ⟨⟨"Card", none⟩, [⟨"owner", 0, .string (some .inline)⟩,
      ⟨"pins", 1, .array (.string (some .typed))⟩]⟩
    let v : Value := .record ⟨type, [.string "ann",
      .array [.tagged (.encrypted "x"), .tagged (.encrypted "z")]]⟩
    let key : Cipher := ⟨fun _ text => .ok text,
      fun text => if text = "x" then .ok "y" else .error .unauthentic⟩
    let other : Cipher := ⟨fun _ text => .ok text, fun _ => .error .unauthentic⟩
    FieldIndex.empty.Reachable ∧
      ((key.walk .decrypt).run (.record type) v .empty).failure = some .unauthentic ∧
      Value.at? [0] ((key.walk .decrypt).run (.record type) v .empty).value
        = some (.string "ann") ∧
      Value.at? [1, 0] ((key.walk .decrypt).run (.record type) v .empty).value
        = some (.tagged (.plain "y")) ∧
      ["ann", "x"] <+: ((key.walk .decrypt).run (.record type) v .empty).trace.calls ∧
      ((other.walk .decrypt).run (.record type) v .empty).value = v ∧
      ((other.walk .decrypt).run (.record type) v .empty).failure ≠ none := by
  intro type v key other
  have h := run_opens .empty key (.record type) v
  have hslots : (Schema.record type).slots v =
      [.inline "ann", .typed (.encrypted "x"), .typed (.encrypted "z")] := by rfl
  have hwrong := (run_opens .empty other (.record type) v).wrong_key fun _ => ⟨_, rfl⟩
  refine ⟨.empty, ?_, ?_, ?_, ?_, hwrong.1, hwrong.2.mpr ⟨"x", by rw [hslots]; simp⟩⟩
  · refine (h.fails _).mpr ⟨[.inline "ann", .typed (.encrypted "x")], "z", [], hslots, by rfl, ?_⟩
    intro text ht
    obtain rfl : text = "x" := by simpa using ht
    exact ⟨"y", by rfl⟩
  · exact h.kept [0] (.inline "ann") .unauthentic (by rfl) (by rfl)
  · refine h.answered [⟨[0], .inline "ann"⟩] ⟨[1, 0], .typed (.encrypted "x")⟩
      [⟨[1, 1], .typed (.encrypted "z")⟩] "x" "y" (by rfl) ?_ rfl (by rfl)
    intro text ht
    simp at ht
  · refine h.goes_on [.inline "ann"] (.typed (.encrypted "x")) [.typed (.encrypted "z")] hslots ?_
    intro text ht
    simp at ht

end Walk

end FieldSeal
