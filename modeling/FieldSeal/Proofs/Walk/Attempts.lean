import FieldSeal.Proofs.Walk.Frame

/-!
# Attempts in a row

A walk that ends half-way is tried again on the value that it left, perhaps with another cipher, and
perhaps more than once. Under the typed tag that does no harm: the mark tells a text that has had its
answer from one that has not. `Schema.SettlesOnce` says it of any row of attempts in one direction,
each of which may end anywhere: a text is handed over until there is an answer, and with the answer in
its place it is never handed over again; after an attempt that came through, no walk has anything left
to do under the typed tag.

The trace of a walk is texts only. Which call is made where is said by `Attempt.calls`: the targets
are called in their order, as many of them as there are calls, and `SettlesOnce.handed` holds this
against the trace.

A single attempt is described stop by stop (`Attempt.at_target`, `Attempt.at_passed`); what it leaves
has its stops at the same places, so the next one is described in the same words, and the rest is
induction over the row.
-/

set_option autoImplicit false

namespace FieldSeal

/-! ## Marks and directions -/

namespace Direction

/-- A text that a walk in the direction has to hand over. -/
def pending : Direction → String → TaggedText
  | .encrypt => .plain
  | .decrypt => .encrypted

/-- A text as a walk in the direction would have it. -/
def settled : Direction → String → TaggedText
  | .encrypt => .encrypted
  | .decrypt => .plain

theorem pending_or_settled (d : Direction) (t : TaggedText) :
    (∃ text, t = d.pending text) ∨ ∃ text, t = d.settled text := by
  cases d with
  | encrypt =>
    cases t with
    | plain text => exact .inl ⟨text, rfl⟩
    | encrypted text => exact .inr ⟨text, rfl⟩
  | decrypt =>
    cases t with
    | plain text => exact .inr ⟨text, rfl⟩
    | encrypted text => exact .inl ⟨text, rfl⟩

theorem pending_ne_settled (d : Direction) (text answer : String) :
    d.pending text ≠ d.settled answer := by
  cases d <;> exact fun h => TaggedText.noConfusion h

end Direction

namespace Slot

variable {d : Direction} {text : String}

@[simp] theorem handed?_pending : (typed (d.pending text)).handed? d = some text := by
  cases d <;> rfl

@[simp] theorem handed?_settled : (typed (d.settled text)).handed? d = none := by
  cases d <;> rfl

@[simp] theorem text_pending : (typed (d.pending text)).text = text := by
  cases d <;> rfl

@[simp] theorem answered_typed {t : TaggedText} :
    (typed t).answered d text = typed (d.settled text) := by
  cases d <;> rfl

end Slot

/-! ## Attempts and their calls -/

/-- An attempt at a walk: the cipher's answers, and what the index has learned before. -/
structure Attempt where
  leaf : Leaf
  index : FieldIndex

/-- A text that was handed over: where it stood and under which tag, and what came back. -/
structure Call where
  path : Path
  tag : Tag
  text : String
  answer : Except CipherError String

/-- The text was refused. -/
def Call.Refuses (text : String) (c : Call) : Prop := c.text = text ∧ ∃ e, c.answer = .error e

namespace Attempt

variable (a : Attempt) (d : Direction) (s : Schema) (v : Value)

def run : Outcome Value := Walk.run ⟨d, a.leaf⟩ s v a.index

/-- The call of a number, if it is made at the stop. -/
def call (n : Nat) (stop : Stop) : Call :=
  ⟨stop.path, stop.slot.tag, stop.slot.text, a.leaf n stop.slot.text⟩

/-- The calls of an attempt: the targets in their order, as many as it comes to. -/
def calls : List Call := ((s.targets d v).take (a.run d s v).trace.calls.length).mapIdx a.call

end Attempt

/-- The value after a row of attempts, each of which goes on from what the one before has left. -/
def Schema.afterAll (d : Direction) (s : Schema) : List Attempt → Value → Value
  | [], v => v
  | a :: rest, v => afterAll d s rest (a.run d s v).value

/-- The calls of all attempts of a row. -/
def Schema.callsOfAll (d : Direction) (s : Schema) : List Attempt → Value → List Call
  | [], _ => []
  | a :: rest, v => a.calls d s v ++ callsOfAll d s rest (a.run d s v).value

/-- The calls that are made for one node. -/
def callsAt (path : Path) (calls : List Call) : List Call := calls.filter (·.path == path)

/-- Nothing that a walk in the direction comes to under the typed tag is left to be handed over. -/
def Schema.Settled (d : Direction) (s : Schema) (v : Value) : Prop :=
  ∀ stop ∈ s.stops v, ∀ text, stop.slot ≠ .typed (d.pending text)

@[simp] theorem callsAt_append (path : Path) (a b : List Call) :
    callsAt path (a ++ b) = callsAt path a ++ callsAt path b :=
  List.filter_append a b

theorem callsAt_eq_nil {path : Path} {calls : List Call} (h : ∀ c ∈ calls, c.path ≠ path) :
    callsAt path calls = [] := by
  apply List.filter_eq_nil_iff.mpr
  intro c hc
  rw [beq_iff_eq]
  exact h c hc

/-- At one path there is one stop. -/
theorem Schema.stop_unique {s : Schema} {v : Value} {a b : Stop} (ha : a ∈ s.stops v)
    (hb : b ∈ s.stops v) (h : a.path = b.path) : a = b := by
  have hat := at?_of_mem_stops ha
  rw [h, at?_of_mem_stops hb, Option.some.injEq] at hat
  cases a
  cases b
  rw [Stop.mk.injEq]
  exact ⟨h, (Slot.value_inj hat).symm⟩

theorem Stop.ne_of_lt {a b : Stop} (h : a.path < b.path) : a.path ≠ b.path := by
  intro he
  rw [he] at h
  exact List.lt_irrefl _ h

theorem Stop.Ordered.lt_of_getElem? {stops : List Stop} (ho : Stop.Ordered stops) {i j : Nat}
    {a b : Stop} (ha : stops[i]? = some a) (hb : stops[j]? = some b) (h : i < j) :
    a.path < b.path := by
  obtain ⟨hi, rfl⟩ := List.getElem?_eq_some_iff.mp ha
  obtain ⟨hj, rfl⟩ := List.getElem?_eq_some_iff.mp hb
  exact List.pairwise_iff_getElem.mp ho i j hi hj h

/-- Of calls at ordered places one is at the place of each. -/
theorem callsAt_mapIdx {f : Nat → Stop → Call} (hf : ∀ n stop, (f n stop).path = stop.path)
    {stops : List Stop} (ho : Stop.Ordered stops) {n : Nat} {stop : Stop}
    (hs : stops[n]? = some stop) : callsAt stop.path (stops.mapIdx f) = [f n stop] := by
  induction stops generalizing f n with
  | nil => simp at hs
  | cons first rest ih =>
    obtain ⟨hfirst, hrest⟩ := List.pairwise_cons.mp ho
    rw [List.mapIdx_cons, callsAt]
    cases n with
    | zero =>
      cases hs
      rw [List.filter_cons_of_pos (by simp [hf])]
      refine congrArg (f 0 stop :: ·) (callsAt_eq_nil ?_)
      intro c hc
      obtain ⟨i, hi, rfl⟩ := List.mem_mapIdx.mp hc
      rw [hf]
      exact (Stop.ne_of_lt (hfirst _ (List.getElem_mem hi))).symm
    | succ n =>
      have hlater : stop ∈ rest := List.mem_of_getElem? hs
      rw [List.filter_cons_of_neg (by simpa [hf] using Stop.ne_of_lt (hfirst stop hlater))]
      exact ih (f := fun i => f (i + 1)) (fun i => hf (i + 1)) hrest hs

/-! ## One attempt -/

namespace Attempt

variable {a : Attempt} {d : Direction} {s : Schema} {v : Value}

theorem mem_calls {c : Call} (h : c ∈ a.calls d s v) :
    ∃ n stop, (s.targets d v)[n]? = some stop ∧ n < (a.run d s v).trace.calls.length ∧
      c = a.call n stop := by
  obtain ⟨n, hn, rfl⟩ := List.mem_mapIdx.mp h
  have hs := List.getElem?_eq_getElem hn
  have hlt : n < (a.run d s v).trace.calls.length := by
    rw [List.length_take] at hn
    omega
  rw [List.getElem?_take_of_lt hlt] at hs
  exact ⟨n, _, hs, hlt, rfl⟩

theorem texts_mapIdx (stops : List Stop) :
    (stops.mapIdx a.call).map Call.text = stops.map (·.slot.text) := by
  apply List.ext_getElem?
  intro n
  rw [List.getElem?_map, List.getElem?_mapIdx, List.getElem?_map]
  cases stops[n]? <;> rfl

/-- The calls are those of the trace. -/
theorem texts_calls (hi : a.index.Sound) :
    (a.calls d s v).map Call.text = (a.run d s v).trace.calls := by
  have hprefix : ∃ n, (a.run d s v).trace.calls
      = ((s.targets d v).take n).map (·.slot.text) := by
    cases hf : (a.run d s v).failure with
    | none =>
      refine ⟨(s.targets d v).length, ?_⟩
      rw [List.take_length]
      exact (Walk.finished_run hi hf).1
    | some e =>
      obtain ⟨n, -, hcalls, -⟩ := Walk.failed_run hi hf
      exact ⟨n + 1, hcalls⟩
  obtain ⟨n, hn⟩ := hprefix
  rw [calls, texts_mapIdx, hn, List.length_map, List.length_take, ← List.take_eq_take_min]

/-- A walk leaves its stops at the same places. -/
theorem stops_run (hi : a.index.Sound) :
    (s.stops (a.run d s v).value).map Stop.place = (s.stops v).map Stop.place :=
  Schema.stops_congr ((Walk.mk d a.leaf).run_follows hi s v).blank_eq

/-- What stands where there was a stop is at a stop again. -/
theorem mem_stops_run (hi : a.index.Sound) {stop : Stop} (slot : Slot) (hs : stop ∈ s.stops v)
    (hat : Value.at? stop.path (a.run d s v).value = some slot.value) :
    ⟨stop.path, slot⟩ ∈ s.stops (a.run d s v).value := by
  have hplace : stop.place ∈ (s.stops (a.run d s v).value).map Stop.place := by
    rw [stops_run hi]
    exact List.mem_map_of_mem hs
  obtain ⟨other, ho, he⟩ := List.mem_map.mp hplace
  have hnew : Value.at? (Stop.mk stop.path slot).path (a.run d s v).value = some slot.value := hat
  exact Schema.mem_stops_of_at? hnew ho (Prod.mk.inj he).1

/-- A stop is passed over if there is nothing to hand over. -/
theorem at_passed (hi : a.index.Sound) {stop : Stop} (hs : stop ∈ s.stops v)
    (ht : stop.slot.handed? d = none) :
    callsAt stop.path (a.calls d s v) = [] ∧ stop ∈ s.stops (a.run d s v).value := by
  constructor
  · apply callsAt_eq_nil
    intro c hc hpath
    obtain ⟨n, other, ho, -, rfl⟩ := mem_calls hc
    obtain ⟨hother, htarget⟩ := List.mem_filter.mp (List.mem_of_getElem? ho)
    -- At one path there is one stop, and this one is no target.
    rw [← Schema.stop_unique hs hother hpath.symm, Stop.isTarget, ht] at htarget
    cases htarget
  · obtain ⟨before, after, hstops⟩ := List.append_of_mem hs
    refine mem_stops_run hi stop.slot hs ?_
    rw [run, Walk.at?_run_of_split hi hstops]
    cases (Walk.turnAll ⟨d, a.leaf⟩ (before.map Stop.slot) []).failure with
    | some e => rfl
    | none =>
      dsimp only
      rw [Walk.turned_eq_self]
      intro text answer hhanded
      rw [ht] at hhanded
      cases hhanded

/-- A target is called and has its turn, unless the walk ends before. -/
theorem at_target (hi : a.index.Sound) {stop : Stop} (hs : stop ∈ s.stops v)
    (ht : stop.isTarget d = true) : ∃ n, (s.targets d v)[n]? = some stop ∧
      ((a.run d s v).trace.calls.length ≤ n ∧ callsAt stop.path (a.calls d s v) = [] ∧
          stop ∈ s.stops (a.run d s v).value ∨
        callsAt stop.path (a.calls d s v) = [a.call n stop] ∧
          ⟨stop.path, Walk.turned ⟨d, a.leaf⟩ n stop.slot⟩ ∈ s.stops (a.run d s v).value) := by
  obtain ⟨before, after, hstops⟩ := List.append_of_mem hs
  obtain ⟨k, hk⟩ : ∃ k, (before.filter (Stop.isTarget d)).length = k := ⟨_, rfl⟩
  have hnumber : (s.targets d v)[k]? = some stop := by
    rw [Schema.targets, hstops, ← hk]
    exact getElem?_filter_split before after ht
  have hreached : (Walk.turnAll ⟨d, a.leaf⟩ (before.map Stop.slot) []).failure = none ↔
      k < (a.run d s v).trace.calls.length :=
    hk ▸ Walk.reached_target (w := ⟨d, a.leaf⟩) hi hstops ht
  have hat := Walk.at?_run_of_split (w := ⟨d, a.leaf⟩) hi hstops
  refine ⟨k, hnumber, ?_⟩
  by_cases hlt : k < (a.run d s v).trace.calls.length
  · rw [hreached.mpr hlt] at hat
    dsimp only at hat
    rw [Walk.toHand_slots, List.length_map, hk] at hat
    refine .inr ⟨callsAt_mapIdx (fun _ _ => rfl) ?_ ?_, mem_stops_run hi _ hs hat⟩
    · exact (s.targets_ordered d v).sublist (List.take_sublist _ _)
    · rw [List.getElem?_take_of_lt hlt, hnumber]
  · obtain ⟨e, he⟩ := Option.ne_none_iff_exists'.mp fun h => hlt (hreached.mp h)
    rw [he] at hat
    refine .inl ⟨Nat.not_lt.mp hlt, callsAt_eq_nil ?_, mem_stops_run hi stop.slot hs hat⟩
    intro c hc hpath
    obtain ⟨n, other, ho, hn, rfl⟩ := mem_calls hc
    refine Stop.ne_of_lt ?_ hpath
    exact (s.targets_ordered d v).lt_of_getElem? ho hnumber (by omega)

/-- Under the typed tag what is as it should be is passed over. -/
theorem at_settled (hi : a.index.Sound) {path : Path} {text : String}
    (hs : ⟨path, .typed (d.settled text)⟩ ∈ s.stops v) :
    callsAt path (a.calls d s v) = [] ∧
      ⟨path, .typed (d.settled text)⟩ ∈ s.stops (a.run d s v).value :=
  at_passed hi hs Slot.handed?_settled

/-- Under the typed tag a text stays until there is an answer, and is replaced by it. -/
theorem at_pending (hi : a.index.Sound) {path : Path} {text : String}
    (hs : ⟨path, .typed (d.pending text)⟩ ∈ s.stops v) :
    (∀ c ∈ callsAt path (a.calls d s v), c.Refuses text) ∧
        ⟨path, .typed (d.pending text)⟩ ∈ s.stops (a.run d s v).value ∧
        (a.run d s v).failure ≠ none ∨
      ∃ answer, callsAt path (a.calls d s v) = [⟨path, .typed, text, .ok answer⟩] ∧
        ⟨path, .typed (d.settled answer)⟩ ∈ s.stops (a.run d s v).value := by
  have ht : Stop.isTarget d ⟨path, .typed (d.pending text)⟩ = true := by
    rw [Stop.isTarget, Slot.handed?_pending]
    rfl
  obtain ⟨n, hn, ⟨hle, hcalls, hstays⟩ | ⟨hcalls, hturned⟩⟩ := at_target hi hs ht
  · -- The walk has ended before; one that comes through calls all its targets.
    refine .inl ⟨by simp [hcalls], hstays, fun hf => ?_⟩
    have hall := congrArg List.length (Walk.finished_run hi hf).1
    rw [List.length_map] at hall
    obtain ⟨hlt, -⟩ := List.getElem?_eq_some_iff.mp hn
    exact absurd (hall ▸ hle) (Nat.not_le.mpr hlt)
  · rw [call, Slot.text_pending] at hcalls
    cases hl : a.leaf n text with
    | ok answer =>
      rw [Walk.turned_of_answer _ Slot.handed?_pending hl, Slot.answered_typed] at hturned
      rw [hl] at hcalls
      exact .inr ⟨answer, hcalls, hturned⟩
    | error e =>
      rw [Walk.turned_eq_self] at hturned
      · refine .inl ⟨?_, hturned, fun hf => ?_⟩
        · rw [hcalls, hl]
          rintro c hc
          rw [List.mem_singleton.mp hc]
          exact ⟨rfl, e, rfl⟩
        · refine (Walk.finished_run hi hf).2 n e ⟨_, hn, ?_, Slot.tolerant_typed ..⟩
          rwa [Slot.text_pending]
      · intro text' answer hhanded hanswer
        obtain rfl := Option.some.inj (Slot.handed?_pending.symm.trans hhanded)
        cases hl.symm.trans hanswer

/-- What is under the typed tag after an attempt was so before. -/
theorem typed_before (hi : a.index.Sound) {path : Path} {t : TaggedText}
    (hs : ⟨path, .typed t⟩ ∈ s.stops (a.run d s v).value) : ∃ t', ⟨path, .typed t'⟩ ∈ s.stops v := by
  have hplace : (path, Tag.typed) ∈ (s.stops v).map Stop.place := by
    rw [← stops_run hi]
    exact List.mem_map.mpr ⟨_, hs, rfl⟩
  obtain ⟨⟨path', slot⟩, hbefore, he⟩ := List.mem_map.mp hplace
  obtain ⟨rfl, htag⟩ := Prod.mk.inj he
  cases slot with
  | inline text => cases htag
  | typed t' => exact ⟨t', hbefore⟩

/-- What is settled stays so. -/
theorem settled_run (hi : a.index.Sound) (h : s.Settled d v) : s.Settled d (a.run d s v).value := by
  rintro ⟨path, slot⟩ hs text rfl
  obtain ⟨t, ht⟩ := typed_before hi hs
  obtain ⟨text', rfl⟩ | ⟨text', rfl⟩ := d.pending_or_settled t
  · exact h _ ht text' rfl
  · have hsame := Schema.stop_unique hs (at_settled hi ht).2 rfl
    exact d.pending_ne_settled _ _ (Slot.typed.inj (Stop.mk.inj hsame).2)

/-- An attempt that comes through settles everything. -/
theorem settled_of_finished (hi : a.index.Sound) (hf : (a.run d s v).failure = none) :
    s.Settled d (a.run d s v).value := by
  rintro ⟨path, slot⟩ hs text rfl
  have hnot : ∀ answer, ⟨path, .typed (d.settled answer)⟩ ∉ s.stops (a.run d s v).value := by
    intro answer hsettled
    have hsame := Schema.stop_unique hs hsettled rfl
    exact d.pending_ne_settled _ _ (Slot.typed.inj (Stop.mk.inj hsame).2)
  obtain ⟨t, ht⟩ := typed_before hi hs
  obtain ⟨text', rfl⟩ | ⟨text', rfl⟩ := d.pending_or_settled t
  · obtain ⟨-, -, hfailed⟩ | ⟨answer, -, hsettled⟩ := at_pending hi ht
    · exact hfailed hf
    · exact hnot answer hsettled
  · exact hnot text' (at_settled hi ht).2

/-- Where everything is settled, no call is made under the typed tag. -/
theorem tag_of_settled (h : s.Settled d v) : ∀ c ∈ a.calls d s v, c.tag ≠ .typed := by
  intro c hc htag
  obtain ⟨n, ⟨path, slot⟩, hn, -, rfl⟩ := mem_calls hc
  obtain ⟨hs, htarget⟩ := List.mem_filter.mp (List.mem_of_getElem? hn)
  cases slot with
  | inline text => cases htag
  | typed t =>
    obtain ⟨text, rfl⟩ | ⟨text, rfl⟩ := d.pending_or_settled t
    · exact h _ hs text rfl
    · rw [Stop.isTarget, Slot.handed?_settled] at htarget
      cases htarget

end Attempt

/-! ## A row of attempts -/

namespace Schema

variable {d : Direction} {s : Schema} {v : Value} {history : List Attempt}

theorem stops_afterAll (hi : ∀ a ∈ history, a.index.Sound) :
    (s.stops (s.afterAll d history v)).map Stop.place = (s.stops v).map Stop.place := by
  induction history generalizing v with
  | nil => rfl
  | cons a rest ih =>
    obtain ⟨ha, hrest⟩ := List.forall_mem_cons.mp hi
    rw [afterAll, ih hrest, Attempt.stops_run ha]

theorem settled_afterAll (hi : ∀ a ∈ history, a.index.Sound) (h : s.Settled d v) :
    s.Settled d (s.afterAll d history v) ∧ ∀ c ∈ s.callsOfAll d history v, c.tag ≠ .typed := by
  induction history generalizing v with
  | nil => exact ⟨h, fun c hc => absurd hc List.not_mem_nil⟩
  | cons a rest ih =>
    obtain ⟨ha, hrest⟩ := List.forall_mem_cons.mp hi
    obtain ⟨hafter, hcalls⟩ := ih hrest (Attempt.settled_run ha h)
    refine ⟨hafter, ?_⟩
    intro c hc
    rw [callsOfAll] at hc
    rcases List.mem_append.mp hc with hfirst | hothers
    · exact Attempt.tag_of_settled h c hfirst
    · exact hcalls c hothers

theorem settled_at_all (hi : ∀ a ∈ history, a.index.Sound) {path : Path} {text : String}
    (hs : ⟨path, .typed (d.settled text)⟩ ∈ s.stops v) :
    callsAt path (s.callsOfAll d history v) = [] ∧
      ⟨path, .typed (d.settled text)⟩ ∈ s.stops (s.afterAll d history v) := by
  induction history generalizing v with
  | nil => exact ⟨rfl, hs⟩
  | cons a rest ih =>
    obtain ⟨ha, hrest⟩ := List.forall_mem_cons.mp hi
    obtain ⟨hfirst, hs⟩ := Attempt.at_settled ha hs
    obtain ⟨hothers, hs⟩ := ih hrest hs
    refine ⟨?_, hs⟩
    rw [callsOfAll, callsAt_append, hfirst, hothers, List.append_nil]

theorem pending_at_all (hi : ∀ a ∈ history, a.index.Sound) {path : Path} {text : String}
    (hs : ⟨path, .typed (d.pending text)⟩ ∈ s.stops v) :
    ∃ refusals : List Call, (∀ c ∈ refusals, c.Refuses text) ∧
      (callsAt path (s.callsOfAll d history v) = refusals ∧
          ⟨path, .typed (d.pending text)⟩ ∈ s.stops (s.afterAll d history v) ∨
        ∃ answer, callsAt path (s.callsOfAll d history v)
            = refusals ++ [⟨path, .typed, text, .ok answer⟩] ∧
          ⟨path, .typed (d.settled answer)⟩ ∈ s.stops (s.afterAll d history v)) := by
  induction history generalizing v with
  | nil => exact ⟨[], fun c hc => absurd hc List.not_mem_nil, .inl ⟨rfl, hs⟩⟩
  | cons a rest ih =>
    obtain ⟨ha, hrest⟩ := List.forall_mem_cons.mp hi
    rw [callsOfAll, callsAt_append]
    obtain ⟨hfirst, hs, -⟩ | ⟨answer, hfirst, hs⟩ := Attempt.at_pending ha hs
    · obtain ⟨refusals, hrefusals, hothers⟩ := ih hrest hs
      refine ⟨callsAt path (a.calls d s v) ++ refusals, ?_, ?_⟩
      · intro c hc
        exact (List.mem_append.mp hc).elim (hfirst c) (hrefusals c)
      · obtain ⟨hcalls, hafter⟩ | ⟨answer, hcalls, hafter⟩ := hothers
        · exact .inl ⟨by rw [hcalls], hafter⟩
        · exact .inr ⟨answer, by rw [hcalls, List.append_assoc], hafter⟩
    · -- From here on the node is settled.
      obtain ⟨hothers, hafter⟩ := settled_at_all hrest hs
      refine ⟨[], fun c hc => absurd hc List.not_mem_nil, .inr ⟨answer, ?_, hafter⟩⟩
      rw [hfirst, hothers, List.append_nil, List.nil_append]

/-- What a row of attempts in one direction comes to under the typed tag, whatever the ciphers do:
a text is refused any number of times and answered at most once, and the answer stays. -/
structure SettlesOnce (d : Direction) (s : Schema) (history : List Attempt) (v : Value) : Prop where
  handed : ∀ before a later, history = before ++ a :: later →
    (a.calls d s (s.afterAll d before v)).map Call.text
      = (a.run d s (s.afterAll d before v)).trace.calls
  reached : (s.stops (s.afterAll d history v)).map Stop.place = (s.stops v).map Stop.place
  pending : ∀ path text, ⟨path, .typed (d.pending text)⟩ ∈ s.stops v →
    ∃ refusals : List Call, (∀ c ∈ refusals, c.Refuses text) ∧
      (callsAt path (s.callsOfAll d history v) = refusals ∧
          Value.at? path (s.afterAll d history v) = some (.tagged (d.pending text)) ∨
        ∃ answer, callsAt path (s.callsOfAll d history v)
            = refusals ++ [⟨path, .typed, text, .ok answer⟩] ∧
          Value.at? path (s.afterAll d history v) = some (.tagged (d.settled answer)))
  settled : ∀ path text, ⟨path, .typed (d.settled text)⟩ ∈ s.stops v →
    callsAt path (s.callsOfAll d history v) = [] ∧
      Value.at? path (s.afterAll d history v) = some (.tagged (d.settled text))
  finished : ∀ before a later, history = before ++ a :: later →
    (a.run d s (s.afterAll d before v)).failure = none →
      s.Settled d (a.run d s (s.afterAll d before v)).value ∧
        s.Settled d (s.afterAll d history v) ∧
        ∀ c ∈ s.callsOfAll d later (a.run d s (s.afterAll d before v)).value, c.tag ≠ .typed

theorem afterAll_append (before later : List Attempt) (v : Value) :
    s.afterAll d (before ++ later) v = s.afterAll d later (s.afterAll d before v) := by
  induction before generalizing v with
  | nil => rfl
  | cons a rest ih => rw [List.cons_append, afterAll, afterAll, ih]

/-- **Under the typed tag every text is answered at most once**, over all attempts there are, and a
text that has its answer is left alone. -/
theorem settles_once (d : Direction) (s : Schema) (history : List Attempt) (v : Value)
    (hi : ∀ a ∈ history, a.index.Reachable) : s.SettlesOnce d history v := by
  have hsound : ∀ a ∈ history, a.index.Sound := fun a ha => (hi a ha).sound
  refine ⟨?_, stops_afterAll hsound, ?_, ?_, ?_⟩
  · rintro before a later rfl
    exact Attempt.texts_calls (hsound a (by simp))
  · intro path text hs
    obtain ⟨refusals, hrefusals, ⟨hcalls, hafter⟩ | ⟨answer, hcalls, hafter⟩⟩ :=
      pending_at_all hsound hs
    · exact ⟨refusals, hrefusals, .inl ⟨hcalls, at?_of_mem_stops hafter⟩⟩
    · exact ⟨refusals, hrefusals, .inr ⟨answer, hcalls, at?_of_mem_stops hafter⟩⟩
  · intro path text hs
    obtain ⟨hcalls, hafter⟩ := settled_at_all hsound hs
    exact ⟨hcalls, at?_of_mem_stops hafter⟩
  · rintro before a later rfl hf
    have hdone := Attempt.settled_of_finished (hsound a (by simp)) hf
    have hlater : ∀ b ∈ later, b.index.Sound := fun b hb => hsound b (by simp [hb])
    refine ⟨hdone, ?_, (settled_afterAll hlater hdone).2⟩
    rw [afterAll_append, afterAll]
    exact (settled_afterAll hlater hdone).1

/-- The first cipher refuses the second text, the second takes it, and the third would refuse
everything. Each text is answered once, the one that has been sealed before not at all. -/
theorem settles_once_retried :
    let s : Schema := .array (.string (some .typed))
    let v : Value := .array [.tagged (.plain "a"), .tagged (.plain "b"), .tagged (.encrypted "c")]
    let history : List Attempt :=
      [⟨fun n _ => if n = 0 then .ok "x" else .error .unauthentic, .empty⟩,
        ⟨fun _ _ => .ok "y", .empty⟩, ⟨fun _ _ => .error .unauthentic, .empty⟩]
    (∀ a ∈ history, a.index.Reachable) ∧ s.SettlesOnce .encrypt history v ∧
      callsAt [0] (s.callsOfAll .encrypt history v) = [⟨[0], .typed, "a", .ok "x"⟩] ∧
      callsAt [1] (s.callsOfAll .encrypt history v)
        = [⟨[1], .typed, "b", .error .unauthentic⟩, ⟨[1], .typed, "b", .ok "y"⟩] ∧
      callsAt [2] (s.callsOfAll .encrypt history v) = [] ∧
      s.afterAll .encrypt history v = .array
        [.tagged (.encrypted "x"), .tagged (.encrypted "y"), .tagged (.encrypted "c")] := by
  intro s v history
  have hi : ∀ a ∈ history, a.index.Reachable := by
    intro a ha
    simp only [history, List.mem_cons, List.not_mem_nil, or_false] at ha
    rcases ha with rfl | rfl | rfl <;> exact .empty
  exact ⟨hi, settles_once .encrypt s history v hi, by rfl, by rfl, by rfl, by rfl⟩

end Schema

end FieldSeal
