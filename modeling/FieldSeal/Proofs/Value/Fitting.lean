import FieldSeal.Proofs.Value.Parts
import FieldSeal.Rendering.Basic

/-!
# Values that fit their schema

A value fits a schema when it is of its kind at every depth: each record has the type of its place
and one value for each field of it, each union has a value of one of its members, and each text at a
typed tag bears the mark that the rendering makes up. Nothing else may be there, not even a null, and
that is the difference from `Schema.Conforms`, where a record may have fields that are not set.

Readers give only such values, and whatever one wants to know of a value that was just read follows
from that, part by part (`Fits.part`).
-/

set_option autoImplicit false

namespace FieldSeal

/-- The mark of a text that has been read. -/
def Rendering.mark : Rendering → String → TaggedText
  | .wire, text => .encrypted text
  | .plain, text => .plain text

namespace Schema

inductive Fits (rendering : Rendering) : Schema → Value → Prop
  | null : Fits rendering .null .null
  | boolean (b : Bool) : Fits rendering .boolean (.boolean b)
  | int (n : Int32) : Fits rendering .int (.int n)
  | long (n : Int64) : Fits rendering .long (.long n)
  | float (x : Ieee.Binary32) : Fits rendering .float (.float x)
  | double (x : Ieee.Binary64) : Fits rendering .double (.double x)
  | bytes (data : List UInt8) : Fits rendering .bytes (.bytes data)
  | string (text : String) : Fits rendering (.string none) (.string text)
  | inline (text : String) : Fits rendering (.string (some .inline)) (.string text)
  | typed (text : String) : Fits rendering (.string (some .typed)) (.tagged (rendering.mark text))
  | enum {type : EnumType} {symbol : String} (h : symbol ∈ type.symbols) :
      Fits rendering (.enum type) (.enum symbol)
  | fixed {type : FixedType} {data : List UInt8} (h : data.length = type.size) :
      Fits rendering (.fixed type) (.fixed data)
  | record {type : RecordType} {fields : List Value} (length : fields.length = type.fields.length)
      (h : ∀ (i : Nat) (f : Field) (v : Value), type.fields[i]? = some f → fields[i]? = some v →
        Fits rendering f.schema v) : Fits rendering (.record type) (.record ⟨type, fields⟩)
  | array {items : Schema} {vs : List Value} (h : ∀ v ∈ vs, Fits rendering items v) :
      Fits rendering (.array items) (.array vs)
  | map {values : Schema} {es : List (String × Value)} (ascending : Table.Ascending es)
      (h : ∀ e ∈ es, Fits rendering values e.2) : Fits rendering (.map values) (.map es)
  | member {members : List Schema} {m : Schema} {v : Value} (hm : m ∈ members)
      (h : Fits rendering m v) : Fits rendering (.union members) v

namespace Fits

variable {rendering : Rendering} {s : Schema} {v : Value}

/-- A text at a tag fits as it is read. -/
theorem ofText (tag : Tag) (text : String) :
    Fits rendering (.string (some tag)) (rendering.ofText tag text) := by
  cases tag with
  | inline => cases rendering <;> exact .inline text
  | typed =>
    cases rendering with
    | wire => exact @typed .wire text
    | plain => exact @typed .plain text

/-- The value of a field stands under a field of the type. -/
theorem exists_field {type : RecordType} {fields : List Value}
    (hlength : fields.length = type.fields.length) (hv : v ∈ fields) :
    ∃ (i : Nat) (f : Field), f ∈ type.fields ∧ type.fields[i]? = some f ∧ fields[i]? = some v := by
  obtain ⟨i, hi⟩ := List.mem_iff_getElem?.mp hv
  have hlt : i < type.fields.length := by
    rw [← hlength]
    exact (List.getElem?_eq_some_iff.mp hi).1
  exact ⟨i, type.fields[i], List.getElem_mem hlt, List.getElem?_eq_getElem hlt, hi⟩

theorem regular (h : s.Fits rendering v) : v.Regular := by
  induction h with
  | record hlength _ ih =>
    rw [Value.Regular, Value.regularItems_iff]
    refine ⟨hlength, fun v hv => ?_⟩
    obtain ⟨i, f, -, hf, hi⟩ := exists_field hlength hv
    exact ih i f v hf hi
  | array _ ih =>
    rw [Value.Regular, Value.regularItems_iff]
    exact ih
  | map ascending _ ih =>
    rw [Value.Regular, Value.regularEntries_iff]
    exact ⟨ascending, ih⟩
  | member _ _ ih => exact ih
  | _ => simp [Value.Regular]

/-- **Every part of a value that fits fits a node of the schema.** -/
theorem part (h : s.Fits rendering v) {x : Value} (hx : x ∈ v.parts) :
    ∃ t ∈ s.nodes, t.Fits rendering x := by
  have whole : ∀ {t : Schema}, t.Fits rendering x → ∃ t' ∈ t.nodes, t'.Fits rendering x :=
    fun {t} ht => ⟨t, t.mem_nodes_self, ht⟩
  induction h with
  | @record type fields hlength h ih =>
    rw [Value.parts, Record.parts, List.mem_cons, mem_partsOfItems] at hx
    rcases hx with rfl | ⟨v, hv, hx⟩
    · exact whole (.record hlength h)
    · obtain ⟨i, f, hmem, hf, hi⟩ := exists_field hlength hv
      obtain ⟨t, ht, hfits⟩ := ih i f v hf hi hx
      exact ⟨t, nodes_trans ht (mem_nodes_field hmem), hfits⟩
  | @array items vs h ih =>
    rw [Value.parts, List.mem_cons, mem_partsOfItems] at hx
    rcases hx with rfl | ⟨v, hv, hx⟩
    · exact whole (.array h)
    · obtain ⟨t, ht, hfits⟩ := ih v hv hx
      exact ⟨t, nodes_trans ht (mem_nodes_items items), hfits⟩
  | @map values es ascending h ih =>
    rw [Value.parts, List.mem_cons, mem_partsOfEntries] at hx
    rcases hx with rfl | ⟨e, he, hx⟩
    · exact whole (.map ascending h)
    · obtain ⟨t, ht, hfits⟩ := ih e he hx
      exact ⟨t, nodes_trans ht (mem_nodes_values values), hfits⟩
  | member hm _ ih =>
    obtain ⟨t, ht, hfits⟩ := ih hx
    exact ⟨t, nodes_trans ht (mem_nodes_member hm), hfits⟩
  | _ =>
    -- What has no parts is a part of itself.
    obtain rfl : x = _ := by simpa using hx
    exact whole (by constructor <;> assumption)

theorem type_mem_nodes {r : Record} (h : s.Fits rendering (.record r)) :
    Schema.record r.type ∈ s.nodes := by
  generalize hv : Value.record r = v at h
  induction h with
  | record =>
    cases hv
    exact mem_nodes_self _
  | member hm _ ih => exact nodes_trans (ih hv) (mem_nodes_member hm)
  | _ => cases hv

theorem typesIn (h : s.Fits rendering v) : v.TypesIn s := by
  intro r hr
  obtain ⟨t, ht, hfits⟩ := h.part hr
  exact nodes_trans hfits.type_mem_nodes ht

/-- All marks are those of the rendering. -/
theorem mark_eq {t : TaggedText} (h : s.Fits rendering (.tagged t)) :
    t = rendering.mark t.text := by
  generalize hv : Value.tagged t = v at h
  induction h with
  | typed text =>
    cases hv
    cases rendering <;> rfl
  | member _ _ ih => exact ih hv
  | _ => cases hv

end Fits

end Schema

end FieldSeal
