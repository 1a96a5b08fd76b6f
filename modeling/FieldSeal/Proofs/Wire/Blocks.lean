import FieldSeal.Proofs.Wire.Emission
import FieldSeal.Proofs.Wire.Reads

/-!
# Single values, lengths and blocks are read back

The building blocks of values on the wire. A block is the interesting one: its items are read if
their number is within the limit, each with whatever limits it has itself, and nothing of them is
read if it is not. So what fits is the count and all items, and that is one condition in
`reads_block`.
-/

set_option autoImplicit false

namespace FieldSeal.Wire

/- A power of natural numbers is that of core here, whatever else is in scope. -/
attribute [local instance (high)] instPowNat

/-! ## Single values -/

theorem reads_boolean (b : Bool) : Reads readBoolean [if b then 1 else 0] True b := by
  refine (reads_next _).ends ?_
  cases b with
  | false => exact .pure false
  | true => exact .pure true

theorem reads_int (n : Int32) :
    Reads readInt (Varint.encode (Int64.ofInt n.toInt)) True n := by
  have hn : int32? (Int64.ofInt n.toInt) = some n := by
    rw [int32?, Int64.ofInt_int32ToInt, Int32.toInt32_toInt64, if_pos rfl]
  refine (Varint.reads _).ends ?_
  rw [hn]
  exact .pure n

theorem reads_length {n : Nat} (h : n < 2 ^ (63 : Nat)) :
    Reads readLength (writeLength n) True n := by
  have hn : (Int64.ofNat n).toInt = n := Int64.toInt_ofNat_of_lt h
  refine (Varint.reads (Int64.ofNat n)).ends ?_
  rw [hn, if_neg (by omega), Int.toNat_natCast]
  exact .pure n

theorem reads_bytes {data : List UInt8} (h : data.length < 2 ^ (63 : Nat)) :
    Reads readBytes (writeBytes data).bytes True data :=
  (reads_length h).followed (reads_take data)

theorem reads_text {text : String} (h : (Utf8.encode text).length < 2 ^ (63 : Nat)) :
    Reads readText (writeText text).bytes True text := by
  refine (reads_bytes h).ends ?_
  rw [Utf8.decode?_encode]
  exact .pure text

theorem reads_index {α : Type} {choices : List α} {error : String → CodecError} {i : Nat} {a : α}
    (h : choices[i]? = some a) (hi : i < 2 ^ (63 : Nat)) :
    Reads (readIndex choices error) (writeLength i) True a := by
  have hn : (Int64.ofNat i).toInt = i := Int64.toInt_ofNat_of_lt hi
  refine (Varint.reads (Int64.ofNat i)).ends ?_
  rw [hn, if_neg (by omega), Int.toNat_natCast, h]
  exact .pure a

/-! ## Blocks -/

theorem reads_count_end (seen : Nat) : Reads (readCount seen) (writeLength 0) True none :=
  (Varint.reads 0).ends (.pure none)

theorem reads_count {seen n : Nat} (h : 0 < n ∧ seen + n ≤ maxItems) :
    Reads (readCount seen) (writeLength n) True (some ⟨n, h⟩) := by
  have hm : seen + n ≤ 0x1000000 := h.2
  have hn : (Int64.ofNat n).toInt = n := Int64.toInt_ofNat_of_lt (by omega)
  refine (Varint.reads (Int64.ofNat n)).ends ?_
  simp only [hn]
  rw [if_neg (by omega), if_neg (by omega)]
  simp only [Int.natAbs_natCast]
  rw [dif_pos h]
  exact .pure _

/-- A block of too many items is refused at its count. -/
theorem readCount_too_large {seen n : Nat} (hn : n < 2 ^ (63 : Nat)) (h : maxItems < seen + n)
    (hpos : 0 < n) (rest : List UInt8) (ending : Ending) :
    readCount seen ⟨writeLength n ++ rest, ending⟩ = .error (.collectionTooLarge n) := by
  have hi : (Int64.ofNat n).toInt = n := Int64.toInt_ofNat_of_lt hn
  have hv := (Varint.reads (Int64.ofNat n)).eq_ok rest ending
  show (Varint.read _ >>= _) = _
  rw [writeLength, hv]
  show (if (Int64.ofNat n).toInt = 0 then _ else _ : Reader _) _ = _
  simp only [hi]
  rw [if_neg (by omega), if_neg (by omega)]
  simp only [Int.natAbs_natCast]
  rw [dif_neg (by omega)]
  rfl

variable {α : Type} {item : Reader α} {write : α → Emission} {fits : α → Prop}

theorem readMany_succ (n : Nat) (done : List α) :
    readMany item (n + 1) done = (do let a ← item; readMany item n (a :: done)) := by
  funext source
  rw [readMany]
  show _ = (item source >>= _)
  dsimp only
  cases item source <;> rfl

/-- Items one after the other, on top of those that are done. -/
theorem reads_many (as : List α)
    (h : ∀ a ∈ as, (write a).failure = none → Reads item (write a).bytes (fits a) a)
    (hw : (writeMany write as).failure = none) (done : List α) :
    Reads (readMany item as.length done) (writeMany write as).bytes (∀ a ∈ as, fits a)
      (as.reverse ++ done) := by
  induction as generalizing done with
  | nil => exact (Reads.pure done).congr (by simp)
  | cons a rest ih =>
    rw [writeMany] at hw ⊢
    obtain ⟨ha, hrest⟩ := andThen_failure.mp hw
    have hfirst := h a List.mem_cons_self ha
    have hothers := ih (fun b hb => h b (List.mem_cons_of_mem _ hb)) hrest (a :: done)
    rw [andThen_bytes ha, List.length_cons, readMany_succ, List.reverse_cons, List.append_assoc]
    exact Reads.congr (hfirst.bind hothers) (by simp)

/-- **A block is read back**: all items and the end. -/
theorem reads_block (as : List α)
    (h : ∀ a ∈ as, (write a).failure = none → Reads item (write a).bytes (fits a) a)
    (hw : (writeBlock write as).failure = none) (hlen : as.length < 2 ^ (63 : Nat)) :
    Reads (readBlocks item 0 []) (writeBlock write as).bytes
      (as.length ≤ maxItems ∧ ∀ a ∈ as, fits a) as := by
  cases as with
  | nil =>
    rw [readBlocks]
    exact Reads.congr ((reads_count_end 0).ends (.pure [])) (by simp)
  | cons a rest =>
    rw [writeBlock, if_neg (by simp)] at hw ⊢
    obtain ⟨hcount, hw⟩ := andThen_failure.mp hw
    obtain ⟨hmany, -⟩ := andThen_failure.mp hw
    rw [andThen_bytes hcount, andThen_bytes hmany]
    by_cases hmax : (a :: rest).length ≤ maxItems
    · have hn : 0 < (a :: rest).length ∧ 0 + (a :: rest).length ≤ maxItems := ⟨by simp, by omega⟩
      have hitems := reads_many (a :: rest) h hmany []
      have hend : Reads (readBlocks item (0 + (a :: rest).length) ((a :: rest).reverse ++ []))
          (writeLength 0) True (a :: rest) := by
        rw [readBlocks]
        refine (reads_count_end _).ends ?_
        simp only [List.append_nil, List.reverse_reverse]
        exact .pure _
      rw [readBlocks]
      refine Reads.congr ((reads_count hn).followed (hitems.bind hend)) ?_
      simp only [and_true, hmax, true_and]
    · intro rest' ending
      refine ⟨fun hfits => absurd hfits.1 hmax, ?_⟩
      intro _
      refine ⟨(a :: rest).length, ?_⟩
      rw [List.append_assoc, readBlocks]
      show (readCount 0 _ >>= _) = _
      rw [Emission.of, readCount_too_large hlen (by omega) (by simp)]
      rfl

end FieldSeal.Wire
