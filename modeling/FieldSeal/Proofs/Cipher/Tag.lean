import FieldSeal.Proofs.Cipher.Counter
import Mathlib.Algebra.Field.ZMod
import Mathlib.RingTheory.AdjoinRoot
import Mathlib.Tactic.ComputeDegree
import Mathlib.Tactic.LinearCombination

/-!
# The tag as the value of a polynomial

The program multiplies blocks bit by bit, with a shift and a constant for the reduction, and makes the
tag in a loop over the blocks. What it computes is the value of a polynomial: the coefficients are the
encrypted blocks and their length, the place is the block function at zero, and the ring is that of
the polynomials over two elements modulo `X ^ 128 + X ^ 7 + X ^ 2 + X + 1`. `Gcm.Tags` says so with
sums and powers of that ring, for bytes that are read off bit by bit. Since 128 bits are a residue's
coefficients (`element_inj`) it determines the tag (`Gcm.tags_iff`).

That the ring is a field is not used.
-/

set_option autoImplicit false

namespace FieldSeal.Gcm

open Polynomial

/-! ## The ring -/

noncomputable def modulus : (ZMod 2)[X] := X ^ 128 + (X ^ 7 + X ^ 2 + X + 1)

theorem modulus_eq : modulus = X ^ 128 + (X ^ 7 + X ^ 2 + X + 1) := by
  delta modulus
  exact Eq.refl _

theorem monic_modulus : modulus.Monic := by
  rw [modulus_eq]
  apply monic_X_pow_add
  compute_degree!

theorem degree_modulus : modulus.degree = 128 := by
  rw [modulus_eq]
  compute_degree!

/-- Residues of polynomials over two elements. -/
abbrev Residue := AdjoinRoot modulus

/-- The residue of the variable. -/
noncomputable abbrev root : Residue := AdjoinRoot.root modulus

theorem add_self (r : Residue) : r + r = 0 := by
  have htwo : (2 : Residue) = 0 := by
    rw [← map_ofNat (AdjoinRoot.of modulus) 2, show (2 : ZMod 2) = 0 from rfl, map_zero]
  rw [← two_mul, htwo, zero_mul]

theorem root_pow : root ^ 128 = root ^ 7 + root ^ 2 + root + 1 := by
  have hzero : AdjoinRoot.mk modulus (X ^ 128 + (X ^ 7 + X ^ 2 + X + 1)) = 0 := by
    rw [← modulus_eq]
    exact AdjoinRoot.mk_self
  simp only [map_add, map_pow, map_one, AdjoinRoot.mk_X] at hzero
  linear_combination hzero - add_self (root ^ 7 + root ^ 2 + root + 1)

/-! ## Bits as coefficients -/

/-- The residue with 128 bits as its coefficients, the constant one first. -/
noncomputable def element (bit : Nat → Bool) : Residue :=
  ∑ i ∈ Finset.range 128, if bit i then root ^ i else 0

theorem element_congr {bit bit' : Nat → Bool} (h : ∀ i < 128, bit i = bit' i) :
    element bit = element bit' :=
  Finset.sum_congr rfl fun i hi => by rw [h i (Finset.mem_range.mp hi)]

/-- The polynomial with these coefficients. -/
noncomputable def representative (bit : Nat → Bool) : (ZMod 2)[X] :=
  ∑ i ∈ Finset.range 128, if bit i then X ^ i else 0

theorem coeff_representative (bit : Nat → Bool) (n : Nat) :
    (representative bit).coeff n = if n < 128 ∧ bit n then 1 else 0 := by
  have hterm : ∀ i, (if bit i then (X : (ZMod 2)[X]) ^ i else 0).coeff n
      = if i = n then (if bit n then 1 else 0) else 0 := by
    intro i
    by_cases hi : i = n
    · subst hi
      by_cases hbit : bit i <;> simp [hbit]
    · by_cases hbit : bit i <;> simp [hbit, hi, coeff_X_pow, Ne.symm hi]
  rw [representative, finsetSum_coeff, Finset.sum_congr rfl fun i _ => hterm i,
    Finset.sum_ite_eq' (Finset.range 128) n]
  simp [ite_and]

theorem mk_representative (bit : Nat → Bool) :
    AdjoinRoot.mk modulus (representative bit) = element bit := by
  rw [representative, element, map_sum]
  refine Finset.sum_congr rfl fun i _ => ?_
  by_cases hbit : bit i <;> simp [hbit]

/-- Of a low degree there is one polynomial in a residue. -/
theorem mk_inj_of_degree_lt {R : Type} [CommRing R] {m p q : R[X]} (hm : m.Monic)
    (hd : (p - q).degree < m.degree) (h : AdjoinRoot.mk m p = AdjoinRoot.mk m q) : p = q := by
  by_contra hne
  exact hm.not_dvd_of_degree_lt (sub_ne_zero.mpr hne) hd (AdjoinRoot.mk_eq_mk.mp h)

/-- A residue has its coefficients only once. -/
theorem element_inj {bit bit' : Nat → Bool} (h : element bit = element bit') :
    ∀ i < 128, bit i = bit' i := by
  intro i hi
  rw [← mk_representative, ← mk_representative] at h
  have hdegree : (representative bit - representative bit').degree < modulus.degree := by
    rw [degree_modulus]
    refine (degree_lt_iff_coeff_zero _ 128).mpr fun n hn => ?_
    have hout : ¬ n < 128 := Nat.not_lt.mpr hn
    simp [coeff_representative, hout]
  have hcoeff := congrArg (coeff · i) (mk_inj_of_degree_lt monic_modulus hdegree h)
  simp only [coeff_representative, hi, true_and] at hcoeff
  by_cases hbit : bit i <;> by_cases hbit' : bit' i <;> simp_all

theorem element_xor (bit bit' : Nat → Bool) :
    element (fun i => bit i ^^ bit' i) = element bit + element bit' := by
  rw [element, element, element, ← Finset.sum_add_distrib]
  refine Finset.sum_congr rfl fun i _ => ?_
  cases bit i <;> cases bit' i <;> simp [add_self]

/-- The residue of a block. -/
noncomputable def value (b : Block) : Residue := element b.getMsbD

@[simp] theorem value_zero : value 0 = 0 := by
  simp [value, element]

@[simp] theorem value_xor (a b : Block) : value (a ^^^ b) = value a + value b := by
  rw [value, value, value, ← element_xor]
  exact element_congr fun i _ => BitVec.getMsbD_xor

/-! ## The product -/

theorem value_reduction : value reduction = root ^ 128 := by
  have hbits : ∀ i < 128, reduction.getMsbD i = decide (i ∈ ({0, 1, 2, 7} : Finset Nat)) := by
    decide
  have hlow : ({0, 1, 2, 7} : Finset Nat) ⊆ Finset.range 128 := by decide
  rw [value, element_congr hbits, element, root_pow]
  simp only [decide_eq_true_eq]
  rw [← Finset.sum_filter, Finset.filter_mem_eq_inter, Finset.inter_eq_right.mpr hlow]
  simp
  ring

/-- Moving the bits on by one multiplies by the variable: the last bit comes back through the
reduction. -/
theorem value_shift (y : Block) :
    value (if y.getLsbD 0 then (y >>> 1) ^^^ reduction else y >>> 1) = root * value y := by
  have hmove : value (y >>> 1) = ∑ i ∈ Finset.range 127, if y.getMsbD i then root ^ (i + 1) else 0 := by
    have hfirst : (y >>> 1).getMsbD 0 = false := by simp [BitVec.getMsbD_ushiftRight]
    rw [value, element, Finset.sum_range_succ', hfirst, if_neg Bool.false_ne_true, add_zero]
    refine Finset.sum_congr rfl fun i hi => ?_
    have hin : i + 1 < 128 := Nat.succ_lt_succ (Finset.mem_range.mp hi)
    have hbit : (y >>> 1).getMsbD (i + 1) = y.getMsbD i := by
      simp [BitVec.getMsbD_ushiftRight, hin]
    rw [hbit]
  have hlast : y.getLsbD 0 = y.getMsbD 127 := by
    simp [BitVec.getMsbD]
  have hsum : root * value y = value (y >>> 1) + if y.getMsbD 127 then root ^ 128 else 0 := by
    rw [hmove]
    simp only [value, element, Finset.sum_range_succ _ 127, mul_add, Finset.mul_sum, mul_ite, mul_zero,
      ← pow_succ']
  rw [hsum, hlast]
  by_cases h : y.getMsbD 127 = true
  · rw [if_pos h, if_pos h, value_xor, value_reduction]
  · rw [if_neg h, if_neg h, add_zero]

theorem value_mulBits (x : Block) (n : Nat) (product y : Block) :
    value (mulBits x n product y)
      = value product
        + (∑ i ∈ Finset.range n, if x.getLsbD (n - 1 - i) then root ^ i else 0) * value y := by
  induction n generalizing product y with
  | zero => simp [mulBits]
  | succ n ih =>
    rw [mulBits, ih, value_shift, Finset.sum_range_succ', Nat.add_sub_cancel, Nat.sub_zero, pow_zero]
    have hrest : ∑ i ∈ Finset.range n, (if x.getLsbD (n - (i + 1)) then root ^ (i + 1) else 0)
        = root * ∑ i ∈ Finset.range n, if x.getLsbD (n - 1 - i) then root ^ i else 0 := by
      rw [Finset.mul_sum]
      refine Finset.sum_congr rfl fun i _ => ?_
      rw [mul_ite, mul_zero, pow_succ', Nat.sub_add_eq, Nat.sub_right_comm]
    rw [hrest]
    by_cases h : x.getLsbD n = true
    · rw [if_pos h, if_pos h, value_xor]
      ring
    · rw [if_neg h, if_neg h]
      ring

/-- The product of blocks is that of the ring. -/
@[simp] theorem value_mul (x y : Block) : value (mul x y) = value x * value y := by
  have hbits : value x = ∑ i ∈ Finset.range 128, if x.getLsbD (127 - i) then root ^ i else 0 := by
    rw [value, element]
    refine Finset.sum_congr rfl fun i hi => ?_
    rw [BitVec.getMsbD, decide_eq_true (Finset.mem_range.mp hi), Bool.true_and]
  rw [mul, value_mulBits, value_zero, zero_add, hbits]

/-! ## The sum over the blocks -/

/-- Each block is added and the sum multiplied, so an early block is multiplied more often. -/
theorem value_foldl (key : Block) (blocks : List Block) (sum : Block) :
    value (blocks.foldl (fun sum b => mul (sum ^^^ b) key) sum)
      = value sum * value key ^ blocks.length
        + ∑ j ∈ Finset.range blocks.length,
            value (blocks.getD j 0) * value key ^ (blocks.length - j) := by
  induction blocks generalizing sum with
  | nil => simp
  | cons b rest ih =>
    rw [List.foldl_cons, ih, value_mul, value_xor, List.length_cons, Finset.sum_range_succ']
    simp only [List.getD_cons_succ, List.getD_cons_zero, Nat.add_sub_add_right, Nat.sub_zero]
    ring

@[simp] theorem length_cut (n : Nat) (data : List UInt8) : (Block.cut n data).length = n := by
  induction n generalizing data with
  | zero => rfl
  | succ n ih => rw [Block.cut, List.length_cons, ih]

theorem getElem?_cut {n j : Nat} (hj : j < n) (data : List UInt8) :
    (Block.cut n data)[j]? = some (.ofBytes (data.drop (16 * j))) := by
  induction n generalizing j data with
  | zero => exact absurd hj (Nat.not_lt_zero _)
  | succ n ih =>
    cases j with
    | zero => rfl
    | succ j =>
      have hplace : 16 + 16 * j = 16 * (j + 1) := by omega
      rw [Block.cut, List.getElem?_cons_succ, ih (Nat.lt_of_succ_lt_succ hj), List.drop_drop, hplace]

/-- The value at a key of the polynomial over data. Its blocks, filled up with zeros, are the first
coefficients; then come the counts of bits, of no additional data and of the data. There is no constant
one. -/
noncomputable def polynomial (key : Residue) (data : List UInt8) : Residue :=
  let blocks := (data.length + 15) / 16
  ∑ j ∈ Finset.range blocks, element (fun i => bitOf data (128 * j + i)) * key ^ (blocks + 1 - j)
    + value (0#64 ++ BitVec.ofNat 64 (8 * data.length)) * key

theorem value_hash (key : Block) (data : List UInt8) (hlen : 8 * data.length < 2 ^ 64) :
    value (hash key (Block.cut (Block.count data) data ++ [BitVec.ofNat 128 (data.length * 8)]))
      = polynomial (value key) data := by
  have hcount : BitVec.ofNat 128 (data.length * 8) = 0#64 ++ BitVec.ofNat 64 (8 * data.length) := by
    apply BitVec.eq_of_toNat_eq
    rw [BitVec.toNat_append, BitVec.toNat_ofNat, BitVec.toNat_ofNat, BitVec.toNat_ofNat,
      Nat.mod_eq_of_lt hlen, Nat.zero_mod, Nat.zero_shiftLeft, Nat.zero_or, Nat.mul_comm]
    exact Nat.mod_eq_of_lt (hlen.trans (by decide))
  have hblock : ∀ j ∈ Finset.range (Block.count data),
      value ((Block.cut (Block.count data) data).getD j 0) * value key ^ (Block.count data - j)
        * value key
      = element (fun i => bitOf data (128 * j + i)) * value key ^ (Block.count data + 1 - j) := by
    intro j hj
    have hin := Finset.mem_range.mp hj
    have hbits : value (.ofBytes (data.drop (16 * j))) = element fun i => bitOf data (128 * j + i) :=
      element_congr fun i hi => by
        rw [Block.getMsbD_ofBytes _ hi, bitOf_drop, ← Nat.mul_assoc]
    rw [List.getD_eq_getElem?_getD, getElem?_cut hin, Option.getD_some, hbits, mul_assoc, ← pow_succ,
      Nat.sub_add_comm hin.le]
  rw [hash, List.foldl_append, List.foldl_cons, List.foldl_nil, value_mul, value_xor, value_foldl,
    value_zero, zero_mul, zero_add, length_cut, add_mul, Finset.sum_mul, Finset.sum_congr rfl hblock,
    hcount, polynomial, Block.count]

/-! ## The tag -/

/-- The tag of encrypted bytes, as the mode has it. -/
structure Tags (block : Block → Block) (nonce : Nonce) (encrypted tag : List UInt8) : Prop where
  length : tag.length = 16
  value : element (bitOf tag)
    = polynomial (value (block 0)) encrypted + Gcm.value (block (counterBlock nonce 1))

variable (block : Block → Block) (nonce : Nonce) {encrypted : List UInt8}

theorem tags_tag (hlen : 8 * encrypted.length < 2 ^ 64) :
    Tags block nonce encrypted (tag block nonce encrypted) where
  length := length_tag block nonce encrypted
  value := by
    rw [tag, element_congr fun i hi => Block.bitOf_toBytes _ hi, ← value_hash _ _ hlen, ← counter_eq]
    exact value_xor _ _

variable {block nonce}

/-- There is one tag, and it is the one that the program makes. -/
theorem tags_iff {tag : List UInt8} (hlen : 8 * encrypted.length < 2 ^ 64) :
    Tags block nonce encrypted tag ↔ tag = Gcm.tag block nonce encrypted := by
  constructor
  · intro h
    have htag := tags_tag block nonce hlen
    refine eq_of_bitOf (h.length.trans htag.length.symm) fun i hi => ?_
    exact element_inj (h.value.trans htag.value.symm) i (by rw [h.length] at hi; exact hi)
  · rintro rfl
    exact tags_tag block nonce hlen

end FieldSeal.Gcm
