import FieldSeal.Ieee.Basic
import Mathlib.Tactic.ByContra

/-!
# Widening is exact

A finite number of the 32-bit format, widened to the 64-bit one and rounded back, is the number it
was. Both steps are one `Format.nearest`, and both are exact for the same reason: what is to be
rounded is a number that the format has.

There are two ways to say that. A count of units that is the `units` of some magnitude is rounded to
that magnitude (`Format.nearest_units`), and that is the way back. On the way up the count is not yet
known to be of that form; it is a short significand times a power of two, and
`Format.units_nearest` says that such a count is hit exactly, if the exponent is in range.

Integers of 64 bits are rounded when they become numbers of the 64-bit format, and of them it is
only shown that none becomes infinite (`Binary64.isFinite_ofInt`).
-/

set_option autoImplicit false

namespace FieldSeal.Ieee

attribute [local instance (high)] instPowNat

theorem roundEven_mul (q : Nat) {den : Nat} (h : 0 < den) : roundEven (q * den) den = q := by
  rw [roundEven, Nat.mul_div_cancel q h, Nat.mul_mod_left]
  exact if_pos (by omega)

namespace Format

variable (f : Format)

/-- What the magnitude with an exponent and a significand with its leading bit stands for. -/
theorem units_normal {e c : Nat} (hlow : 2 ^ f.fractionBits ≤ c)
    (hhigh : c < 2 * 2 ^ f.fractionBits) : f.units (e * 2 ^ f.fractionBits + c) = c * 2 ^ e := by
  have hpos : 0 < 2 ^ f.fractionBits := Nat.two_pow_pos _
  -- The leading bit of the significand is a step of the exponent.
  have hexponent : f.exponent (e * 2 ^ f.fractionBits + c) = e + 1 := by
    rw [exponent, Nat.add_comm, Nat.add_mul_div_right _ _ hpos]
    have hc : c / 2 ^ f.fractionBits = 1 := by
      rw [Nat.div_eq_iff hpos]
      omega
    omega
  have hfraction : (e * 2 ^ f.fractionBits + c) % 2 ^ f.fractionBits = c - 2 ^ f.fractionBits := by
    rw [Nat.add_comm, Nat.add_mul_mod_self_right, Nat.mod_eq_sub_mod hlow, Nat.mod_eq_of_lt (by omega)]
  simp only [units, hexponent, hfraction, Nat.add_sub_cancel' hlow]

theorem units_subnormal {m : Nat} (h : m < 2 ^ f.fractionBits) : f.units m = m := by
  rw [units, exponent, Nat.div_eq_of_lt h, Nat.mod_eq_of_lt h]

/-- Every magnitude has a significand and an exponent. -/
theorem exists_parts (m : Nat) : m < 2 ^ f.fractionBits ∨ ∃ e c, 2 ^ f.fractionBits ≤ c ∧
    c < 2 * 2 ^ f.fractionBits ∧ m = e * 2 ^ f.fractionBits + c := by
  have hpos : 0 < 2 ^ f.fractionBits := Nat.two_pow_pos _
  have hmod := Nat.mod_lt m hpos
  have hdiv := Nat.div_add_mod' m (2 ^ f.fractionBits)
  cases he : m / 2 ^ f.fractionBits with
  | zero =>
    rw [he] at hdiv
    exact .inl (by omega)
  | succ e =>
    rw [he, Nat.succ_mul] at hdiv
    exact .inr ⟨e, 2 ^ f.fractionBits + m % 2 ^ f.fractionBits, by omega, by omega, by omega⟩

theorem log2_mul_pow {c k e : Nat} (hlow : 2 ^ k ≤ c) (hhigh : c < 2 * 2 ^ k) :
    (c * 2 ^ e).log2 = k + e := by
  have hc : c ≠ 0 := by
    have := Nat.two_pow_pos k
    omega
  have hne : c * 2 ^ e ≠ 0 := Nat.mul_ne_zero hc (Nat.pos_iff_ne_zero.mp (Nat.two_pow_pos e))
  have hle : k + e ≤ (c * 2 ^ e).log2 := by
    rw [Nat.le_log2 hne, Nat.pow_add]
    exact Nat.mul_le_mul_right _ hlow
  have hlt : (c * 2 ^ e).log2 < k + e + 1 := by
    rw [Nat.log2_lt hne, Nat.add_right_comm, Nat.pow_add, Nat.pow_succ, Nat.mul_comm _ 2]
    exact Nat.mul_lt_mul_of_pos_right hhigh (Nat.two_pow_pos e)
  omega

/-- **A count that a magnitude stands for is rounded to that magnitude.** -/
theorem nearest_units {m den : Nat} (hm : m < f.infinity) (hden : 0 < den) :
    f.nearest (f.units m * den) den = m := by
  rw [nearest, Nat.mul_div_cancel _ hden]
  rcases f.exists_parts m with hsmall | ⟨e, c, hlow, hhigh, rfl⟩
  · have hshift : m.log2 - f.fractionBits = 0 := by
      by_cases hz : m = 0
      · simp [hz]
      · have := (Nat.log2_lt hz).mpr hsmall
        omega
    rw [f.units_subnormal hsmall, hshift, Nat.pow_zero, Nat.mul_one, roundEven_mul _ hden]
    omega
  · have hshift : (c * 2 ^ e).log2 - f.fractionBits = e := by
      rw [log2_mul_pow hlow hhigh]
      omega
    have hden' : 0 < den * 2 ^ e := Nat.mul_pos hden (Nat.two_pow_pos e)
    have hround : c * 2 ^ e * den = c * (den * 2 ^ e) := by
      rw [Nat.mul_assoc, Nat.mul_comm (2 ^ e)]
    rw [f.units_normal hlow hhigh, hshift, hround, roundEven_mul c hden']
    omega

/-- A short significand times a power of two is what some magnitude stands for, if the exponent is in
range: as long as the leading bit of the significand is missing, it takes over powers of two. -/
theorem exists_units {c t : Nat} (hc : c < 2 * 2 ^ f.fractionBits)
    (ht : (t + 2) * 2 ^ f.fractionBits ≤ f.infinity) :
    ∃ m, m < f.infinity ∧ f.units m = c * 2 ^ t := by
  have hpos : 0 < 2 ^ f.fractionBits := Nat.two_pow_pos _
  induction t generalizing c with
  | zero =>
    refine ⟨c, by omega, ?_⟩
    rw [Nat.pow_zero, Nat.mul_one]
    by_cases hsmall : c < 2 ^ f.fractionBits
    · exact f.units_subnormal hsmall
    · simpa using f.units_normal (e := 0) (by omega) hc
  | succ t ih =>
    rw [Nat.add_right_comm, Nat.succ_mul] at ht
    by_cases hsmall : c < 2 ^ f.fractionBits
    · obtain ⟨m, hm, hu⟩ := ih (c := 2 * c) (by omega) (by omega)
      refine ⟨m, hm, ?_⟩
      rw [hu, Nat.pow_succ, Nat.mul_comm 2 c, Nat.mul_assoc, Nat.mul_comm 2]
    · have hbound : (t + 2) * 2 ^ f.fractionBits
          = (t + 1) * 2 ^ f.fractionBits + 2 ^ f.fractionBits := Nat.succ_mul (t + 1) _
      exact ⟨(t + 1) * 2 ^ f.fractionBits + c, by omega, f.units_normal (by omega) hc⟩

end Format

/-- Every finite magnitude of the 32-bit format is, in units of the 64-bit one, what some magnitude
stands for there. -/
theorem exists_double_units {m : Nat} (h : m < Format.single.infinity) :
    ∃ d, d < Format.double.infinity ∧ Format.double.units d = Format.single.units m *
      2 ^ (Format.double.unitExponent - Format.single.unitExponent) := by
  have hunit : Format.double.unitExponent - Format.single.unitExponent = 925 := by decide
  have hinfinity : Format.single.infinity = 255 * 2 ^ Format.single.fractionBits := by decide
  have hbits : 2 ^ Format.double.fractionBits = 2 ^ 29 * 2 ^ Format.single.fractionBits := by decide
  have hrange : ∀ t, t < 2046 → (t + 2) * 2 ^ Format.double.fractionBits ≤ Format.double.infinity :=
    fun t ht => Nat.mul_le_mul_right _ (by simp only [Format.double]; omega)
  rcases Format.single.exists_parts m with hsmall | ⟨e, c, hlow, hhigh, rfl⟩
  · rw [Format.single.units_subnormal hsmall]
    exact Format.double.exists_units (by omega) (hrange _ (by omega))
  · rw [Format.single.units_normal hlow hhigh, Nat.mul_assoc, ← Nat.pow_add]
    have he : e < 255 := by
      rw [hinfinity] at h
      exact Nat.lt_of_mul_lt_mul_right (Nat.lt_of_le_of_lt (Nat.le_add_right _ c) h)
    exact Format.double.exists_units (by omega) (hrange _ (by omega))

/-! ## Sign and magnitude -/

theorem Binary64.negative_ofParts (negative : Bool) {m : Nat} (h : m < Format.double.sign) :
    (ofParts negative m).negative = negative ∧ (ofParts negative m).magnitude = m := by
  have hsign : Format.double.sign = 2 ^ 63 := by decide
  rw [hsign] at h
  simp only [Binary64.negative, magnitude, ofParts, hsign]
  cases negative with
  | false =>
    simp
    omega
  | true =>
    simp
    omega

theorem Binary32.ofParts_negative (x : Binary32) : ofParts x.negative x.magnitude = x := by
  have hsign : Format.single.sign = 2 ^ 31 := by decide
  have hlt : x.bits.toNat < 2 ^ 32 := x.bits.toNat_lt
  obtain ⟨bits⟩ := x
  simp only [ofParts, Binary32.negative, magnitude, hsign, mk.injEq]
  rw [← UInt32.toNat_inj]
  simp at hlt ⊢
  split <;> omega

/-- A finite number, widened, keeps its sign, and its magnitude is a finite one that stands for the
same. -/
theorem Binary32.exists_widen {x : Binary32} (h : x.isFinite = true) :
    ∃ d, d < Format.double.infinity ∧ x.widen.negative = x.negative ∧ x.widen.magnitude = d ∧
      Format.double.units d = Format.single.units x.magnitude *
        2 ^ (Format.double.unitExponent - Format.single.unitExponent) := by
  obtain ⟨d, hd, hunits⟩ := exists_double_units (m := x.magnitude) (by simpa [isFinite] using h)
  have hwide : x.widen = .ofParts x.negative d := by
    have hnearest := Format.double.nearest_units hd Nat.one_pos
    rw [Nat.mul_one, hunits] at hnearest
    rw [widen, if_pos h, hnearest]
  have hsign : Format.double.infinity < Format.double.sign := by decide
  obtain ⟨hnegative, hmagnitude⟩ := Binary64.negative_ofParts x.negative (Nat.lt_trans hd hsign)
  exact ⟨d, hd, by rw [hwide, hnegative], by rw [hwide, hmagnitude], hunits⟩

/-- **Widening is exact**: rounding back gives the number as it was. -/
theorem Binary32.narrow_widen {x : Binary32} (h : x.isFinite = true) : x.widen.narrow = x := by
  have hm : x.magnitude < Format.single.infinity := by simpa [isFinite] using h
  obtain ⟨d, hd, hnegative, hmagnitude, hunits⟩ := exists_widen h
  rw [Binary64.narrow, Binary64.units, hnegative, hmagnitude, hunits,
    Format.single.nearest_units hm (Nat.two_pow_pos _), ofParts_negative]

/-- What is finite stays so. -/
theorem Binary32.isFinite_widen {x : Binary32} (h : x.isFinite = true) :
    x.widen.isFinite = true := by
  obtain ⟨d, hd, -, hmagnitude, -⟩ := exists_widen h
  rw [Binary64.isFinite, hmagnitude]
  exact decide_eq_true hd

/-- What is not finite does not become so. -/
theorem Binary32.isFinite_of_widen {x : Binary32} (h : x.widen.isFinite = true) :
    x.isFinite = true := by
  by_contra hx
  rw [widen, if_neg hx] at h
  split at h
  · exact absurd h (by decide)
  · cases hn : x.negative <;> rw [hn] at h <;> exact absurd h (by decide)

/-! ## What does not become infinite -/

theorem roundEven_le (num den : Nat) : roundEven num den ≤ num / den + 1 := by
  simp only [roundEven]
  split
  · omega
  · split <;> omega

/-- What is far enough below infinity is not rounded to it. -/
theorem Format.nearest_lt_infinity (f : Format) {num den t : Nat}
    (h : num / den < 2 ^ (f.fractionBits + t)) (ht : (t + 2) * 2 ^ f.fractionBits < f.infinity) :
    f.nearest num den < f.infinity := by
  -- After the shift there are no more bits left than a significand has.
  have hshift : (num / den).log2 - f.fractionBits ≤ t := by
    by_cases hz : num / den = 0
    · simp [hz]
    · have := (Nat.log2_lt hz).mpr h
      omega
  rw [nearest]
  generalize hs : (num / den).log2 - f.fractionBits = shift at hshift
  have hround := roundEven_le num (den * 2 ^ shift)
  have hquotient : num / (den * 2 ^ shift) < 2 * 2 ^ f.fractionBits := by
    rw [← Nat.div_div_eq_div_mul, Nat.div_lt_iff_lt_mul (Nat.two_pow_pos shift), ← Nat.pow_succ',
      ← Nat.pow_add]
    exact Nat.lt_of_lt_of_le Nat.lt_log2_self (Nat.pow_le_pow_right (by omega) (by omega))
  have hmul := Nat.mul_le_mul_right (2 ^ f.fractionBits) hshift
  rw [Nat.add_mul] at ht
  omega

/-- An integer of 64 bits, with a sign or without, is finite. -/
theorem Binary64.isFinite_ofInt {n : Int} (h : n.natAbs < 2 ^ (64 : Nat)) :
    (ofInt n).isFinite = true := by
  have hbits : Format.double.fractionBits + 1086 = 64 + Format.double.unitExponent := by decide
  have hrange : 1086 + 2 < 2 ^ Format.double.exponentBits - 1 := by decide
  have hsmall : n.natAbs * Format.double.scale / 1 < 2 ^ (Format.double.fractionBits + 1086) := by
    rw [Nat.div_one, hbits, Nat.pow_add, Format.scale]
    exact Nat.mul_lt_mul_of_pos_right h (Nat.two_pow_pos _)
  have hfinite := Format.double.nearest_lt_infinity hsmall
    (Nat.mul_lt_mul_of_pos_right hrange (Nat.two_pow_pos _))
  have hsign : Format.double.infinity < Format.double.sign := by decide
  rw [ofInt, isFinite, (negative_ofParts _ (Nat.lt_trans hfinite hsign)).2]
  exact decide_eq_true hfinite

end FieldSeal.Ieee
