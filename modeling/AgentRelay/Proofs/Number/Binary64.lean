import AgentRelay.Number.Binary64

/-
  Finite numbers in units of the smallest one.

  Every finite number is a whole number of units of 2 ^ -1074 (`units`), so comparing
  numbers is comparing integers: a number is an integer exactly when it has as many units
  (`equalsInt_iff`), and two numbers are one key exactly when they have the same bits or,
  both finite, the same units (`same_iff`).
-/

namespace AgentRelay.Number

theorem twoTo_add (a b : Nat) : twoTo (a + b) = twoTo a * twoTo b := Nat.pow_add 2 a b

theorem twoTo_pos (a : Nat) : 0 < twoTo a := Nat.two_pow_pos a

namespace Binary64

variable {x y : Binary64}

def IsFinite (x : Binary64) : Prop := x.exponent ≠ 2047

instance (x : Binary64) : Decidable x.IsFinite := inferInstanceAs (Decidable (_ ≠ _))

/-- The place of the last digit, counted from that of the smallest number. -/
def place (x : Binary64) : Nat := x.exponent - 1

/-- A number in units of the smallest one. -/
def units (x : Binary64) : Int :=
  (if x.negative then -1 else 1) * (x.magnitude.1 * twoTo x.place : Nat)

/-- The units of one. -/
def oneUnits : Nat := twoTo 1074

/-! ## Fields -/

theorem fraction_lt (x : Binary64) : x.fraction < twoTo 52 := Nat.mod_lt _ (twoTo_pos 52)

theorem magnitude_fst (x : Binary64) :
    x.magnitude.1 = if x.exponent = 0 then x.fraction else x.fraction + twoTo 52 := by
  unfold magnitude
  split <;> rfl

theorem magnitude_snd (x : Binary64) : x.magnitude.2 = (x.place : Int) - 1074 := by
  unfold magnitude place
  split
  · simp_all
  · show ((x.exponent : Int) - 1075) = _
    omega

theorem magnitude_lt (x : Binary64) : x.magnitude.1 < 2 * twoTo 52 := by
  have := x.fraction_lt
  rw [magnitude_fst]
  split <;> omega

/-- Above the smallest place the first digit is not zero. -/
theorem magnitude_ge (h : x.place ≠ 0) : twoTo 52 ≤ x.magnitude.1 := by
  have hne : x.exponent ≠ 0 := by
    intro he
    simp [place, he] at h
  rw [magnitude_fst, if_neg hne]
  omega

theorem isZero_iff : x.isZero = true ↔ x.magnitude.1 = 0 := by
  have := twoTo_pos 52
  rw [isZero, Bool.and_eq_true, beq_iff_eq, beq_iff_eq, magnitude_fst]
  split <;> omega

theorem units_eq_zero_iff : x.units = 0 ↔ x.magnitude.1 = 0 := by
  have hpos := twoTo_pos x.place
  have hsign : (if x.negative then -1 else 1 : Int) ≠ 0 := by split <;> decide
  rw [units, Int.mul_eq_zero, or_iff_right hsign, Int.natCast_eq_zero, Nat.mul_eq_zero]
  omega

/-- Without units a number is finite. -/
theorem finite_of_isZero (h : x.isZero = true) : x.IsFinite := by
  rw [isZero, Bool.and_eq_true, beq_iff_eq] at h
  rw [IsFinite, h.1]
  decide

/-- A number is known by its sign and its fields. -/
theorem bits_ext (hsign : x.negative = y.negative) (hexponent : x.exponent = y.exponent)
    (hfraction : x.fraction = y.fraction) : x.bits = y.bits := by
  have hx := x.bits.toNat_lt
  have hy := y.bits.toNat_lt
  have h63 : twoTo 63 = 9223372036854775808 := by decide
  have h52 : twoTo 52 = 4503599627370496 := by decide
  have h11 : twoTo 11 = 2048 := by decide
  simp only [negative, exponent, fraction, h63, h52, h11] at hsign hexponent hfraction
  have hhigh : x.bits.toNat / 9223372036854775808 = y.bits.toNat / 9223372036854775808 := by
    have hone : (x.bits.toNat / 9223372036854775808 = 1 ↔
        y.bits.toNat / 9223372036854775808 = 1) := by
      rw [← beq_iff_eq, hsign, beq_iff_eq]
    omega
  exact UInt64.toNat_inj.mp (by omega)

/-! ## Units -/

/-- Of two numbers as large the one has its last place no further up. -/
theorem place_le (h : x.magnitude.1 * twoTo x.place = y.magnitude.1 * twoTo y.place) :
    x.place ≤ y.place := by
  refine Nat.le_of_not_lt fun hlt => ?_
  obtain ⟨k, hk⟩ := Nat.exists_eq_add_of_lt hlt
  -- One of the numbers has more digits than there are.
  have hge : twoTo 52 ≤ x.magnitude.1 := magnitude_ge (by omega)
  have hsplit : x.place = (k + 1) + y.place := by omega
  rw [hsplit, twoTo_add, ← Nat.mul_assoc] at h
  have hcancel := Nat.eq_of_mul_eq_mul_right (twoTo_pos _) h
  have hstep : 2 ≤ twoTo (k + 1) := by
    rw [twoTo_add]
    exact Nat.le_mul_of_pos_left 2 (twoTo_pos k)
  have hdigits : twoTo 52 * 2 ≤ x.magnitude.1 * twoTo (k + 1) := Nat.mul_le_mul hge hstep
  have := y.magnitude_lt
  omega

/-- Numbers other than zero are known by their units. -/
theorem bits_of_units (h : x.units = y.units) (hx : x.magnitude.1 ≠ 0) : x.bits = y.bits := by
  have hy : y.magnitude.1 ≠ 0 := by
    rw [ne_eq, ← units_eq_zero_iff, h, units_eq_zero_iff] at hx
    exact hx
  have hxpos := Nat.mul_pos (Nat.pos_of_ne_zero hx) (twoTo_pos x.place)
  have hypos := Nat.mul_pos (Nat.pos_of_ne_zero hy) (twoTo_pos y.place)
  have hsign : x.negative = y.negative := by
    unfold units at h
    cases hxn : x.negative <;> cases hyn : y.negative <;> simp [hxn, hyn] at h ⊢ <;> omega
  have hsize : x.magnitude.1 * twoTo x.place = y.magnitude.1 * twoTo y.place := by
    unfold units at h
    rw [hsign] at h
    cases hyn : y.negative <;> simp [hyn] at h <;> omega
  have hplace : x.place = y.place := Nat.le_antisymm (place_le hsize) (place_le hsize.symm)
  rw [hplace] at hsize
  have hdigits := Nat.eq_of_mul_eq_mul_right (twoTo_pos _) hsize
  have hxlt := x.fraction_lt
  have hylt := y.fraction_lt
  rw [magnitude_fst, magnitude_fst] at hdigits
  unfold place at hplace
  refine bits_ext hsign ?_ ?_
  · split at hdigits <;> split at hdigits <;> omega
  · split at hdigits <;> split at hdigits <;> omega

/-- Numbers are one key when they have the same bits, or as finite numbers the same units. -/
theorem same_iff : x.same y = true ↔
    x.bits = y.bits ∨ x.IsFinite ∧ y.IsFinite ∧ x.units = y.units := by
  rw [same, Bool.or_eq_true, beq_iff_eq, Bool.and_eq_true]
  constructor
  · rintro (hbits | ⟨hx, hy⟩)
    · exact Or.inl hbits
    · refine Or.inr ⟨finite_of_isZero hx, finite_of_isZero hy, ?_⟩
      rw [units_eq_zero_iff.mpr (isZero_iff.mp hx), units_eq_zero_iff.mpr (isZero_iff.mp hy)]
  · rintro (hbits | ⟨-, -, h⟩)
    · exact Or.inl hbits
    · by_cases hx : x.magnitude.1 = 0
      · rw [isZero_iff, isZero_iff, ← @units_eq_zero_iff y, ← h]
        exact Or.inr ⟨hx, units_eq_zero_iff.mpr hx⟩
      · exact Or.inl (bits_of_units h hx)

/-- A number is an integer when it is finite and has as many units. -/
theorem equalsInt_iff {i : Int} : x.equalsInt i = true ↔ x.IsFinite ∧ x.units = i * oneUnits := by
  by_cases hfinite : x.exponent = 2047
  · have hno : x.equalsInt i = false := if_pos hfinite
    rw [hno]
    exact iff_of_false nofun fun h => h.1 hfinite
  · have hsign : x.units =
        (if x.negative then -(x.magnitude.1 : Int) else x.magnitude.1) * twoTo x.place := by
      rw [units, Int.natCast_mul, ← Int.mul_assoc]
      split
      · rw [Int.neg_one_mul]
      · rw [Int.one_mul]
    have hplace := x.magnitude_snd
    have hpos := fun k => Int.natCast_ne_zero.mpr (Nat.ne_of_gt (twoTo_pos k))
    simp only [equalsInt, hfinite, if_false, IsFinite, ne_eq, not_false_eq_true, true_and, hsign]
    by_cases hq : x.magnitude.2 ≥ 0
    · have hsplit : x.place = x.magnitude.2.toNat + 1074 := by omega
      rw [if_pos hq, decide_eq_true_eq, hsplit, twoTo_add, oneUnits, Int.natCast_mul,
        ← Int.mul_assoc, Int.mul_eq_mul_right_iff (hpos _)]
    · have hsplit : 1074 = (-x.magnitude.2).toNat + x.place := by omega
      have hone : oneUnits = twoTo (-x.magnitude.2).toNat * twoTo x.place := by
        rw [oneUnits, ← twoTo_add, ← hsplit]
      rw [if_neg hq, decide_eq_true_eq, hone, Int.natCast_mul, ← Int.mul_assoc,
        Int.mul_eq_mul_right_iff (hpos _)]

end Binary64

end AgentRelay.Number
