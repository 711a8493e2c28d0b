import Placement.Proofs.Decimal.Spelling

/-!
Nine significant digits tell binary32 values apart. They are off by a small part of the value, and
so is the binary64 value that they are read as. Both together are less than what separates a
binary32 value from its neighbours.
-/

namespace Placement

namespace Format

variable {F : Format} {numerator denominator : Nat}

/-- Rounding is one rounded quotient, by the spacing at the place of the first digit. -/
theorem nearest_eq_roundDiv (numerator denominator : Nat) :
    F.nearest numerator denominator =
      let shift := Nat.log2 (numerator / denominator) - F.fractionBits
      min F.infinityCode (shift * F.span + roundDiv numerator (denominator * 2 ^ shift)) := by
  rw [nearest_eq]
  dsimp only
  rw [Nat.add_assoc]
  unfold roundDiv
  dsimp only
  split <;> rfl

/-- A full significand at its place, also where it is carried into the next place. -/
theorem units_of_full {steps : Nat} (full : F.span ≤ steps) (within : steps ≤ 2 * F.span)
    (shift : Nat) : F.units (shift * F.span + steps) = steps * 2 ^ shift := by
  have positive := F.span_pos
  rcases Nat.lt_or_eq_of_le within with short | rfl
  · have made : shift * F.span + steps = (shift + 1) * F.span + (steps - F.span) := by
      rw [Nat.succ_mul]
      omega
    rw [made, units_normal (by omega), Nat.add_sub_cancel' full]
  · have made : shift * F.span + 2 * F.span = (shift + 1 + 1) * F.span + 0 := by
      rw [← Nat.add_mul]
      rfl
    rw [made, units_normal positive, Nat.pow_succ]
    ring

theorem units_div_one_eq_zero_iff {code : Nat} : (F.units code : ℚ) / F.one = 0 ↔ code = 0 := by
  have one : (F.one : ℚ) ≠ 0 := by exact_mod_cast F.one_pos.ne'
  constructor
  · intro none
    by_contra some
    exact (F.units_pos some).ne' (by exact_mod_cast (div_eq_zero_iff.mp none).resolve_right one)
  · rintro rfl
    rw [F.units_zero, Nat.cast_zero, zero_div]

theorem roundDiv_bounds (numerator denominator : Nat) :
    numerator / denominator ≤ roundDiv numerator denominator ∧
      roundDiv numerator denominator ≤ numerator / denominator + 1 := by
  unfold roundDiv
  dsimp only
  split <;> omega

/-- The significand that a number of units in the normal range is rounded to. -/
theorem exists_nearest_eq {place : Nat} (positive : 0 < denominator)
    (normal : F.span * denominator ≤ numerator)
    (bound : numerator < 2 ^ (F.fractionBits + (place + 1)) * denominator)
    (room : place + 3 < 2 ^ F.exponentBits) :
    ∃ shift, F.span ≤ numerator / (denominator * 2 ^ shift) ∧
      F.nearest numerator denominator < F.infinityCode ∧
      F.units (F.nearest numerator denominator) =
        roundDiv numerator (denominator * 2 ^ shift) * 2 ^ shift := by
  have least : 2 ^ F.fractionBits ≤ numerator / denominator :=
    (Nat.le_div_iff_mul_le positive).mpr normal
  have most : numerator / denominator < 2 ^ (F.fractionBits + (place + 1)) :=
    (Nat.div_lt_iff_lt_mul positive).mpr bound
  have some : numerator / denominator ≠ 0 := by
    have := Nat.two_pow_pos F.fractionBits
    omega
  have lowest := (Nat.le_log2 some).mpr least
  have highest := (Nat.log2_lt some).mpr most
  obtain ⟨shift, size⟩ : ∃ shift, Nat.log2 (numerator / denominator) = F.fractionBits + shift :=
    ⟨_, (Nat.add_sub_cancel' lowest).symm⟩
  have full : F.span ≤ numerator / (denominator * 2 ^ shift) := by
    rw [← Nat.div_div_eq_div_mul, Nat.le_div_iff_mul_le (Nat.two_pow_pos _), span_eq, ← Nat.pow_add,
      ← size]
    exact Nat.log2_self_le some
  have short : numerator / (denominator * 2 ^ shift) < 2 * F.span := by
    rw [← Nat.div_div_eq_div_mul, Nat.div_lt_iff_lt_mul (Nat.two_pow_pos _), span_eq,
      ← Nat.pow_succ', ← Nat.pow_add, Nat.succ_add, ← size]
    exact Nat.lt_log2_self
  obtain ⟨low, high⟩ := roundDiv_bounds numerator (denominator * 2 ^ shift)
  have inRange : (shift + 2) * F.span < F.infinityCode :=
    Nat.mul_lt_mul_of_pos_right (by omega : shift + 2 < 2 ^ F.exponentBits - 1) F.span_pos
  have code : F.nearest numerator denominator =
      shift * F.span + roundDiv numerator (denominator * 2 ^ shift) := by
    rw [nearest_eq_roundDiv, size, Nat.add_sub_cancel_left]
    rw [Nat.add_mul] at inRange
    exact Nat.min_eq_right (by omega)
  refine ⟨shift, full, ?_, ?_⟩
  · rw [Nat.add_mul] at inRange
    omega
  · rw [code]
    exact units_of_full (by omega) (by omega) shift

/-- It is off by half a spacing at most, so by a small part of it. -/
theorem nearest_close {place : Nat} (positive : 0 < denominator)
    (normal : F.span * denominator ≤ numerator)
    (bound : numerator < 2 ^ (F.fractionBits + (place + 1)) * denominator)
    (room : place + 3 < 2 ^ F.exponentBits) :
    F.nearest numerator denominator < F.infinityCode ∧
      2 ^ (F.fractionBits + 1) *
        |(F.units (F.nearest numerator denominator) : ℚ) - numerator / denominator| ≤
          numerator / denominator := by
  obtain ⟨shift, full, finite, units⟩ := exists_nearest_eq positive normal bound room
  refine ⟨finite, ?_⟩
  have stepPos := Nat.mul_pos positive (Nat.two_pow_pos shift)
  have half := abs_roundDiv_sub_le numerator stepPos
  rw [Nat.le_div_iff_mul_le stepPos] at full
  have size : (F.span : ℚ) * (denominator * 2 ^ shift) ≤ numerator := by exact_mod_cast full
  have denominatorPos : (0 : ℚ) < denominator := by exact_mod_cast positive
  have powerPos : (0 : ℚ) < 2 ^ shift := by positivity
  have span : (F.span : ℚ) = 2 ^ F.fractionBits := by
    rw [span_eq]
    push_cast
    rfl
  rw [units]
  generalize roundDiv numerator (denominator * 2 ^ shift) = steps at half ⊢
  push_cast at half ⊢
  have scaled : (steps : ℚ) * 2 ^ shift - numerator / denominator =
      (steps - numerator / (denominator * 2 ^ shift)) * 2 ^ shift := by
    field_simp
  rw [scaled, abs_mul, abs_of_pos powerPos]
  calc 2 ^ (F.fractionBits + 1) *
        (|(steps : ℚ) - numerator / (denominator * 2 ^ shift)| * 2 ^ shift)
      ≤ 2 ^ (F.fractionBits + 1) * (1 / 2 * 2 ^ shift) := by gcongr
    _ = 2 ^ F.fractionBits * 2 ^ shift := by ring
    _ ≤ numerator / denominator := by
      rw [le_div_iff₀ denominatorPos, mul_assoc, mul_comm (2 ^ shift : ℚ), ← span]
      exact size

end Format

namespace Decimal

/-- The digits of a fraction are off by half a unit of the last one at most. -/
theorem ofFraction_close {numerator denominator : Nat} (some : 0 < numerator)
    (positive : 0 < denominator) (places : Nat) :
    2 * 10 ^ places * |(ofFraction places numerator denominator).value -
      numerator / denominator| ≤ 10 * (numerator / denominator) := by
  have tenPos : (10 : ℚ) ≠ 0 := by norm_num
  obtain ⟨leading, _⟩ := leadingExponent_bounds some positive
  rw [ofFraction, value]
  dsimp only
  generalize atLast : leadingExponent numerator denominator - places + 1 = exponent
  have gridPos : (0 : ℚ) < 10 ^ exponent := by positivity
  have half := abs_roundDiv_sub_le (inSteps numerator denominator exponent).1
    (@inSteps_pos numerator denominator positive exponent)
  rw [inSteps_value] at half
  generalize roundDiv (inSteps numerator denominator exponent).1
    (inSteps numerator denominator exponent).2 = steps at half ⊢
  have scaled : (steps : ℚ) * 10 ^ exponent - numerator / denominator =
      (steps - numerator / denominator * 10 ^ (-exponent)) * 10 ^ exponent := by
    rw [zpow_neg]
    field_simp
  have grid : (10 : ℚ) ^ places * 10 ^ exponent =
      10 * 10 ^ leadingExponent numerator denominator := by
    rw [← zpow_natCast, ← zpow_add₀ tenPos, ← zpow_one_add₀ tenPos]
    congr 1
    omega
  rw [scaled, abs_mul, abs_of_pos gridPos]
  calc 2 * 10 ^ places *
        (|(steps : ℚ) - numerator / denominator * 10 ^ (-exponent)| * 10 ^ exponent)
      ≤ 2 * 10 ^ places * (1 / 2 * 10 ^ exponent) := by gcongr
    _ = 10 ^ places * 10 ^ exponent := by ring
    _ = 10 * 10 ^ leadingExponent numerator denominator := grid
    _ ≤ 10 * (numerator / denominator) := by gcongr

variable {F : Format} {d : Decimal}

theorem value_nonneg (d : Decimal) : 0 ≤ d.value := by
  rw [value]
  positivity

/-- A decimal of no extreme size is rounded by its value. -/
theorem toBinary_of_value {code : Nat} (reads : Binary.ReadsBack F code d)
    (within : code < F.infinityCode + 1) (low : 1 ≤ d.value * 2 ^ 2 ^ F.exponentBits)
    (high : d.value ≤ 2 ^ 2 ^ F.exponentBits) (negative : Bool) :
    d.toBinary F negative = .signed negative ⟨code, within⟩ := by
  have ten : (1 : ℚ) < 10 := by norm_num
  have gridPos : (0 : ℚ) < 10 ^ d.exponent := by positivity
  have some : d.digits ≠ 0 := by
    intro zero
    rw [value, zero, Nat.cast_zero, zero_mul, zero_mul] at low
    exact absurd low (by norm_num)
  have first : (1 : ℚ) ≤ d.digits := by exact_mod_cast Nat.one_le_iff_ne_zero.mpr some
  have count : (d.digits : ℚ) ≤ 10 ^ digitCount d.digits := by
    exact_mod_cast (lt_pow_digitCount d.digits).le
  have limit : ((2 ^ F.exponentBits : Nat) : Int) = 2 ^ F.exponentBits := by push_cast; rfl
  have power : (2 : ℚ) ^ 2 ^ F.exponentBits ≤ 10 ^ ((2 ^ F.exponentBits : Nat) : Int) := by
    rw [zpow_natCast]
    exact pow_le_pow_left₀ (by norm_num) (by norm_num) _
  refine toBinary_eq reads within ?_ ?_ negative
  · rw [← limit, ← zpow_le_zpow_iff_right₀ ten]
    exact (le_mul_of_one_le_left gridPos.le first).trans (high.trans power)
  · have product : (10 : ℚ) ^ (0 : Int) ≤
        10 ^ (digitCount d.digits + d.exponent + (2 ^ F.exponentBits : Nat)) := by
      rw [zpow_zero, zpow_add₀ (by norm_num), zpow_add₀ (by norm_num), zpow_natCast]
      refine low.trans ?_
      rw [value]
      gcongr
    have := (zpow_le_zpow_iff_right₀ ten).mp product
    rw [limit] at this
    omega

theorem toBinary_of_value_zero (zero : d.value = 0) (negative : Bool) :
    d.toBinary F negative = .zero negative := by
  have none : d.digits = 0 := by
    rcases mul_eq_zero.mp zero with digits | power
    · exact_mod_cast digits
    · exact absurd power (by positivity)
  rw [toBinary, if_pos none]

end Decimal

/-- The sizes of the finite binary32 magnitudes, in units of their own. -/
theorem single_units_bounds {code : Nat} (some : code ≠ 0)
    (finite : code < Format.single.infinityCode) :
    (1 : ℚ) ≤ Format.single.units code ∧ (Format.single.units code : ℚ) ≤ 2 ^ 24 * 2 ^ 253 := by
  have atLeast : 1 ≤ Format.single.units code := Format.single.units_pos some
  obtain ⟨lower, shift, units, short, place⟩ := Format.units_eq_mul_two_pow finite
  have atMost : Format.single.units code ≤ 2 ^ 24 * 2 ^ 253 := by
    rw [units]
    exact Nat.mul_le_mul short.le (Nat.pow_le_pow_right (by decide) place)
  exact ⟨by exact_mod_cast atLeast, by exact_mod_cast atMost⟩

/-- What is off by as much as nine digits are, and then by as much as binary64 is, is still the
nearest to where it came from. -/
theorem close_of_two_roundings {u t z : ℚ} (positive : 0 < u)
    (digits : 2 * 10 ^ 9 * |t - u| ≤ 10 * u) (wide : 2 ^ 53 * |z - t| ≤ t) :
    2 ^ 26 * |z - u| < u := by
  have triangle := abs_sub_le z t u
  have above := le_abs_self (t - u)
  linarith

theorem cast_double_one : (Format.double.one : ℚ) = Format.single.one * 2 ^ 925 := by
  rw [double_one_eq, Nat.cast_mul, Nat.cast_pow, Nat.cast_ofNat]

namespace Decimal

variable {d : Decimal}

theorem wide_units (d : Decimal) :
    ((d.numerator * Format.double.one : Nat) : ℚ) / d.denominator =
      d.value * Format.single.one * 2 ^ 925 := by
  rw [Nat.cast_mul, mul_div_right_comm, d.numerator_div_denominator, cast_double_one, ← mul_assoc]

/-- What is in the range of binary32 is in the normal range of binary64. -/
theorem wide_normal (low : 1 / 2 ≤ d.value * Format.single.one)
    (high : d.value * Format.single.one ≤ 2 ^ 25 * 2 ^ 253) :
    Format.double.span * d.denominator ≤ d.numerator * Format.double.one ∧
      d.numerator * Format.double.one <
        2 ^ (Format.double.fractionBits + (1151 + 1)) * d.denominator := by
  have denominatorPos : (0 : ℚ) < d.denominator := by exact_mod_cast d.denominator_pos
  have normal : (2 : ℚ) ^ 52 ≤ d.value * Format.single.one * 2 ^ 925 := by
    calc (2 : ℚ) ^ 52 ≤ 2 ^ 924 := pow_le_pow_right₀ one_le_two (by decide)
      _ = 1 / 2 * 2 ^ 925 := by rw [pow_succ _ 924, mul_comm, mul_assoc]; norm_num
      _ ≤ d.value * Format.single.one * 2 ^ 925 := by gcongr
  have bound : d.value * Format.single.one * 2 ^ 925 <
      2 ^ (Format.double.fractionBits + (1151 + 1)) := by
    calc d.value * Format.single.one * 2 ^ 925 ≤ 2 ^ 25 * 2 ^ 253 * 2 ^ 925 := by gcongr
      _ = 2 ^ (25 + 253 + 925) := by rw [pow_add, pow_add]
      _ < 2 ^ (Format.double.fractionBits + (1151 + 1)) :=
        pow_lt_pow_right₀ one_lt_two (by decide)
  rw [← wide_units, le_div_iff₀ denominatorPos] at normal
  rw [← wide_units, div_lt_iff₀ denominatorPos] at bound
  exact ⟨by exact_mod_cast normal, by exact_mod_cast bound⟩

/-- There it is rounded by its value. -/
theorem toBinary_wide {wide : Nat} (low : 1 / 2 ≤ d.value * Format.single.one)
    (high : d.value * Format.single.one ≤ 2 ^ 25 * 2 ^ 253)
    (reads : Binary.ReadsBack .double wide d) (within : wide < Format.double.infinityCode + 1)
    (negative : Bool) : d.toBinary .double negative = .signed negative ⟨wide, within⟩ := by
  have one : (Format.single.one : ℚ) = 2 ^ 149 := by
    rw [Format.one_eq, Nat.cast_pow, Nat.cast_ofNat]
    rfl
  have valuePos := d.value_nonneg
  rw [one] at low high
  refine toBinary_of_value reads within ?_ ?_ negative
  · calc (1 : ℚ) ≤ d.value * 2 ^ 149 * 2 := by linarith
      _ = d.value * 2 ^ 150 := by rw [mul_assoc, ← pow_succ]
      _ ≤ d.value * 2 ^ 2 ^ Format.double.exponentBits :=
        mul_le_mul_of_nonneg_left (pow_le_pow_right₀ one_le_two (by decide)) valuePos
  · calc d.value ≤ d.value * 2 ^ 149 :=
          le_mul_of_one_le_right valuePos (one_le_pow₀ one_le_two)
      _ ≤ 2 ^ 25 * 2 ^ 253 := high
      _ = 2 ^ (25 + 253) := (pow_add _ _ _).symm
      _ ≤ 2 ^ 2 ^ Format.double.exponentBits := pow_le_pow_right₀ one_le_two (by decide)

/-- A decimal in the range of binary32 is read as a binary64 value that is off by a small part of
it, here in units of binary32. -/
theorem exists_toBinary_wide (low : 1 / 2 ≤ d.value * Format.single.one)
    (high : d.value * Format.single.one ≤ 2 ^ 25 * 2 ^ 253) (negative : Bool) :
    ∃ wide, wide.val ≠ Format.double.infinityCode ∧
      d.toBinary .double negative = .signed negative wide ∧
      2 ^ 53 * |Format.double.units wide / 2 ^ 925 - d.value * Format.single.one| ≤
        d.value * Format.single.one := by
  have widePos : (0 : ℚ) < 2 ^ 925 := by positivity
  obtain ⟨normal, bound⟩ := wide_normal low high
  have rounded := Format.nearest_close d.denominator_pos normal bound (by decide)
  rw [wide_units] at rounded
  obtain ⟨wide, reads⟩ : ∃ wide, Binary.ReadsBack .double wide d := ⟨_, rfl⟩
  rw [reads] at rounded
  obtain ⟨finite, close⟩ := rounded
  refine ⟨⟨wide, Nat.lt_succ_of_lt finite⟩, Nat.ne_of_lt finite,
    toBinary_wide low high reads _ negative, ?_⟩
  have scaled : (Format.double.units wide : ℚ) / 2 ^ 925 - d.value * Format.single.one =
      (Format.double.units wide - d.value * Format.single.one * 2 ^ 925) / 2 ^ 925 := by
    rw [sub_div, mul_div_cancel_right₀ _ widePos.ne']
  rw [scaled, abs_div, abs_of_pos widePos, ← mul_div_assoc, div_le_iff₀ widePos]
  exact close

/-- A decimal that is as close to a binary32 value as nine digits are is read as this value. -/
theorem toSingle_toBinary {code : Fin (Format.single.infinityCode + 1)}
    (some : code.val ≠ 0) (finite : code.val ≠ Format.single.infinityCode)
    (close : 2 * 10 ^ 9 * |d.value - Format.single.units code / Format.single.one| ≤
      10 * (Format.single.units code / Format.single.one)) (negative : Bool) :
    (d.toBinary .double negative).toSingle = .signed negative code := by
  have onePos : (0 : ℚ) < Format.single.one := by exact_mod_cast Format.single.one_pos
  obtain ⟨atLeast, atMost⟩ := single_units_bounds some (by omega)
  have digits : 2 * 10 ^ 9 * |d.value * Format.single.one - Format.single.units code| ≤
      10 * (Format.single.units code : ℚ) := by
    have scaled : d.value * Format.single.one - Format.single.units code =
        (d.value - Format.single.units code / Format.single.one) * Format.single.one := by
      field_simp
    have product := mul_le_mul_of_nonneg_right close onePos.le
    rwa [mul_assoc, mul_assoc 10, div_mul_cancel₀ _ onePos.ne', ← abs_of_pos onePos, ← abs_mul,
      abs_of_pos onePos, ← scaled] at product
  obtain ⟨below, above⟩ := abs_le.mp
    (by linarith : |d.value * Format.single.one - Format.single.units code| ≤
      (Format.single.units code : ℚ) / 2)
  have low : 1 / 2 ≤ d.value * Format.single.one := by linarith
  have high : d.value * Format.single.one ≤ 2 ^ 25 * 2 ^ 253 := by linarith
  obtain ⟨wide, wideFinite, read, wideClose⟩ := exists_toBinary_wide low high negative
  have near := close_of_two_roundings (by linarith) digits wideClose
  rw [read, Binary.toSingle, Binary.convert, if_neg wideFinite, Binary.ofUnits]
  refine congrArg _ (Fin.ext (Format.nearest_of_value (by omega) Format.double.one_pos ?_))
  have units : ((Format.double.units wide * Format.single.one : Nat) : ℚ) / Format.double.one =
      Format.double.units wide / 2 ^ 925 := by
    rw [Nat.cast_mul, cast_double_one, mul_comm (Format.double.units wide : ℚ),
      mul_div_mul_left _ _ onePos.ne']
  rw [units]
  exact near

end Decimal

end Placement
