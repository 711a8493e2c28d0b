import Placement.Proofs.Decimal.Rational

namespace Placement

namespace Binary

variable {F : Format} {code : Nat}

/-- A decimal that is rounded to a magnitude. -/
def ReadsBack (F : Format) (code : Nat) (d : Decimal) : Prop :=
  F.nearest (d.numerator * F.one) d.denominator = code

theorem ReadsBack.congr {d other : Decimal} (reads : ReadsBack F code d)
    (same : other.value = d.value) : ReadsBack F code other := by
  rw [ReadsBack, ← reads]
  refine Format.nearest_congr other.denominator_pos d.denominator_pos ?_
  push_cast
  rw [mul_div_right_comm, mul_div_right_comm, Decimal.numerator_div_denominator,
    Decimal.numerator_div_denominator, same]

theorem four_mul_pow_lt {bits : Nat} (some : 1 ≤ bits) : (2 : ℚ) ^ (bits + 2) < 10 ^ bits := by
  have five : (5 : ℚ) ^ 1 ≤ 5 ^ bits := pow_le_pow_right₀ (by norm_num) some
  have positive : (0 : ℚ) < 2 ^ bits := by positivity
  calc (2 : ℚ) ^ (bits + 2) = 2 ^ bits * 4 := by ring
    _ < 2 ^ bits * 5 ^ bits := mul_lt_mul_of_pos_left (by linarith) positive
    _ = 10 ^ bits := by rw [← mul_pow]; norm_num

/-- A step of a fine grid next to a magnitude reads back. As the grid has more decimal places than
the significand has bits, its steps are small against the spacing of the magnitudes. -/
theorem readsBack_of_fine (bits : 1 ≤ F.fractionBits) (within : code ≤ F.infinityCode)
    (some : 0 < F.units code) {exponent : Int}
    (fine : exponent ≤ leadingExponent (F.units code) F.one - F.fractionBits) :
    ReadsBack F code ⟨roundDiv (inSteps (F.units code) F.one exponent).1
      (inSteps (F.units code) F.one exponent).2, exponent⟩ := by
  have onePos : (0 : ℚ) < F.one := by exact_mod_cast F.one_pos
  have unitsPos : (0 : ℚ) < F.units code := by exact_mod_cast some
  have gridPos : (0 : ℚ) < 10 ^ exponent := zpow_pos (by norm_num) _
  have tenPos : (0 : ℚ) < 10 ^ F.fractionBits := by positivity
  have half := abs_roundDiv_sub_le (inSteps (F.units code) F.one exponent).1
    (@inSteps_pos (F.units code) F.one F.one_pos exponent)
  rw [inSteps_value] at half
  generalize roundDiv (inSteps (F.units code) F.one exponent).1
    (inSteps (F.units code) F.one exponent).2 = steps at half ⊢
  refine Format.nearest_of_value within (Decimal.denominator_pos _) ?_
  have exact : (((Decimal.mk steps exponent).numerator * F.one : Nat) : ℚ) /
        (Decimal.mk steps exponent).denominator - F.units code =
      (steps - F.units code / F.one * 10 ^ (-exponent)) * (10 ^ exponent * F.one) := by
    push_cast
    rw [mul_div_right_comm, Decimal.numerator_div_denominator, Decimal.value, zpow_neg]
    field_simp
  have error : |(((Decimal.mk steps exponent).numerator * F.one : Nat) : ℚ) /
        (Decimal.mk steps exponent).denominator - F.units code| ≤
      1 / 2 * (10 ^ exponent * F.one) := by
    rw [exact, abs_mul, abs_of_pos (mul_pos gridPos onePos)]
    exact mul_le_mul_of_nonneg_right half (mul_pos gridPos onePos).le
  have grid : (10 : ℚ) ^ exponent * 10 ^ F.fractionBits * F.one ≤ F.units code := by
    rw [← zpow_natCast, ← zpow_add₀ (by norm_num : (10 : ℚ) ≠ 0), ← le_div_iff₀ onePos]
    exact (le_leadingExponent_iff some F.one_pos).mp (by omega)
  calc 2 ^ (F.fractionBits + 3) * |(((Decimal.mk steps exponent).numerator * F.one : Nat) : ℚ) /
          (Decimal.mk steps exponent).denominator - F.units code|
      ≤ 2 ^ (F.fractionBits + 3) * (1 / 2 * (10 ^ exponent * F.one)) :=
        mul_le_mul_of_nonneg_left error (by positivity)
    _ = 2 ^ (F.fractionBits + 2) * (10 ^ exponent * F.one) := by ring
    _ < 10 ^ F.fractionBits * (10 ^ exponent * F.one) :=
        mul_lt_mul_of_pos_right (four_mul_pow_lt bits) (mul_pos gridPos onePos)
    _ = 10 ^ exponent * 10 ^ F.fractionBits * F.one := by ring
    _ ≤ F.units code := grid

/-- The search ends with a decimal that reads back, on a grid that is not finer than the last. -/
theorem readsBack_shortestFrom (count : Nat) (exponent : Int)
    (last : ReadsBack F code ⟨roundDiv (inSteps (F.units code) F.one (exponent - count)).1
      (inSteps (F.units code) F.one (exponent - count)).2, exponent - count⟩) :
    ReadsBack F code (shortestFrom F code count exponent) ∧
      exponent - count ≤ (shortestFrom F code count exponent).exponent := by
  induction count generalizing exponent with
  | zero =>
    rw [Nat.cast_zero, sub_zero] at last
    exact ⟨last, by rw [Nat.cast_zero, sub_zero]; exact Int.le_refl _⟩
  | succ count ih =>
    rw [shortestFrom]
    split
    · rename_i steps found
      have reads : codeOfSteps F steps exponent = code := by simpa using List.find?_some found
      exact ⟨reads, by dsimp only; omega⟩
    · have finer : exponent - (count + 1 : Nat) = exponent - 1 - count := by omega
      rw [finer] at last ⊢
      exact ih (exponent - 1) last

/-- The shortest decimal of a magnitude reads back, and its digits do not go far beyond those of
the significand. -/
theorem readsBack_shortest (bits : 1 ≤ F.fractionBits) (within : code ≤ F.infinityCode) :
    ReadsBack F code (Binary.shortest F code) ∧ (code ≠ 0 →
      min 0 (leadingExponent (F.units code) F.one - F.fractionBits) ≤
        (Binary.shortest F code).exponent) := by
  rw [Binary.shortest]
  split
  · rename_i zero
    subst zero
    have exact := F.nearest_units (Nat.zero_le _)
    rw [F.units_zero] at exact
    refine ⟨?_, fun some => absurd rfl some⟩
    rwa [ReadsBack, Decimal.numerator, Nat.zero_mul, Nat.zero_mul]
  · rename_i some
    have fine := readsBack_of_fine bits within (F.units_pos some) (Int.le_refl _)
    obtain ⟨reads, least⟩ := readsBack_shortestFrom F.fractionBits _ fine
    refine ⟨reads.congr (Decimal.value_trim _), fun _ => ?_⟩
    exact Int.le_trans (min_le_min_left 0 least) (Decimal.min_exponent_le_trim _)

end Binary

end Placement
