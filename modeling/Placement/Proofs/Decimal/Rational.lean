import Mathlib.Algebra.Order.Field.Power
import Mathlib.Algebra.Order.Ring.Abs
import Mathlib.Data.Rat.Cast.Order
import Mathlib.Tactic.FieldSimp
import Mathlib.Tactic.Linarith
import Mathlib.Tactic.NormNum
import Mathlib.Tactic.Positivity
import Placement.Decimal.Shortest
import Placement.Proofs.Binary.Rounding

namespace Placement

/-- The number that a decimal stands for. -/
def Decimal.value (d : Decimal) : ℚ := d.digits * 10 ^ d.exponent

theorem digitCount_pos (n : Nat) : 0 < digitCount n := Nat.length_toDigits_pos

theorem lt_pow_digitCount (n : Nat) : n < 10 ^ digitCount n :=
  (Nat.length_toDigits_le_iff (by decide) (digitCount_pos n)).mp (Nat.le_refl _)

/-- A number lies between the powers of ten that its digits are counted by. -/
theorem exists_digitCount_eq {n : Nat} (positive : 0 < n) :
    ∃ less, digitCount n = less + 1 ∧ 10 ^ less ≤ n ∧ n < 10 ^ (less + 1) := by
  obtain ⟨less, same⟩ : ∃ less, digitCount n = less + 1 :=
    ⟨_, (Nat.succ_pred (Nat.ne_of_gt (digitCount_pos n))).symm⟩
  refine ⟨less, same, ?_, same ▸ lt_pow_digitCount n⟩
  rcases Nat.eq_zero_or_pos less with rfl | atLeast
  · exact positive
  · refine Nat.not_lt.mp fun short => ?_
    have := (Nat.length_toDigits_le_iff (b := 10) (by decide) atLeast).mpr short
    rw [← digitCount, same] at this
    omega

/-- The exponent of the first digit is the only one that fits. -/
theorem leadingExponent_bounds {numerator denominator : Nat} (some : 0 < numerator)
    (positive : 0 < denominator) :
    (10 : ℚ) ^ leadingExponent numerator denominator ≤ numerator / denominator ∧
      (numerator : ℚ) / denominator < 10 ^ (leadingExponent numerator denominator + 1) := by
  have denominatorPos : (0 : ℚ) < denominator := by exact_mod_cast positive
  rw [leadingExponent, le_div_iff₀ denominatorPos, div_lt_iff₀ denominatorPos]
  split
  · rename_i whole
    have quotient : 0 < numerator / denominator := Nat.div_pos whole positive
    obtain ⟨less, same, low, high⟩ := exists_digitCount_eq quotient
    rw [Nat.le_div_iff_mul_le positive] at low
    rw [Nat.div_lt_iff_lt_mul positive] at high
    rw [same]
    push_cast
    rw [add_sub_cancel_right, ← Nat.cast_succ, zpow_natCast, zpow_natCast]
    exact ⟨by exact_mod_cast low, by exact_mod_cast high⟩
  · rename_i fraction
    have quotient : 0 < (denominator - 1) / numerator := Nat.div_pos (by omega) some
    obtain ⟨less, same, low, high⟩ := exists_digitCount_eq quotient
    rw [Nat.le_div_iff_mul_le some] at low
    rw [Nat.div_lt_iff_lt_mul some] at high
    rw [same]
    have lowPos : (0 : ℚ) < 10 ^ less := by positivity
    have highPos : (0 : ℚ) < 10 ^ (less + 1) := by positivity
    push_cast
    rw [neg_add, neg_add_cancel_right, zpow_neg, zpow_natCast, ← neg_add, ← Nat.cast_succ,
      zpow_neg, zpow_natCast, inv_mul_le_iff₀ highPos, lt_inv_mul_iff₀ lowPos]
    have below : denominator ≤ 10 ^ (less + 1) * numerator := by omega
    have above : 10 ^ less * numerator < denominator := by omega
    exact ⟨by exact_mod_cast below, by exact_mod_cast above⟩

theorem le_leadingExponent_iff {numerator denominator : Nat} (some : 0 < numerator)
    (positive : 0 < denominator) {exponent : Int} :
    exponent ≤ leadingExponent numerator denominator ↔
      (10 : ℚ) ^ exponent ≤ numerator / denominator := by
  obtain ⟨low, high⟩ := leadingExponent_bounds some positive
  constructor
  · intro le
    exact (zpow_le_zpow_right₀ (by norm_num) le).trans low
  · intro le
    by_contra above
    have next : leadingExponent numerator denominator + 1 ≤ exponent := by omega
    have := zpow_le_zpow_right₀ (by norm_num : (1 : ℚ) ≤ 10) next
    linarith

/-- A power of ten as a fraction of whole powers. -/
theorem pow_toNat_div (exponent : Int) :
    (10 : ℚ) ^ exponent.toNat / 10 ^ (-exponent).toNat = 10 ^ exponent := by
  obtain ⟨n, rfl | rfl⟩ := exponent.eq_nat_or_neg
  · rw [Int.toNat_natCast, Int.toNat_neg_natCast, pow_zero, div_one, zpow_natCast]
  · rw [neg_neg, Int.toNat_natCast, Int.toNat_neg_natCast, pow_zero, one_div, zpow_neg,
      zpow_natCast]

namespace Decimal

theorem denominator_pos (d : Decimal) : 0 < d.denominator := Nat.pow_pos (by decide)

theorem numerator_div_denominator (d : Decimal) :
    (d.numerator : ℚ) / d.denominator = d.value := by
  have numerator : (d.numerator : ℚ) = d.digits * 10 ^ d.exponent.toNat := by
    rw [Decimal.numerator, Nat.pow_eq]
    push_cast
    rfl
  have denominator : (d.denominator : ℚ) = 10 ^ (-d.exponent).toNat := by
    rw [Decimal.denominator, Nat.pow_eq]
    push_cast
    rfl
  rw [numerator, denominator, mul_div_assoc, pow_toNat_div, value]

/-- Dropping zeros at the end keeps the value. -/
theorem value_trimmed (count : Nat) (d : Decimal) : (trimmed count d).value = d.value := by
  induction count generalizing d with
  | zero => rfl
  | succ count ih =>
    rw [trimmed]
    split
    · rename_i zero
      rw [ih, value, value, zpow_add_one₀ (by norm_num)]
      have whole : d.digits = d.digits / 10 * 10 := by omega
      have cast : (d.digits : ℚ) = (d.digits / 10 : Nat) * 10 := by exact_mod_cast whole
      rw [cast, mul_assoc, mul_comm (10 : ℚ)]
    · rfl

theorem exponent_le_trimmed (count : Nat) (d : Decimal) :
    d.exponent ≤ (trimmed count d).exponent := by
  induction count generalizing d with
  | zero => exact Int.le_refl _
  | succ count ih =>
    rw [trimmed]
    split
    · exact Int.le_trans (Int.le_of_lt (Int.lt_succ d.exponent)) (ih _)
    · exact Int.le_refl _

theorem value_trim (d : Decimal) : d.trim.value = d.value := by
  rw [trim]
  split
  · rename_i zero
    rw [value, value, zero, Nat.cast_zero, zero_mul, zero_mul]
  · exact value_trimmed _ d

theorem min_exponent_le_trim (d : Decimal) : min 0 d.exponent ≤ d.trim.exponent := by
  rw [trim]
  split
  · exact Int.min_le_left _ _
  · exact Int.le_trans (Int.min_le_right _ _) (exponent_le_trimmed _ d)

end Decimal

namespace Format

variable {F : Format}

/-- Only the value of a fraction counts for rounding. -/
theorem nearest_congr {numerator denominator other divisor : Nat} (positive : 0 < denominator)
    (divisorPos : 0 < divisor)
    (same : (numerator : ℚ) / denominator = (other : ℚ) / divisor) :
    F.nearest numerator denominator = F.nearest other divisor := by
  have denominatorPos : (denominator : ℚ) ≠ 0 := by exact_mod_cast Nat.ne_of_gt positive
  have other_ne : (divisor : ℚ) ≠ 0 := by exact_mod_cast Nat.ne_of_gt divisorPos
  rw [div_eq_div_iff denominatorPos other_ne] at same
  have cross : numerator * divisor = other * denominator := by exact_mod_cast same
  rw [← nearest_scale numerator denominator divisorPos, cross, Nat.mul_comm denominator divisor,
    nearest_scale other divisor positive]

theorem cast_sub_le_abs (a b : Nat) : ((a - b : Nat) : ℚ) ≤ |(a : ℚ) - b| := by
  rcases Nat.le_total b a with le | le
  · rw [Nat.cast_sub le]
    exact le_abs_self _
  · rw [Nat.sub_eq_zero_of_le le, Nat.cast_zero]
    exact abs_nonneg _

/-- What differs from a magnitude by a small part of it is rounded to it. -/
theorem nearest_of_value {numerator denominator code : Nat} (within : code ≤ F.infinityCode)
    (positive : 0 < denominator)
    (close : 2 ^ (F.fractionBits + 3) * |(numerator : ℚ) / denominator - F.units code| <
      F.units code) : F.nearest numerator denominator = code := by
  have denominatorPos : (0 : ℚ) < denominator := by exact_mod_cast positive
  have scaled : 2 ^ (F.fractionBits + 3) * |(numerator : ℚ) - F.units code * denominator| <
      F.units code * denominator := by
    have factor : (numerator : ℚ) - F.units code * denominator =
        ((numerator : ℚ) / denominator - F.units code) * denominator := by
      field_simp
    rw [factor, abs_mul, abs_of_pos denominatorPos, ← mul_assoc]
    exact mul_lt_mul_of_pos_right close denominatorPos
  have powerPos : (0 : ℚ) ≤ 2 ^ (F.fractionBits + 3) := by positivity
  refine nearest_of_relative within positive ?_ ?_
  · have bound := mul_le_mul_of_nonneg_left
      (cast_sub_le_abs (F.units code * denominator) numerator) powerPos
    push_cast at bound
    rw [abs_sub_comm] at bound
    exact_mod_cast bound.trans_lt scaled
  · have bound := mul_le_mul_of_nonneg_left
      (cast_sub_le_abs numerator (F.units code * denominator)) powerPos
    push_cast at bound
    exact_mod_cast bound.trans_lt scaled

end Format

/-- A rounded quotient is at most half away. -/
theorem abs_roundDiv_sub_le (numerator : Nat) {denominator : Nat} (positive : 0 < denominator) :
    |(roundDiv numerator denominator : ℚ) - numerator / denominator| ≤ 1 / 2 := by
  have denominatorPos : (0 : ℚ) < denominator := by exact_mod_cast positive
  have parts := Nat.div_add_mod' numerator denominator
  have below := Nat.mod_lt numerator positive
  have near : 2 * (roundDiv numerator denominator * denominator) ≤ 2 * numerator + denominator ∧
      2 * numerator ≤ 2 * (roundDiv numerator denominator * denominator) + denominator := by
    unfold roundDiv
    dsimp only
    split
    · rw [Nat.add_mul]
      omega
    · omega
  have upper : (2 : ℚ) * (roundDiv numerator denominator * denominator) ≤
      2 * numerator + denominator := by exact_mod_cast near.1
  have lower : (2 : ℚ) * numerator ≤
      2 * (roundDiv numerator denominator * denominator) + denominator := by exact_mod_cast near.2
  have difference : (roundDiv numerator denominator : ℚ) - numerator / denominator =
      (roundDiv numerator denominator * denominator - numerator) / denominator := by
    field_simp
  rw [difference, abs_div, abs_of_pos denominatorPos, div_le_iff₀ denominatorPos, abs_le]
  constructor
  · linarith
  · linarith

theorem inSteps_value {numerator denominator : Nat} (exponent : Int) :
    ((inSteps numerator denominator exponent).1 : ℚ) / (inSteps numerator denominator exponent).2 =
      numerator / denominator * 10 ^ (-exponent) := by
  have steps := pow_toNat_div (-exponent)
  rw [neg_neg] at steps
  rw [← steps, inSteps, Nat.pow_eq, Nat.pow_eq]
  push_cast
  rw [mul_div_mul_comm]

theorem inSteps_pos {numerator denominator : Nat} (positive : 0 < denominator) (exponent : Int) :
    0 < (inSteps numerator denominator exponent).2 :=
  Nat.mul_pos positive (Nat.pow_pos (by decide))

end Placement
