import Mathlib.Order.MinMax
import Placement.Proofs.Binary.Exact

namespace Placement

namespace Format

variable {F : Format} {n : Nat}

/-- The place of the greatest finite magnitudes. -/
def lastPlace (F : Format) : Nat := 2 ^ F.exponentBits - 3

theorem infinityCode_eq (room : 3 ≤ 2 ^ F.exponentBits) :
    F.infinityCode = (F.lastPlace + 2) * F.span := by
  have field : F.lastPlace + 2 = 2 ^ F.exponentBits - 1 := by
    unfold lastPlace
    omega
  rw [field]
  rfl

theorem span_le_div_place (some : 0 < Nat.log2 n - F.fractionBits) :
    F.span ≤ n / 2 ^ (Nat.log2 n - F.fractionBits) := by
  have positive : n ≠ 0 := by
    rintro rfl
    rw [Nat.log2_zero, Nat.zero_sub] at some
    cases some
  rw [Nat.le_div_iff_mul_le (Nat.two_pow_pos _), span_eq, ← Nat.pow_add]
  have place : F.fractionBits + (Nat.log2 n - F.fractionBits) = Nat.log2 n := by omega
  rw [place]
  exact Nat.log2_self_le positive

/-- At the last place, the half step above the greatest significand goes up, for that one is odd. -/
theorem rounds_up_iff {span lower left step : Nat} (positive : 0 < span)
    (short : lower < 2 * span) (rest : left < step) :
    2 * span ≤ lower + (if step < 2 * left ∨ step = 2 * left ∧ lower % 2 = 1 then 1 else 0) ↔
      (4 * span - 1) * step ≤ 2 * (lower * step + left) := by
  by_cases greatest : lower + 1 = 2 * span
  · have product : (4 * span - 1) * step = 2 * (lower * step) + step := by
      have twice : 4 * span - 1 = 2 * lower + 1 := by omega
      rw [twice, Nat.add_mul, Nat.one_mul, Nat.mul_assoc]
    rw [product]
    split <;> omega
  · have product : 2 * (lower * step) + 3 * step ≤ (4 * span - 1) * step := by
      have more : 2 * lower + 3 ≤ 4 * span - 1 := by omega
      have scaled := Nat.mul_le_mul_right step more
      rwa [Nat.add_mul, Nat.mul_assoc] at scaled
    split <;> omega

/-- Below the last place all is finite, and above it nothing is. -/
theorem nearest_eq_infinityCode_iff (room : 4 ≤ 2 ^ F.exponentBits) {d : Nat} (some : 0 < d) :
    F.nearest n d = F.infinityCode ↔ (4 * F.span - 1) * (d * 2 ^ F.lastPlace) ≤ 2 * n := by
  have positive := F.span_pos
  have short := F.div_place_lt (n / d)
  have full := F.span_le_div_place (n := n / d)
  have stepPos (place : Nat) : 0 < d * 2 ^ place := Nat.mul_pos some (Nat.two_pow_pos place)
  have steps {less more : Nat} (below : less < more) : 2 * (d * 2 ^ less) ≤ d * 2 ^ more := by
    have powers : 2 ^ (less + 1) ≤ 2 ^ more := Nat.pow_le_pow_right (by decide) below
    rw [Nat.pow_succ, Nat.mul_comm (2 ^ less)] at powers
    rw [Nat.mul_left_comm]
    exact Nat.mul_le_mul_left d powers
  have quarters (step : Nat) : (4 * F.span - 1) * step + step = 4 * (F.span * step) := by
    rw [← Nat.succ_mul, ← Nat.mul_assoc]
    congr 1
    omega
  rw [Nat.div_div_eq_div_mul] at short full
  simp only [nearest_eq, infinityCode_eq (by omega : 3 ≤ 2 ^ F.exponentBits), min_eq_left_iff]
  generalize Nat.log2 (n / d) - F.fractionBits = shift at *
  have parts := Nat.div_add_mod' n (d * 2 ^ shift)
  have rest := Nat.mod_lt n (stepPos shift)
  generalize n / (d * 2 ^ shift) = lower at *
  generalize n % (d * 2 ^ shift) = left at *
  have total := quarters (d * 2 ^ F.lastPlace)
  rcases Nat.lt_trichotomy shift F.lastPlace with below | same | above
  · have fields := Nat.mul_le_mul_right F.span below
    have whole := Nat.mul_le_mul_right (d * 2 ^ shift) short
    have size := Nat.mul_le_mul_left F.span (steps below)
    have least := Nat.mul_le_mul_right (d * 2 ^ F.lastPlace) positive
    rw [Nat.succ_mul, Nat.mul_assoc] at whole
    rw [Nat.mul_left_comm] at size
    rw [Nat.succ_mul] at fields
    refine iff_of_false ?_ ?_
    · rw [Nat.add_mul]
      split <;> omega
    · omega
  · subst same
    rw [Nat.add_mul, Nat.add_assoc, Nat.add_le_add_iff_left, rounds_up_iff positive short rest, parts]
  · have fields := Nat.mul_le_mul_right F.span above
    have significand := full (by omega)
    have size := Nat.mul_le_mul significand (steps above)
    have some := stepPos F.lastPlace
    rw [Nat.mul_left_comm] at size
    rw [Nat.succ_mul] at fields
    refine iff_of_true ?_ ?_
    · rw [Nat.add_mul]
      omega
    · omega

end Format

/-- The fractions that binary64 has no finite value for. -/
theorem Binary.isInfinite_ofRatio_iff {negative : Bool} {n d : Nat} (some : 0 < d) :
    (Binary.ofRatio negative n d : Double).isInfinite = true ↔ (2 ^ 1024 - 2 ^ 970) * d ≤ n := by
  have limit : (4 * Format.double.span - 1) * 2 ^ Format.double.lastPlace =
      2 * ((2 ^ 1024 - 2 ^ 970) * Format.double.one) := by
    decide +kernel
  rw [Binary.ofRatio, Binary.ofUnits, Binary.isInfinite, beq_iff_eq,
    Format.nearest_eq_infinityCode_iff (by decide) some, Nat.mul_left_comm, limit,
    Nat.mul_left_comm, Nat.mul_le_mul_left_iff (by decide), ← Nat.mul_assoc, Nat.mul_comm d,
    Nat.mul_le_mul_right_iff Format.double.one_pos]

/-- The integers that binary64 has no finite value for. -/
theorem Binary.isInfinite_ofInt_iff {n : Int} :
    (Binary.ofInt n : Double).isInfinite = true ↔ 2 ^ 1024 - 2 ^ 970 ≤ n.natAbs := by
  have ratio := @Binary.isInfinite_ofRatio_iff (decide (n < 0)) n.natAbs 1 Nat.one_pos
  rwa [Nat.mul_one] at ratio

theorem singleOfInt?_eq_none_iff {n : Int} :
    singleOfInt? n = none ↔ 2 ^ 1024 - 2 ^ 970 ≤ n.natAbs := by
  rw [← Binary.isInfinite_ofInt_iff, singleOfInt?]
  cases (Binary.ofInt n : Double).isInfinite with
  | false => exact iff_of_false (Option.some_ne_none _) Bool.false_ne_true
  | true => exact iff_of_true rfl rfl

theorem singleOfRat?_eq_none_iff {q : Rat} :
    singleOfRat? q = none ↔ (2 ^ 1024 - 2 ^ 970) * q.den ≤ q.num.natAbs := by
  rw [← Binary.isInfinite_ofRatio_iff q.den_pos, singleOfRat?, doubleOfRat]
  cases (Binary.ofRatio (decide (q.num < 0)) q.num.natAbs q.den : Double).isInfinite with
  | false => exact iff_of_false (Option.some_ne_none _) Bool.false_ne_true
  | true => exact iff_of_true rfl rfl

end Placement
