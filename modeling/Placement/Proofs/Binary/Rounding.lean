import Mathlib.Tactic.Ring
import Placement.Proofs.Binary.Exact

namespace Placement

namespace Format

variable {F : Format} {numerator denominator lower shift : Nat}

/-- The distance of a magnitude from the next one, in units. -/
def spacing (F : Format) (code : Nat) : Nat := 2 ^ (code / F.span - 1)

/-- A magnitude by its significand and its place, of which its code is made up. -/
theorem exists_significand (F : Format) (code : Nat) : ∃ lower shift,
    code = shift * F.span + lower ∧ F.units code = lower * 2 ^ shift ∧
      F.spacing code = 2 ^ shift ∧ lower < 2 * F.span ∧ (shift = 0 ∨ F.span ≤ lower) := by
  have positive := F.span_pos
  by_cases small : code < F.span
  · refine ⟨code, 0, ?_, ?_, ?_, by omega, Or.inl rfl⟩
    · rw [Nat.zero_mul, Nat.zero_add]
    · rw [units_of_lt small, Nat.pow_zero, Nat.mul_one]
    · rw [spacing, Nat.div_eq_of_lt small]
  · have normal := Nat.not_lt.mp small
    have field : 1 ≤ code / F.span := (Nat.one_le_div_iff positive).mpr normal
    have below := Nat.mod_lt code positive
    refine ⟨F.span + code % F.span, code / F.span - 1, ?_, units_of_le normal, rfl, by omega,
      Or.inr (by omega)⟩
    have parts := Nat.div_add_mod' code F.span
    have := Nat.mul_le_mul_right F.span field
    rw [Nat.sub_mul]
    omega

theorem units_pos {code : Nat} (some : code ≠ 0) : 0 < F.units code := by
  have positive := F.span_pos
  obtain ⟨lower, shift, made, units, _, _, full⟩ := F.exists_significand code
  rw [units]
  refine Nat.mul_pos (Nat.pos_of_ne_zero fun zero => some ?_) (Nat.two_pow_pos shift)
  obtain rfl : shift = 0 := by omega
  rw [made, zero, Nat.zero_mul]

/-- The place of the first digit of a fraction between two neighbours. -/
theorem log2_div_eq (positive : 0 < denominator) (full : shift = 0 ∨ F.span ≤ lower)
    (short : lower < 2 * F.span) (atLeast : lower * (denominator * 2 ^ shift) ≤ numerator)
    (below : numerator < (lower + 1) * (denominator * 2 ^ shift)) :
    Nat.log2 (numerator / denominator) - F.fractionBits = shift := by
  have twice : 2 * F.span = 2 ^ (F.fractionBits + 1) := by
    rw [span_eq, Nat.pow_succ, Nat.mul_comm]
  have low : lower * 2 ^ shift ≤ numerator / denominator := by
    rw [Nat.le_div_iff_mul_le positive, Nat.mul_right_comm, Nat.mul_assoc]
    exact atLeast
  have high : numerator / denominator < (lower + 1) * 2 ^ shift := by
    rw [Nat.div_lt_iff_lt_mul positive, Nat.mul_right_comm, Nat.mul_assoc]
    exact below
  have bound : numerator / denominator < 2 ^ (F.fractionBits + 1 + shift) := by
    rw [Nat.pow_add, ← twice]
    exact Nat.lt_of_lt_of_le high (Nat.mul_le_mul_right _ short)
  rcases full with rfl | full
  · by_cases zero : numerator / denominator = 0
    · rw [zero, Nat.log2_zero, Nat.zero_sub]
    · have := (Nat.log2_lt zero).mpr bound
      omega
  · have least : 2 ^ (F.fractionBits + shift) ≤ numerator / denominator := by
      rw [Nat.pow_add, ← span_eq]
      exact Nat.le_trans (Nat.mul_le_mul_right _ full) low
    have some : numerator / denominator ≠ 0 :=
      Nat.ne_of_gt (Nat.lt_of_lt_of_le (Nat.two_pow_pos _) least)
    have size : Nat.log2 (numerator / denominator) = F.fractionBits + shift :=
      (Nat.log2_eq_iff some).mpr ⟨least, by rwa [Nat.add_right_comm] at bound⟩
    omega

theorem div_mod_of_between (atLeast : lower * (denominator * 2 ^ shift) ≤ numerator)
    (below : numerator < (lower + 1) * (denominator * 2 ^ shift)) :
    numerator / (denominator * 2 ^ shift) = lower ∧
      numerator % (denominator * 2 ^ shift) = numerator - lower * (denominator * 2 ^ shift) := by
  have quotient : numerator / (denominator * 2 ^ shift) = lower :=
    Nat.div_eq_of_lt_le atLeast below
  have parts := Nat.div_add_mod' numerator (denominator * 2 ^ shift)
  rw [quotient] at parts
  exact ⟨quotient, by omega⟩

/-- Below the middle between two neighbours, the lower one is the nearest. -/
theorem nearest_down (positive : 0 < denominator) (full : shift = 0 ∨ F.span ≤ lower)
    (short : lower < 2 * F.span) (atLeast : lower * (denominator * 2 ^ shift) ≤ numerator)
    (below : 2 * numerator < (2 * lower + 1) * (denominator * 2 ^ shift)) :
    F.nearest numerator denominator = min F.infinityCode (shift * F.span + lower) := by
  have next : numerator < (lower + 1) * (denominator * 2 ^ shift) := by
    rw [Nat.add_mul, Nat.mul_assoc] at below
    rw [Nat.add_mul]
    omega
  obtain ⟨quotient, rest⟩ := div_mod_of_between atLeast next
  rw [Nat.add_mul, Nat.mul_assoc, Nat.one_mul] at below
  simp only [nearest_eq, log2_div_eq positive full short atLeast next, quotient, rest]
  rw [if_neg (by omega), Nat.add_zero]

/-- Above the middle, the upper one is. -/
theorem nearest_up (positive : 0 < denominator) (full : shift = 0 ∨ F.span ≤ lower)
    (short : lower < 2 * F.span) (next : numerator < (lower + 1) * (denominator * 2 ^ shift))
    (above : (2 * lower + 1) * (denominator * 2 ^ shift) < 2 * numerator) :
    F.nearest numerator denominator = min F.infinityCode (shift * F.span + lower + 1) := by
  have atLeast : lower * (denominator * 2 ^ shift) ≤ numerator := by
    rw [Nat.add_mul, Nat.mul_assoc] at above
    omega
  obtain ⟨quotient, rest⟩ := div_mod_of_between atLeast next
  rw [Nat.add_mul, Nat.mul_assoc, Nat.one_mul] at above
  simp only [nearest_eq, log2_div_eq positive full short atLeast next, quotient, rest]
  rw [if_pos (by omega)]

/-- What is close to a magnitude is rounded to it. -/
theorem nearest_of_close {code : Nat} (within : code ≤ F.infinityCode) (positive : 0 < denominator)
    (below : 4 * (F.units code * denominator) < 4 * numerator + F.spacing code * denominator)
    (above : 4 * numerator < 4 * (F.units code * denominator) + F.spacing code * denominator) :
    F.nearest numerator denominator = code := by
  have one := F.span_pos
  obtain ⟨lower, shift, made, units, spacing, short, full⟩ := F.exists_significand code
  have product : lower * 2 ^ shift * denominator = lower * (denominator * 2 ^ shift) := by
    rw [Nat.mul_right_comm, Nat.mul_assoc]
  rw [units, spacing, product, Nat.mul_comm (2 ^ shift)] at below above
  suffices F.nearest numerator denominator = min F.infinityCode (shift * F.span + lower) by
    rw [this, ← made, Nat.min_eq_right within]
  by_cases atLeast : lower * (denominator * 2 ^ shift) ≤ numerator
  · refine nearest_down positive full short atLeast ?_
    rw [Nat.add_mul, Nat.mul_assoc]
    omega
  · obtain ⟨less, rfl⟩ : ∃ less, lower = less + 1 := by
      refine ⟨lower - 1, (Nat.succ_pred fun zero => atLeast ?_).symm⟩
      rw [zero, Nat.zero_mul]
      exact Nat.zero_le _
    by_cases inside : shift = 0 ∨ F.span ≤ less
    · refine nearest_up positive inside (by omega) (Nat.not_le.mp atLeast) ?_
      rw [Nat.add_mul] at below
      rw [Nat.add_mul, Nat.mul_assoc]
      omega
    · -- The magnitude is a power of two, and the fraction lies where the spacing is half of it.
      obtain ⟨place, rfl⟩ : ∃ place, shift = place + 1 := ⟨shift - 1, by omega⟩
      have power : less + 1 = F.span := by omega
      have double : (less + 1) * (denominator * 2 ^ (place + 1)) =
          2 * ((less + 1) * (denominator * 2 ^ place)) := by ring
      have whole : denominator * 2 ^ (place + 1) = 2 * (denominator * 2 ^ place) := by ring
      have next : (2 * less + 1 + 1) * (denominator * 2 ^ place) =
          2 * ((less + 1) * (denominator * 2 ^ place)) := by ring
      have middle : (2 * (2 * less + 1) + 1) * (denominator * 2 ^ place) +
          denominator * 2 ^ place = 4 * ((less + 1) * (denominator * 2 ^ place)) := by ring
      have up := @nearest_up F numerator denominator (2 * less + 1) place positive
        (Or.inr (by omega)) (by omega) (by omega) (by omega)
      rw [up, Nat.add_mul place]
      congr 1
      omega

/-- What differs from a magnitude by a small part of it is rounded to it. -/
theorem nearest_of_relative {code : Nat} (within : code ≤ F.infinityCode)
    (positive : 0 < denominator)
    (below : 2 ^ (F.fractionBits + 3) * (F.units code * denominator - numerator) <
      F.units code * denominator)
    (above : 2 ^ (F.fractionBits + 3) * (numerator - F.units code * denominator) <
      F.units code * denominator) : F.nearest numerator denominator = code := by
  obtain ⟨lower, shift, made, units, spacing, short, full⟩ := F.exists_significand code
  have bound : F.units code * denominator ≤
      2 ^ (F.fractionBits + 1) * (F.spacing code * denominator) := by
    rw [units, spacing, Nat.pow_succ, ← span_eq, ← Nat.mul_assoc]
    refine Nat.mul_le_mul_right _ (Nat.mul_le_mul_right _ ?_)
    omega
  have power : 2 ^ (F.fractionBits + 3) = 2 ^ (F.fractionBits + 1) * 4 := by ring
  have quarter {difference : Nat}
      (small : 2 ^ (F.fractionBits + 3) * difference < F.units code * denominator) :
      4 * difference < F.spacing code * denominator := by
    rw [power, Nat.mul_assoc] at small
    exact Nat.lt_of_mul_lt_mul_left (Nat.lt_of_lt_of_le small bound)
  have low := quarter below
  have high := quarter above
  exact nearest_of_close within positive (by omega) (by omega)

end Format

end Placement
