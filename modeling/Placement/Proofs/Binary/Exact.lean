import Mathlib.Algebra.Order.Ring.Nat
import Placement.Binary.Arithmetic
import Placement.Formula.Bound

namespace Placement

namespace Format

variable {F : Format}

theorem nearest_eq (numerator denominator : Nat) :
    F.nearest numerator denominator =
      let shift := Nat.log2 (numerator / denominator) - F.fractionBits
      let spacing := denominator * 2 ^ shift
      let lower := numerator / spacing
      let rest := 2 * (numerator % spacing)
      min F.infinityCode (shift * F.span + lower +
        if spacing < rest ∨ spacing = rest ∧ lower % 2 = 1 then 1 else 0) := by
  rw [nearest]
  rfl

/-- Only the ratio counts. -/
theorem nearest_scale (numerator denominator : Nat) {factor : Nat} (positive : 0 < factor) :
    F.nearest (numerator * factor) (denominator * factor) = F.nearest numerator denominator := by
  simp only [nearest_eq, Nat.mul_div_mul_right _ _ positive, Nat.mul_right_comm denominator factor,
    Nat.mul_mod_mul_right]
  have less (a b : Nat) : a * factor < 2 * (b * factor) ↔ a < 2 * b := by
    rw [← Nat.mul_assoc, Nat.mul_lt_mul_right positive]
  have same (a b : Nat) : a * factor = 2 * (b * factor) ↔ a = 2 * b := by
    rw [← Nat.mul_assoc, Nat.mul_left_inj (Nat.ne_of_gt positive)]
  simp only [less, same]

theorem span_eq : F.span = 2 ^ F.fractionBits := rfl

theorem one_eq : F.one = 2 ^ F.scale := rfl

theorem one_eq_mul {G : Format} {shift : Nat} (scales : F.scale = G.scale + shift) :
    F.one = G.one * 2 ^ shift := by
  rw [one_eq, one_eq, scales, Nat.pow_add]

/-- A whole number of spacings is not rounded. -/
theorem nearest_of_dvd {lower shift : Nat}
    (leading : Nat.log2 (lower * 2 ^ shift) - F.fractionBits = shift) :
    F.nearest (lower * 2 ^ shift) 1 = min F.infinityCode (shift * F.span + lower) := by
  have positive : 0 < 2 ^ shift := Nat.two_pow_pos shift
  simp only [nearest_eq, Nat.div_one, leading, Nat.one_mul, Nat.mul_div_cancel _ positive,
    Nat.mul_mod_left, Nat.mul_zero]
  rw [if_neg (by omega), Nat.add_zero]

theorem log2_mul_two_pow {lower : Nat} (low : F.span ≤ lower) (high : lower < 2 * F.span)
    (shift : Nat) : Nat.log2 (lower * 2 ^ shift) = F.fractionBits + shift := by
  have positive := F.span_pos
  have some : lower * 2 ^ shift ≠ 0 := by
    have := Nat.mul_pos (Nat.lt_of_lt_of_le positive low) (Nat.two_pow_pos shift)
    omega
  rw [span_eq] at low high
  rw [Nat.log2_eq_iff some]
  constructor
  · rw [Nat.pow_add]
    exact Nat.mul_le_mul_right _ low
  · rw [Nat.add_right_comm, Nat.pow_add, Nat.pow_succ, Nat.mul_comm (2 ^ F.fractionBits)]
    exact Nat.mul_lt_mul_of_pos_right high (Nat.two_pow_pos shift)

theorem units_of_le {code : Nat} (normal : F.span ≤ code) :
    F.units code = (F.span + code % F.span) * 2 ^ (code / F.span - 1) :=
  if_neg (Nat.not_lt.mpr normal)

/-- The magnitudes of a format are not rounded. -/
theorem nearest_units {code : Nat} (within : code ≤ F.infinityCode) :
    F.nearest (F.units code) 1 = code := by
  by_cases small : code < F.span
  · have leading : Nat.log2 (code * 2 ^ 0) - F.fractionBits = 0 := by
      rw [Nat.pow_zero, Nat.mul_one]
      by_cases zero : code = 0
      · rw [zero, Nat.log2_zero, Nat.zero_sub]
      · have := (Nat.log2_lt zero).mpr small
        omega
    have exact := nearest_of_dvd leading
    rw [Nat.pow_zero, Nat.mul_one, Nat.zero_mul, Nat.zero_add] at exact
    rw [units_of_lt small, exact, Nat.min_eq_right within]
  · have normal := Nat.not_lt.mp small
    have positive := F.span_pos
    have below := Nat.mod_lt code positive
    have field : 1 ≤ code / F.span := (Nat.one_le_div_iff positive).mpr normal
    have leading := log2_mul_two_pow (F := F) (Nat.le_add_right F.span (code % F.span)) (by omega)
      (code / F.span - 1)
    have whole : (code / F.span - 1) * F.span + (F.span + code % F.span) = code := by
      have parts := Nat.div_add_mod' code F.span
      rw [Nat.sub_mul, Nat.one_mul]
      have := Nat.mul_le_mul_right F.span field
      omega
    rw [units_of_le normal, nearest_of_dvd (by omega), whole, Nat.min_eq_right within]

/-- A finite magnitude is a short significand at some place. -/
theorem units_eq_mul_two_pow {code : Nat} (finite : code < F.infinityCode) :
    ∃ lower shift, F.units code = lower * 2 ^ shift ∧ lower < 2 * F.span ∧
      shift ≤ 2 ^ F.exponentBits - 3 := by
  have positive := F.span_pos
  by_cases small : code < F.span
  · refine ⟨code, 0, ?_, by omega, Nat.zero_le _⟩
    rw [units_of_lt small, Nat.pow_zero, Nat.mul_one]
  · have below := Nat.mod_lt code positive
    have field : code / F.span < 2 ^ F.exponentBits - 1 := (Nat.div_lt_iff_lt_mul positive).mpr finite
    exact ⟨_, _, units_of_le (Nat.not_lt.mp small), by omega, by omega⟩

theorem units_normal {fraction : Nat} (below : fraction < F.span) (shift : Nat) :
    F.units ((shift + 1) * F.span + fraction) = (F.span + fraction) * 2 ^ shift := by
  have positive := F.span_pos
  have normal : F.span ≤ (shift + 1) * F.span + fraction := by
    rw [Nat.succ_mul]
    omega
  have field : ((shift + 1) * F.span + fraction) / F.span = shift + 1 := by
    rw [Nat.mul_comm, Nat.mul_add_div positive, Nat.div_eq_of_lt below, Nat.add_zero]
  rw [units_of_le normal, field, Nat.mul_comm (shift + 1), Nat.mul_add_mod_self_left,
    Nat.mod_eq_of_lt below, Nat.add_sub_cancel]

/-- A full significand is a magnitude if its place is in range. -/
theorem exists_units_eq_of_le {lower shift : Nat} (full : F.span ≤ lower)
    (short : lower < 2 * F.span)
    (inRange : lower * 2 ^ shift < 2 ^ (F.fractionBits + (2 ^ F.exponentBits - 2))) :
    ∃ code < F.infinityCode, F.units code = lower * 2 ^ shift := by
  have bound : 2 ^ (F.fractionBits + shift) < 2 ^ (F.fractionBits + (2 ^ F.exponentBits - 2)) := by
    rw [Nat.pow_add]
    exact Nat.lt_of_le_of_lt (Nat.mul_le_mul_right _ full) inRange
  have place := (Nat.pow_lt_pow_iff_right (by decide)).mp bound
  refine ⟨(shift + 1) * F.span + (lower - F.span), ?_, ?_⟩
  · have field : shift + 2 ≤ 2 ^ F.exponentBits - 1 := by omega
    have room : (shift + 2) * F.span ≤ F.infinityCode := Nat.mul_le_mul_right F.span field
    rw [Nat.succ_mul] at room
    omega
  · rw [units_normal (by omega), Nat.add_sub_cancel' full]

/-- A short significand is a magnitude wherever it is in range. -/
theorem exists_units_eq {lower shift : Nat} (short : lower < 2 * F.span)
    (inRange : lower * 2 ^ shift < 2 ^ (F.fractionBits + (2 ^ F.exponentBits - 2)))
    (wide : 2 ≤ 2 ^ F.exponentBits) :
    ∃ code < F.infinityCode, F.units code = lower * 2 ^ shift := by
  induction shift generalizing lower with
  | zero =>
    by_cases full : F.span ≤ lower
    · exact exists_units_eq_of_le full short inRange
    · have room : 1 * F.span ≤ F.infinityCode :=
        Nat.mul_le_mul_right F.span (Nat.le_sub_of_add_le wide)
      have small := Nat.not_le.mp full
      exact ⟨lower, by omega, by rw [units_of_lt small, Nat.pow_zero, Nat.mul_one]⟩
  | succ shift ih =>
    by_cases full : F.span ≤ lower
    · exact exists_units_eq_of_le full short inRange
    · have moved : lower * 2 ^ (shift + 1) = 2 * lower * 2 ^ shift := by
        rw [Nat.pow_succ, Nat.mul_comm 2 lower, Nat.mul_assoc, Nat.mul_comm 2]
      rw [moved] at inRange ⊢
      exact ih (by omega) inRange

/-- A short whole number is a magnitude. -/
theorem exists_units_whole {n : Nat} (short : n < 2 * F.span)
    (room : F.scale + 3 ≤ 2 ^ F.exponentBits) :
    ∃ code < F.infinityCode, F.units code = n * F.one := by
  have inRange : n * 2 ^ F.scale < 2 ^ (F.fractionBits + (2 ^ F.exponentBits - 2)) := by
    have step : n * 2 ^ F.scale < 2 ^ (F.fractionBits + 1) * 2 ^ F.scale :=
      Nat.mul_lt_mul_of_pos_right (by rwa [Nat.pow_succ, Nat.mul_comm]) (Nat.two_pow_pos _)
    rw [← Nat.pow_add] at step
    exact Nat.lt_of_lt_of_le step (Nat.pow_le_pow_right (by decide) (by omega))
  exact exists_units_eq short inRange (by omega)

/-- What is left of a number at its place is a short significand. -/
theorem div_place_lt (F : Format) (n : Nat) :
    n / 2 ^ (Nat.log2 n - F.fractionBits) < 2 * F.span := by
  rw [Nat.div_lt_iff_lt_mul (Nat.two_pow_pos _), span_eq, ← Nat.pow_succ', ← Nat.pow_add]
  exact Nat.lt_of_lt_of_le Nat.lt_log2_self (Nat.pow_le_pow_right (by decide) (by omega))

/-- Rounding does not pass far beyond the magnitudes of the same size. -/
theorem nearest_le_of_lt {n place : Nat} (bound : n < 2 ^ (F.fractionBits + (place + 1))) :
    F.nearest n 1 ≤ (place + 2) * F.span := by
  have size : Nat.log2 n - F.fractionBits ≤ place := by
    by_cases zero : n = 0
    · rw [zero, Nat.log2_zero, Nat.zero_sub]
      exact Nat.zero_le place
    · have := (Nat.log2_lt zero).mpr bound
      omega
  have lower := F.div_place_lt n
  have fields := Nat.mul_le_mul_right F.span size
  simp only [nearest_eq, Nat.div_one, Nat.one_mul]
  refine Nat.le_trans (Nat.min_le_right _ _) ?_
  rw [Nat.add_mul]
  split <;> omega

end Format

namespace Binary

variable {F G : Format}

theorem ofUnits_units (negative : Bool) (code : Fin (F.infinityCode + 1)) :
    ofUnits negative (F.units code.val) 1 = .signed negative code := by
  rw [ofUnits]
  exact congrArg _ (Fin.ext (F.nearest_units (Nat.le_of_lt_succ code.isLt)))

/-- A value that another format holds as well is not rounded there. -/
theorem convert_of_units_eq (code : Fin (F.infinityCode + 1)) (other : Fin (G.infinityCode + 1))
    (finite : code.val ≠ F.infinityCode)
    (same : F.units code.val * G.one = G.units other.val * F.one) (negative : Bool) :
    (Binary.signed negative code).convert G = .signed negative other := by
  have scaled : (ofUnits negative (G.units other.val * F.one) (1 * F.one) : Binary G) =
      ofUnits negative (G.units other.val) 1 := by
    simp only [ofUnits, Format.nearest_scale _ _ F.one_pos]
  rw [convert, if_neg finite, same, ← ofUnits_units negative other, ← scaled, Nat.one_mul]

theorem convert_infinity (negative : Bool) :
    (infinity negative : Binary F).convert G = infinity negative := by
  rw [infinity, convert, if_pos rfl]

end Binary

/-- The factor between the units of the two formats. -/
theorem double_one_eq : Format.double.one = Format.single.one * 2 ^ 925 :=
  Format.one_eq_mul (by decide)

/-- Every finite binary32 magnitude is a binary64 magnitude. -/
theorem exists_double_units {code : Nat} (finite : code < Format.single.infinityCode) :
    ∃ other < Format.double.infinityCode,
      Format.single.units code * Format.double.one =
        Format.double.units other * Format.single.one := by
  obtain ⟨lower, shift, magnitude, short, place⟩ := Format.units_eq_mul_two_pow finite
  have singleSpan : Format.single.span = 2 ^ 23 := rfl
  have doubleSpan : Format.double.span = 2 ^ 52 := rfl
  have place : shift ≤ 253 := place
  have inRange : lower * 2 ^ (shift + 925) <
      2 ^ (Format.double.fractionBits + (2 ^ Format.double.exponentBits - 2)) := by
    have step : lower * 2 ^ (shift + 925) < 2 ^ 24 * 2 ^ (shift + 925) :=
      Nat.mul_lt_mul_of_pos_right (by omega) (Nat.two_pow_pos _)
    have exponents : 24 + (shift + 925) ≤
        Format.double.fractionBits + (2 ^ Format.double.exponentBits - 2) :=
      Nat.le_trans (by omega : 24 + (shift + 925) ≤ 2098) (by decide)
    rw [← Nat.pow_add] at step
    exact Nat.lt_of_lt_of_le step (Nat.pow_le_pow_right (by decide) exponents)
  obtain ⟨other, below, same⟩ := Format.exists_units_eq (by omega) inRange (by decide)
  refine ⟨other, below, ?_⟩
  rw [magnitude, same, double_one_eq, Nat.pow_add]
  simp only [Nat.mul_assoc, Nat.mul_comm]

/-- Binary64 holds every binary32 value. -/
theorem Binary.toSingle_toDouble (x : Single) : x.toDouble.toSingle = x := by
  cases x with
  | nan => rfl
  | signed negative code =>
    by_cases infinite : code.val = Format.single.infinityCode
    · have same : (Binary.signed negative code : Single) = infinity negative :=
        congrArg _ (Fin.ext infinite)
      rw [same, toDouble, toSingle, convert_infinity, convert_infinity]
    · have finite : code.val < Format.single.infinityCode := by omega
      obtain ⟨other, below, same⟩ := exists_double_units finite
      have wide := convert_of_units_eq code ⟨other, by omega⟩ infinite same negative
      have narrow := convert_of_units_eq ⟨other, by omega⟩ code (Nat.ne_of_lt below) same.symm
        negative
      rw [toDouble, wide, toSingle, narrow]

theorem ofInt_natCast (F : Format) (n : Nat) :
    (Binary.ofInt (n : Int) : Binary F) = .ofUnits false (n * F.one) 1 := by
  have sign : decide ((n : Int) < 0) = false := decide_eq_false (by omega)
  rw [Binary.ofInt, sign, Int.natAbs_natCast]

theorem singleOfInt?_of_finite {n : Int} (finite : (Binary.ofInt n : Double).isInfinite = false) :
    singleOfInt? n = some (Binary.ofInt n : Double).toSingle := by
  rw [singleOfInt?, finite]
  rfl

/-- Whole numbers of up to 24 bits are carried through both formats. -/
theorem singleOfInt?_of_small {n : Nat} (small : n < 2 ^ 24) :
    ∃ x, singleOfInt? n = some x ∧ x.toDouble.toInt? = some (n : Int) := by
  have singleSpan : Format.single.span = 2 ^ 23 := rfl
  have doubleSpan : Format.double.span = 2 ^ 52 := rfl
  obtain ⟨wide, wideFinite, inDouble⟩ :=
    Format.exists_units_whole (F := .double) (n := n) (by omega) (by decide)
  obtain ⟨narrow, narrowFinite, inSingle⟩ :=
    Format.exists_units_whole (F := .single) (n := n) (by omega) (by decide)
  have same : Format.double.units wide * Format.single.one =
      Format.single.units narrow * Format.double.one := by
    rw [inDouble, inSingle, Nat.mul_right_comm]
  have ofInt : (Binary.ofInt (n : Int) : Double) = .signed false ⟨wide, by omega⟩ := by
    rw [ofInt_natCast, ← inDouble]
    exact Binary.ofUnits_units false ⟨wide, by omega⟩
  have rounded := Binary.convert_of_units_eq ⟨wide, by omega⟩ ⟨narrow, by omega⟩
    (Nat.ne_of_lt wideFinite) same false
  have widened := Binary.convert_of_units_eq ⟨narrow, by omega⟩ ⟨wide, by omega⟩
    (Nat.ne_of_lt narrowFinite) same.symm false
  refine ⟨.signed false ⟨narrow, by omega⟩, ?_, ?_⟩
  · have finite : (Binary.signed false ⟨wide, by omega⟩ : Double).isInfinite = false :=
      beq_false_of_ne (Nat.ne_of_lt wideFinite)
    rw [singleOfInt?_of_finite (by rwa [ofInt]), ofInt, Binary.toSingle, rounded]
  · rw [Binary.toDouble, widened, Binary.toInt?, if_neg (Nat.ne_of_lt wideFinite)]
    simp only [inDouble, Nat.mul_div_cancel n Format.double.one_pos, Bool.false_eq_true, if_false]

/-- Integers below half of the binary64 range have a binary32 value. -/
theorem singleOfInt?_of_lt {n bits : Nat} (bound : n < 2 ^ bits) (within : bits ≤ 1023) :
    ∃ x, singleOfInt? n = some x := by
  have units : n * Format.double.one < 2 ^ (Format.double.fractionBits + (2044 + 1)) := by
    have places : bits + Format.double.scale ≤ Format.double.fractionBits + (2044 + 1) :=
      Nat.le_trans (Nat.add_le_add_right within _) (by decide)
    refine Nat.lt_of_lt_of_le ?_ (Nat.pow_le_pow_right (by decide) places)
    rw [Nat.pow_add, Format.one_eq]
    exact Nat.mul_lt_mul_of_pos_right bound (Nat.two_pow_pos _)
  have code := Format.nearest_le_of_lt units
  have finite : (Binary.ofInt (n : Int) : Double).isInfinite = false := by
    rw [ofInt_natCast]
    exact beq_false_of_ne (Nat.ne_of_lt (Nat.lt_of_le_of_lt code (by decide)))
  exact ⟨_, singleOfInt?_of_finite finite⟩

end Placement
