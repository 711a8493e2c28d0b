/-!
Binary formats. A magnitude of a format is named by its code, its place in increasing order:
zero has code 0, the least subnormal code 1, and infinity the last code. Every finite magnitude
is a whole number of units of the least subnormal, so rounding is arithmetic on naturals.
-/

namespace Placement

/-- A binary format with `fractionBits` stored bits of significand and `exponentBits` bits of
exponent. A code is made up of its exponent field and, below it, its fraction. -/
structure Format where
  fractionBits : Nat
  exponentBits : Nat
  deriving DecidableEq, Repr

namespace Format

/-- Binary32. -/
def single : Format := ⟨23, 8⟩

/-- Binary64. -/
def double : Format := ⟨52, 11⟩

/-- The number of codes with one exponent field. -/
def span (F : Format) : Nat := Nat.pow 2 F.fractionBits

/-- The unit is `2 ^ (-scale)`, the least positive value of the format. -/
def scale (F : Format) : Nat := Nat.pow 2 (F.exponentBits - 1) + F.fractionBits - 2

/-- The number of units in one. -/
def one (F : Format) : Nat := Nat.pow 2 F.scale

/-- The place of the sign in the encoding. -/
def signBit (F : Format) : Nat := Nat.pow 2 (F.exponentBits + F.fractionBits)

/-- The code of infinity, the first above all finite magnitudes. -/
def infinityCode (F : Format) : Nat := (Nat.pow 2 F.exponentBits - 1) * F.span

/-- The magnitude of a code in units. Infinity stands where the next finite value would. -/
def units (F : Format) (code : Nat) : Nat :=
  if code < F.span then code
  else (F.span + code % F.span) * Nat.pow 2 (code / F.span - 1)

/-- The code nearest to `numerator / denominator` units, a half going to the even code.
From half a step above the largest finite value on, this is infinity. -/
@[irreducible] def nearest (F : Format) (numerator denominator : Nat) : Nat :=
  let shift := Nat.log2 (numerator / denominator) - F.fractionBits
  let spacing := denominator * Nat.pow 2 shift
  let lower := numerator / spacing
  let rest := 2 * (numerator % spacing)
  let upward := spacing < rest ∨ spacing = rest ∧ lower % 2 = 1
  min F.infinityCode (shift * F.span + lower + if upward then 1 else 0)

theorem nearest_le (F : Format) (numerator denominator : Nat) :
    F.nearest numerator denominator ≤ F.infinityCode := by
  rw [nearest]
  exact Nat.min_le_left _ _

theorem units_of_lt {F : Format} {code : Nat} (small : code < F.span) :
    F.units code = code := if_pos small

theorem span_pos (F : Format) : 0 < F.span := Nat.two_pow_pos _

theorem units_zero (F : Format) : F.units 0 = 0 :=
  units_of_lt F.span_pos

theorem one_pos (F : Format) : 0 < F.one := Nat.two_pow_pos _

end Format

end Placement
