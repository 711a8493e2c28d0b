import Placement.Binary.Basic

/-!
Decimal numbers `digits * 10 ^ exponent` and their relation to binary values: the decimal
exponent of a fraction, the nearest binary value of a decimal, and the exact fraction of a
binary value.
-/

namespace Placement

/-- The number of decimal digits. Zero has one. -/
def digitCount (n : Nat) : Nat := (Nat.toDigits 10 n).length

/-- A non-negative decimal number. -/
structure Decimal where
  digits : Nat
  exponent : Int
  deriving DecidableEq, Repr

namespace Decimal

/-- The exponent of the first digit. -/
def leading (d : Decimal) : Int := d.exponent + digitCount d.digits - 1

/-- The numerator and denominator of the number. -/
def numerator (d : Decimal) : Nat := d.digits * Nat.pow 10 d.exponent.toNat

def denominator (d : Decimal) : Nat := Nat.pow 10 (-d.exponent).toNat

/-- Drops at most `count` zeros from the end of the digits. -/
def trimmed : Nat → Decimal → Decimal
  | 0, d => d
  | count + 1, d =>
    if d.digits % 10 = 0 then trimmed count ⟨d.digits / 10, d.exponent + 1⟩ else d

/-- The same number without zeros at its end. -/
def trim (d : Decimal) : Decimal :=
  if d.digits = 0 then ⟨0, 0⟩ else trimmed (digitCount d.digits) d

/-- The nearest value of a format under a sign. Numbers too large or too small for any digits
to matter are decided by their exponent alone. -/
def toBinary (F : Format) (negative : Bool) (d : Decimal) : Binary F :=
  if d.digits = 0 then .zero negative
  else if (Nat.pow 2 F.exponentBits : Int) < d.exponent then .infinity negative
  else if d.exponent + digitCount d.digits < -(Nat.pow 2 F.exponentBits : Int) then .zero negative
  else .ofUnits negative (d.numerator * F.one) d.denominator

end Decimal

/-- The exponent of the first decimal digit of a positive fraction. -/
def leadingExponent (numerator denominator : Nat) : Int :=
  if denominator ≤ numerator then digitCount (numerator / denominator) - 1
  else -(digitCount ((denominator - 1) / numerator) : Int)

/-- The quotient rounded to the nearest integer, a half going to the even one. -/
def roundDiv (numerator denominator : Nat) : Nat :=
  let lower := numerator / denominator
  let rest := 2 * (numerator % denominator)
  if denominator < rest ∨ denominator = rest ∧ lower % 2 = 1 then lower + 1 else lower

/-- A fraction as a number of steps of `10 ^ exponent`: numerator and denominator. -/
def inSteps (numerator denominator : Nat) (exponent : Int) : Nat × Nat :=
  (numerator * Nat.pow 10 (-exponent).toNat, denominator * Nat.pow 10 exponent.toNat)

/-- The decimal with `places` significant digits nearest to a positive fraction. -/
def Decimal.ofFraction (places : Nat) (numerator denominator : Nat) : Decimal :=
  let exponent := leadingExponent numerator denominator - places + 1
  let steps := inSteps numerator denominator exponent
  ⟨roundDiv steps.1 steps.2, exponent⟩

end Placement
