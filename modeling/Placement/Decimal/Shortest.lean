import Placement.Decimal.Basic

namespace Placement.Binary

variable {F : Format}

/-- The code that a number of steps of `10 ^ exponent` reads back as. -/
def codeOfSteps (F : Format) (steps : Nat) (exponent : Int) : Nat :=
  F.nearest (steps * Nat.pow 10 exponent.toNat * F.one) (Nat.pow 10 (-exponent).toNat)

/-- The steps of `10 ^ exponent` next to a code's value that read back as it, the nearer first. -/
def stepsOfCode? (F : Format) (code : Nat) (exponent : Int) : Option Nat :=
  let steps := inSteps (F.units code) F.one exponent
  let nearer := roundDiv steps.1 steps.2
  let lower := steps.1 / steps.2
  let other := if nearer = lower then lower + 1 else lower
  [nearer, other].find? fun n => codeOfSteps F n exponent = code

/-- The first grid, from that of `10 ^ exponent` down by at most `count` tenths, with a step
that reads back. -/
def shortestFrom (F : Format) (code : Nat) : Nat → Int → Decimal
  | 0, exponent =>
    let steps := inSteps (F.units code) F.one exponent
    ⟨roundDiv steps.1 steps.2, exponent⟩
  | count + 1, exponent =>
    match stepsOfCode? F code exponent with
    | some steps => ⟨steps, exponent⟩
    | none => shortestFrom F code count (exponent - 1)

/-- The shortest decimal of a finite magnitude. -/
def shortest (F : Format) (code : Nat) : Decimal :=
  if code = 0 then ⟨0, 0⟩
  else (shortestFrom F code F.fractionBits (leadingExponent (F.units code) F.one)).trim

end Placement.Binary
