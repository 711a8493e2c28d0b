import Placement.Decimal.Shortest

/-!
Written numbers. A notation fixes between which decimal exponents a number is written out, what
a number without fraction ends in, and the words for the values that are no numbers.
-/

namespace Placement

/-- How numbers are written. Numbers whose first digit has an exponent from `lowest` on and
below `highest` are written out, all others with an exponent of at least two digits. -/
structure Notation where
  lowest : Int
  highest : Int
  /-- Written out, a whole number ends in a point and a zero. -/
  wholePoint : Bool := true
  /-- Before an exponent, a single digit is followed by a point and a zero. -/
  singlePoint : Bool := false
  infinity : String := "inf"
  nan : String := "nan"
  deriving DecidableEq, Repr

namespace Notation

/-- The digits with a point after the place of exponent zero. -/
def positional (style : Notation) (digits : List Char) (leading : Int) : List Char :=
  if leading < 0 then
    ['0', '.'] ++ List.replicate (-leading - 1).toNat '0' ++ digits
  else
    let whole := leading.toNat + 1
    if digits.length ≤ whole then
      digits ++ List.replicate (whole - digits.length) '0' ++
        (if style.wholePoint then ['.', '0'] else [])
    else digits.take whole ++ ['.'] ++ digits.drop whole

/-- The first digit, the others after a point, and the exponent with its sign. -/
def scientific (style : Notation) (digits : List Char) (leading : Int) : List Char :=
  let fraction := match digits.drop 1 with
    | [] => if style.singlePoint then ['.', '0'] else []
    | rest => '.' :: rest
  let exponent := Nat.toDigits 10 leading.natAbs
  digits.take 1 ++ fraction ++ ['e', if leading < 0 then '-' else '+'] ++
    (if exponent.length < 2 then '0' :: exponent else exponent)

/-- A sign and a decimal, whose form is chosen by the exponent `scaleExponent`. -/
def write (style : Notation) (negative : Bool) (d : Decimal) (scaleExponent : Int) : List Char :=
  let digits := Nat.toDigits 10 d.digits
  (if negative then ['-'] else []) ++
    if style.lowest ≤ scaleExponent ∧ scaleExponent < style.highest then
      style.positional digits d.leading
    else style.scientific digits d.leading

/-- The words for infinity and not-a-number, and a finite value as `finite` says. -/
def writeWith (style : Notation) {F : Format} (finite : Bool → Nat → List Char) :
    Binary F → String
  | .nan => style.nan
  | .signed negative code =>
    if code.val = F.infinityCode then (if negative then "-" else "") ++ style.infinity
    else String.ofList (finite negative code.val)

/-- The shortest text that reads back. The form is chosen by the exact value. -/
def shortest (style : Notation) {F : Format} (x : Binary F) : String :=
  style.writeWith (fun negative code =>
    style.write negative (Binary.shortest F code)
      (if code = 0 then 0 else leadingExponent (F.units code) F.one)) x

/-- The text with `places` significant digits, without zeros at the end. The form is chosen by
the rounded value. -/
def significant (style : Notation) (places : Nat) {F : Format} (x : Binary F) : String :=
  style.writeWith (fun negative code =>
    let d := if code = 0 then ⟨0, 0⟩ else (Decimal.ofFraction places (F.units code) F.one).trim
    style.write negative d d.leading) x

end Notation

end Placement
