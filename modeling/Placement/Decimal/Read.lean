import Placement.Decimal.Basic
import Placement.Text.Blank
import Placement.Text.Digit

/-!
Numbers read from free text. White space around the number is dropped, decimal digits of all
scripts count as digits, and a single underscore may stand between two digits.
-/

namespace Placement

/-- The text behind an underscore that stands before a digit, otherwise the text itself. -/
def skipSeparator : List Char → List Char
  | '_' :: next :: more => if (digitValue? next).isSome then next :: more else '_' :: next :: more
  | text => text

theorem skipSeparator_length_le (text : List Char) :
    (skipSeparator text).length ≤ text.length := by
  unfold skipSeparator
  split
  · split <;> simp
  · exact Nat.le_refl _

/-- Digits as numbers with single underscores between them, and the text behind them. -/
def readDigits : List Char → List Nat × List Char
  | [] => ([], [])
  | c :: rest =>
    match digitValue? c with
    | none => ([], c :: rest)
    | some d =>
      let (digits, after) := readDigits (skipSeparator rest)
      (d :: digits, after)
termination_by text => text.length
decreasing_by
  have := skipSeparator_length_le rest
  simp only [List.length_cons]
  omega

/-- The number with the given digits. -/
def numberOfDigits (digits : List Nat) : Nat := digits.foldl (fun n d => 10 * n + d) 0

/-- A sign, and whether it was a minus. -/
def readSign : List Char → Bool × List Char
  | '+' :: rest => (false, rest)
  | '-' :: rest => (true, rest)
  | text => (false, text)

/-- The most digits an integer may have to be read. -/
def integerDigitLimit : Nat := 4300

/-- An integer in decimal digits. -/
def readInt? (text : List Char) : Option Int :=
  let (negative, body) := readSign (stripOf isWhite text)
  match readDigits body with
  | ([], _) => none
  | (digits, []) =>
    if integerDigitLimit < digits.length then none
    else some (if negative then -(numberOfDigits digits : Int) else numberOfDigits digits)
  | _ => none

/-- The exponent part of a number, which may be missing. -/
def readExponent? : List Char → Option Int
  | [] => some 0
  | c :: rest =>
    if c = 'e' ∨ c = 'E' then
      let (negative, body) := readSign rest
      match readDigits body with
      | ([], _) => none
      | (digits, []) =>
        some (if negative then -(numberOfDigits digits : Int) else numberOfDigits digits)
      | _ => none
    else none

/-- A decimal number with an optional fraction and exponent. -/
def readDecimal? (text : List Char) : Option Decimal :=
  let (whole, afterWhole) := readDigits text
  let (fraction, rest) := match afterWhole with
    | '.' :: more => readDigits more
    | _ => ([], afterWhole)
  if whole.isEmpty && fraction.isEmpty then none
  else (readExponent? rest).map fun exponent =>
    ⟨numberOfDigits (whole ++ fraction), exponent - fraction.length⟩

/-- A number of the format `F`: a decimal, or one of the words for infinity and not-a-number
in letters of any case. -/
def readBinary? (F : Format) (text : List Char) : Option (Binary F) :=
  let (negative, body) := readSign (stripOf isWhite text)
  let word := String.ofList (body.map Char.toLower)
  if word = "inf" ∨ word = "infinity" then some (.infinity negative)
  else if word = "nan" then some .nan
  else (readDecimal? body).map (Decimal.toBinary F negative)

/-- A binary64 number. -/
def readDouble? (text : String) : Option Double := readBinary? Format.double text.toList

end Placement
