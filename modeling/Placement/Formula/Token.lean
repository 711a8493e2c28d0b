import Placement.Decimal.Basic
import Placement.Formula.Operator

/-!
The tokens of formulas and the text each stands for. A call is one token: the name, and the
text between its parentheses as it is.
-/

namespace Placement

/-- The space that may stand between tokens. -/
def isSpace (c : Char) : Bool := c == ' ' || c == '\t' || c == '\r' || c == '\n'

/-- The characters of a number after its first digit. -/
def isNumberChar (c : Char) : Bool := c.isDigit || c == '.'

/-- The characters of a variable or function name after its first letter. -/
def isNameChar (c : Char) : Bool := c.isLower || c.isDigit || c == '_'

/-- The characters of a constant's name after its first letter. -/
def isConstantChar (c : Char) : Bool := c.isUpper || c == '_'

inductive Token where
  | number (digits : List Char)
  | identifier (name : String)
  | constant (name : String)
  | call (name : String) (arguments : List Char)
  | operator (op : Operator)
  | leftParen
  | rightParen
  | comma
  deriving DecidableEq

/-- A token and the position of its first character. -/
structure Placed where
  token : Token
  position : Nat
  deriving DecidableEq

namespace Token

/-- The text of a token. -/
def lexeme : Token → List Char
  | number digits => digits
  | identifier name => name.toList
  | constant name => name.toList
  | call name arguments => name.toList ++ ['('] ++ arguments ++ [')']
  | operator op => [op.symbol]
  | leftParen => ['(']
  | rightParen => [')']
  | comma => [',']

end Token

/-- The decimal that a run of digits with at most one point stands for. -/
def numeral (digits : List Char) : Decimal :=
  let whole := digits.takeWhile Char.isDigit
  let fraction := (digits.dropWhile Char.isDigit).drop 1
  ⟨Nat.ofDigitChars 10 (whole ++ fraction) 0, -fraction.length⟩

/-- The binary64 value of a number token's text. -/
def numeralValue (digits : List Char) : Double :=
  (numeral digits).toBinary Format.double false

end Placement
