import Placement.Text.Printable

namespace Placement

/-- The last `width` hexadecimal digits of a number. -/
def hexDigits : Nat → Nat → List Char
  | 0, _ => []
  | width + 1, n => hexDigits width (n / 16) ++ [Nat.digitChar (n % 16)]

/-- A character by its number, in as few of two, four or eight digits as hold it. -/
def numericEscape (n : Nat) : List Char :=
  if n < 0x100 then ['\\', 'x'] ++ hexDigits 2 n
  else if n < 0x10000 then ['\\', 'u'] ++ hexDigits 4 n
  else ['\\', 'U'] ++ hexDigits 8 n

/-- How a character stands between the given quotes. -/
def quotedChar (quote c : Char) : List Char :=
  if c = quote ∨ c = '\\' then ['\\', c]
  else if c = '\n' then ['\\', 'n']
  else if c = '\r' then ['\\', 'r']
  else if c = '\t' then ['\\', 't']
  else if 0x20 ≤ c.toNat ∧ c.toNat < 0x7F then [c]
  else if isPrintable c then [c]
  else numericEscape c.toNat

/-- The text between quotes. -/
def quoted (text : String) : String :=
  let quote := if text.contains '\'' && !text.contains '"' then '"' else '\''
  String.ofList (quote :: (text.toList.flatMap (quotedChar quote) ++ [quote]))

end Placement
