namespace Placement

/-- White space of the character standard. -/
def isWhite (c : Char) : Bool :=
  let n := c.toNat
  (0x09 ≤ n && n ≤ 0x0D) || n == 0x20 || n == 0x85 || n == 0xA0 || n == 0x1680 ||
  (0x2000 ≤ n && n ≤ 0x200A) || n == 0x2028 || n == 0x2029 || n == 0x202F || n == 0x205F ||
  n == 0x3000

/-- White space, and the controls that separate files, groups, records and units. -/
def isBlank (c : Char) : Bool :=
  isWhite c || (0x1C ≤ c.toNat && c.toNat ≤ 0x1F)

/-- The text without the characters of a class at either end. -/
def stripOf (ends : Char → Bool) (text : List Char) : List Char :=
  ((text.dropWhile ends).reverse.dropWhile ends).reverse

/-- The text without the blanks at either end. -/
def strip (text : List Char) : List Char := stripOf isBlank text

end Placement
