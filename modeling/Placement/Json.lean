import Placement.Datum

namespace Placement.Json

def unitEscape (unit : Nat) : List Char := ['\\', 'u'] ++ hexDigits 4 unit

def charText (c : Char) : List Char :=
  match c with
  | '"' => ['\\', '"']
  | '\\' => ['\\', '\\']
  | '\n' => ['\\', 'n']
  | '\r' => ['\\', 'r']
  | '\t' => ['\\', 't']
  | '\x08' => ['\\', 'b']
  | '\x0c' => ['\\', 'f']
  | _ =>
    if ' ' ≤ c ∧ c ≤ '~' then [c]
    else if c.toNat < 0x10000 then unitEscape c.toNat
    else
      let offset := c.toNat - 0x10000
      unitEscape (0xD800 + offset / 0x400) ++ unitEscape (0xDC00 + offset % 0x400)

def quotedText (text : String) : List Char := ['"'] ++ text.toList.flatMap charText ++ ['"']

/-- A new line at a depth of nesting. -/
def newLine (depth : Nat) : List Char := '\n' :: List.replicate (2 * depth) ' '

/-- Numbers as they are written elsewhere, with other words for what is no number. -/
def numbers : Notation := { lowest := -4, highest := 16, infinity := "Infinity", nan := "NaN" }

mutual

/-- A datum inside of `depth` collections. -/
def text (depth : Nat) : Datum → List Char
  | .null => ("null" : String).toList
  | .bool value => (if value then "true" else "false" : String).toList
  | .int n => (writeInt n).toList
  | .rational q => quotedText (Datum.rational q).plainText
  | .float x => (numbers.shortest x).toList
  | .moment m => quotedText m.text
  | .text s => quotedText s
  | .list [] => ['[', ']']
  | .list (item :: rest) =>
    ['['] ++ newLine (depth + 1) ++ text (depth + 1) item ++ items (depth + 1) rest ++
      newLine depth ++ [']']
  | .mapping [] => ['\x7b', '\x7d']
  | .mapping ((key, value) :: rest) =>
    ['\x7b'] ++ newLine (depth + 1) ++ quotedText key.plainText ++ [':', ' '] ++
      text (depth + 1) value ++ entries (depth + 1) rest ++ newLine depth ++ ['\x7d']
  | .record name _ => quotedText name

/-- The items after the first. -/
def items (depth : Nat) : List Datum → List Char
  | [] => []
  | item :: rest => [','] ++ newLine depth ++ text depth item ++ items depth rest

/-- The entries after the first. -/
def entries (depth : Nat) : List (Datum × Datum) → List Char
  | [] => []
  | (key, value) :: rest =>
    [','] ++ newLine depth ++ quotedText key.plainText ++ [':', ' '] ++ text depth value ++
      entries depth rest

end

/-- The text of a datum. -/
def write (value : Datum) : String := String.ofList (text 0 value)

end Placement.Json
