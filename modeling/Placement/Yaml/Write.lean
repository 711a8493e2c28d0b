import Placement.Yaml.Token

namespace Placement.Yaml

/-- Numbers keep a point also before an exponent. -/
def numbers : Notation :=
  { lowest := -4, highest := 16, singlePoint := true, infinity := ".inf", nan := ".nan" }

def isPlainChar (c : Char) : Bool := ' ' ≤ c && c ≤ '~'

/-- Whether a character ends a word for the signs beside it. -/
def isEdge : Option Char → Bool
  | none => true
  | some c => c == '\x00' || c == '\r' || isGap (some c)

/-- Whether text can begin with this character before the next. -/
def safeStart (c : Char) (next : Option Char) : Bool :=
  c ∉ ['#', ',', '[', ']', '\x7b', '\x7d', '&', '*', '!', '|', '>', '\x27', '"', '%', '@', '\x60'] &&
    !(isEdge next && (c == '?' || c == ':' || c == '-'))

/-- Whether no colon ends a word and no number sign begins one, after a first character. -/
def safeInside : Char → List Char → Bool
  | _, [] => true
  | previous, c :: rest =>
    !(c == ':' && isEdge rest.head?) && !(c == '#' && isEdge (some previous)) && safeInside c rest

/-- Whether text keeps its meaning without quotes. -/
def standsPlain (text : List Char) : Bool :=
  match text with
  | [] => false
  | c :: rest =>
    text.all isPlainChar && c != ' ' && text.getLast? != some ' ' &&
      !(text.take 3 == ['-', '-', '-'] || text.take 3 == ['.', '.', '.']) &&
      safeStart c rest.head? && safeInside c rest &&
      match resolve text with
      | .text => true
      | _ => false

/-- Whether a space and a line end stand side by side. -/
def spaceBesideBreak : List Char → Bool
  | c :: d :: rest => (c == ' ' && d == '\n') || (c == '\n' && d == ' ') || spaceBesideBreak (d :: rest)
  | _ => false

/-- Text between single quotes, with quotes doubled, cut into lines. A line end is written twice
at the beginning of a run, and the line after a run is indented. -/
def singleQuoted (indent : Nat) (text : List Char) : List (List Char) :=
  let lines := (String.ofList text).splitOn "\n" |>.map fun line =>
    line.toList.flatMap fun c => if c = '\x27' then ['\x27', '\x27'] else [c]
  match lines with
  | [] => [['\x27', '\x27']]
  | [only] => [['\x27'] ++ only ++ ['\x27']]
  | first :: rest => close (('\x27' :: first) :: fold rest)
where
  /-- The lines after the first, the empty ones of a run standing for one more line end. -/
  fold : List (List Char) → List (List Char)
    | [] => []
    | [last] => [[], List.replicate indent ' ' ++ last]
    | [] :: rest => [] :: fold rest
    | line :: rest => [] :: (List.replicate indent ' ' ++ line) :: fold rest
  close : List (List Char) → List (List Char)
    | [] => []
    | [last] => [last ++ ['\x27']]
    | line :: rest => line :: close rest

def upperHex (width n : Nat) : List Char := (hexDigits width n).map Char.toUpper

/-- A character between double quotes. -/
def doubleQuotedChar (c : Char) : List Char :=
  match [('\x00', '0'), ('\x07', 'a'), ('\x08', 'b'), ('\t', 't'), ('\n', 'n'), ('\x0b', 'v'),
      ('\x0c', 'f'), ('\r', 'r'), ('\x1b', 'e'), ('"', '"'), ('\\', '\\'), ('\u0085', 'N'),
      ('\u00a0', '_'), ('\u2028', 'L'), ('\u2029', 'P')].lookup c with
  | some letter => ['\\', letter]
  | none =>
    if isPlainChar c then [c]
    else if c.toNat < 0x100 then ['\\', 'x'] ++ upperHex 2 c.toNat
    else if c.toNat < 0x10000 then ['\\', 'u'] ++ upperHex 4 c.toNat
    else ['\\', 'U'] ++ upperHex 8 c.toNat

/-- The lines of a text, those after the first indented. -/
def textLines (indent : Nat) (text : List Char) : List (List Char) :=
  if standsPlain text then [text]
  else if text.all (fun c => isPlainChar c || c == '\n') && !spaceBesideBreak text then
    singleQuoted indent text
  else [['"'] ++ text.flatMap doubleQuotedChar ++ ['"']]

/-- The lines of a scalar. Collections count as scalars only if they are empty. -/
def scalarLines (indent : Nat) : Datum → List (List Char)
  | .null => [("null" : String).toList]
  | .bool value => [(if value then "true" else "false" : String).toList]
  | .int n => [(writeInt n).toList]
  | .rational q => textLines indent (Datum.rational q).plainText.toList
  | .float x => [(numbers.shortest x).toList]
  | .moment m => [m.text.toList]
  | .text s => textLines indent s.toList
  | .list _ => [['[', ']']]
  | .mapping _ => [['\x7b', '\x7d']]
  | .record name _ => textLines indent name.toList

/-- Puts a text before the first line. -/
def prepend (text : List Char) : List (List Char) → List (List Char)
  | [] => [text]
  | line :: rest => (text ++ line) :: rest

/-- Moves lines in by two columns, empty ones apart. -/
def indented (lines : List (List Char)) : List (List Char) :=
  lines.map fun line => if line.isEmpty then line else ' ' :: ' ' :: line

/-- Marks lines as an item of a sequence. -/
def asItem : List (List Char) → List (List Char)
  | [] => []
  | line :: rest => (['-', ' '] ++ line) :: indented rest

mutual

/-- The lines of a datum as an item of a sequence. -/
def itemLines : Datum → List (List Char)
  | .list (item :: rest) => asItem (itemLines item ++ sequenceLines rest)
  | .mapping (entry :: rest) => asItem (mappingLines (entry :: rest))
  | value => asItem (scalarLines 0 value)

def sequenceLines : List Datum → List (List Char)
  | [] => []
  | item :: rest => itemLines item ++ sequenceLines rest

/-- The lines of the entries of a mapping. A sequence stands at the column of its key. -/
def mappingLines : List (Datum × Datum) → List (List Char)
  | [] => []
  | (key, value) :: rest =>
    let name := (scalarLines 0 key).flatten ++ [':']
    let lines := match value with
      | .list (item :: more) => name :: (itemLines item ++ sequenceLines more)
      | .mapping (entry :: more) => name :: indented (mappingLines (entry :: more))
      | value => prepend (name ++ [' ']) (scalarLines 2 value)
    lines ++ mappingLines rest

end

/-- The text of a mapping. An empty one is written in braces. -/
def write (entries : List (Datum × Datum)) : String :=
  let lines := if entries.isEmpty then [['\x7b', '\x7d']] else mappingLines entries
  String.ofList (lines.flatMap fun line => line ++ ['\n'])

end Placement.Yaml
