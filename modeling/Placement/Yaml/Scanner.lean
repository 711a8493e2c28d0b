import Placement.Yaml.Token

/-!
The tokens of a document. A scalar or collection may turn out to be a key when a colon follows
it on its line; the tokens that open the key are then put in front of it. Indentation opens and
closes blocks outside of brackets.
-/

namespace Placement.Yaml

/-- A place where a key may have begun. -/
structure PossibleKey where
  /-- The number of tokens before it. -/
  place : Nat
  /-- Nothing else can stand there. -/
  required : Bool
  line : Nat
  column : Nat
  index : Nat

structure Scanner where
  cursor : Cursor
  tokens : Array Token := #[]
  /-- The column of the open block, if there is one. -/
  indent : Int := -1
  outer : List Int := []
  /-- One entry for each open bracket and one for the outside, the innermost first. -/
  keys : List (Option PossibleKey) := [none]
  keyAllowed : Bool := true

namespace Scanner

def inFlow (s : Scanner) : Bool := 1 < s.keys.length

def emit (s : Scanner) (t : Token) : Scanner := { s with tokens := s.tokens.push t }

def insert (s : Scanner) (place : Nat) (t : Token) : Scanner :=
  { s with tokens := s.tokens.insertIdxIfInBounds place t }

def advance (s : Scanner) (n : Nat) : Scanner := { s with cursor := s.cursor.skip n }

/-- The longest text of a key. -/
def keyLimit : Nat := 1024

/-- Whether a key that may have begun can still end here. -/
def alive (c : Cursor) (key : PossibleKey) : Bool :=
  key.line == c.line && c.index - key.index ≤ keyLimit

/-- Forgets the keys that cannot end here. A required key must not be forgotten. -/
def dropStale (s : Scanner) : Option Scanner :=
  if s.keys.any fun key? => key?.any fun key => key.required && !alive s.cursor key then none
  else some { s with keys := s.keys.map fun key? => key?.filter (alive s.cursor) }

/-- Forgets the innermost possible key. -/
def dropKey (s : Scanner) : Option Scanner :=
  match s.keys with
  | some key :: rest => if key.required then none else some { s with keys := none :: rest }
  | _ => some s

/-- Remembers that a key may begin here. -/
def saveKey (s : Scanner) : Option Scanner :=
  if s.keyAllowed then
    (dropKey s).map fun s =>
      let key : PossibleKey := {
        place := s.tokens.size
        required := !s.inFlow && s.indent == (s.cursor.column : Int)
        line := s.cursor.line
        column := s.cursor.column
        index := s.cursor.index }
      { s with keys := some key :: s.keys.drop 1 }
  else some s

/-- Closes the blocks indented by more than a column. -/
def closeBlocks (column : Int) : List Int → Scanner → Scanner
  | [], s => s
  | outer :: rest, s =>
    if column < s.indent then
      closeBlocks column rest { s.emit .blockEnd with indent := outer, outer := rest }
    else s

def unwind (s : Scanner) (column : Int) : Scanner :=
  if s.inFlow then s else closeBlocks column s.outer s

/-- Opens a block at a column if it lies further in than the open one. -/
def openBlock (s : Scanner) (column : Nat) (place : Nat) (t : Token) : Scanner :=
  if s.indent < (column : Int) then
    { s.insert place t with indent := column, outer := s.indent :: s.outer }
  else s

def atStartOfLine (s : Scanner) : Bool := s.cursor.column == 0

/-- Passes over spaces, comments and line ends. After a line end a block key may begin. -/
def skipGap : Nat → Scanner → Scanner
  | 0, s => s
  | fuel + 1, s =>
    let spaced := s.cursor.skipWhile (· == ' ')
    let here := if spaced.peek == some '#' then spaced.skipWhile (!isBreak ·) else spaced
    match here.peek with
    | some d =>
      if isBreak d then
        skipGap fuel { s with cursor := here.next, keyAllowed := s.keyAllowed || !s.inFlow }
      else { s with cursor := here }
    | none => { s with cursor := here }

def documentSign (s : Scanner) (t : Token) : Option Scanner :=
  ((s.unwind (-1)).dropKey).map fun s => ({ s with keyAllowed := false }.advance 3).emit t

def openFlow (s : Scanner) (t : Token) : Option Scanner :=
  s.saveKey.map fun s =>
    { (s.advance 1).emit t with keyAllowed := true, keys := none :: s.keys }

def closeFlow (s : Scanner) (t : Token) : Option Scanner :=
  if s.inFlow then
    s.dropKey.map fun s => { (s.advance 1).emit t with keyAllowed := false, keys := s.keys.drop 1 }
  else none

def flowEntry (s : Scanner) : Option Scanner :=
  s.dropKey.map fun s => { (s.advance 1).emit .flowEntry with keyAllowed := true }

def blockEntry (s : Scanner) : Option Scanner :=
  if s.inFlow || s.keyAllowed then
    let opened := if s.inFlow then s
      else s.openBlock s.cursor.column s.tokens.size .blockSequenceStart
    opened.dropKey.map fun s => { (s.advance 1).emit .blockEntry with keyAllowed := true }
  else none

/-- A question mark that opens a key. -/
def explicitKey (s : Scanner) : Option Scanner :=
  if s.inFlow || s.keyAllowed then
    let opened := if s.inFlow then s
      else s.openBlock s.cursor.column s.tokens.size .blockMappingStart
    opened.dropKey.map fun s => { (s.advance 1).emit .key with keyAllowed := !s.inFlow }
  else none

/-- A colon: what stood before it on the line becomes a key. -/
def colon (s : Scanner) : Option Scanner :=
  match s.keys with
  | some key :: rest =>
    let keyed := { s.insert key.place .key with keys := none :: rest, keyAllowed := false }
    let opened := if s.inFlow then keyed
      else keyed.openBlock key.column key.place .blockMappingStart
    some ((opened.advance 1).emit .value)
  | _ =>
    if s.inFlow then s.dropKey.map fun s => { (s.advance 1).emit .value with keyAllowed := false }
    else if s.keyAllowed then
      let opened := s.openBlock s.cursor.column s.tokens.size .blockMappingStart
      opened.dropKey.map fun s => { (s.advance 1).emit .value with keyAllowed := true }
    else none

def quoted (s : Scanner) (double : Bool) : Option Scanner := do
  let s ← s.saveKey
  let (text, after) ← quotedScalar double s.cursor.rest.length s.cursor.next
  return { s.emit (.scalar text false) with cursor := after, keyAllowed := false }

def plain (s : Scanner) : Option Scanner :=
  s.saveKey.map fun s =>
    let (text, after, lineEnded) :=
      plainScalar s.inFlow (s.indent + 1) s.cursor.rest.length [] false s.cursor
    { s.emit (.scalar text true) with cursor := after, keyAllowed := lineEnded }

/-- A sign with a name behind it. -/
def named (s : Scanner) (t : List Char → Token) : Option Scanner := do
  let s ← s.saveKey
  let (name, behind) ← anchorName? s.cursor.next
  return { s.emit (t name) with cursor := behind, keyAllowed := false }

/-- Whether a plain scalar begins with `c` before `next`. -/
def startsPlain (inFlow : Bool) (c : Char) (next : Option Char) : Bool :=
  (!isGap (some c) &&
    c ∉ ['-', '?', ':', ',', '[', ']', '\x7b', '\x7d', '#', '&', '*', '!', '|', '>', '\x27', '"',
      '%', '@', '\x60']) ||
  (!isGap next && (c == '-' || (!inFlow && (c == '?' || c == ':'))))

/-- Scans the token at the cursor, which begins with `c`. -/
def token (s : Scanner) (c : Char) : Option Scanner :=
  let next := s.cursor.peekAt 1
  if c = '-' ∧ s.atStartOfLine ∧ s.cursor.atDocumentSign then s.documentSign .documentStart
  else if c = '.' ∧ s.atStartOfLine ∧ s.cursor.atDocumentSign then s.documentSign .documentEnd
  else if c = '[' then s.openFlow .flowSequenceStart
  else if c = '\x7b' then s.openFlow .flowMappingStart
  else if c = ']' then s.closeFlow .flowSequenceEnd
  else if c = '\x7d' then s.closeFlow .flowMappingEnd
  else if c = ',' then s.flowEntry
  else if c = '-' ∧ isGap next then s.blockEntry
  else if c = '?' ∧ (s.inFlow ∨ isGap next) then s.explicitKey
  else if c = ':' ∧ (s.inFlow ∨ isGap next) then s.colon
  else if c = '*' then s.named .alias
  else if c = '&' then s.named .anchor
  else if c = '\x27' then s.quoted false
  else if c = '"' then s.quoted true
  else if startsPlain s.inFlow c next then s.plain
  else none

/-- Scans to the end. -/
def run : Nat → Scanner → Option (List Token)
  | 0, _ => none
  | fuel + 1, s => do
    let here ← (s.skipGap s.cursor.rest.length).dropStale
    let s := here.unwind here.cursor.column
    match s.cursor.peek with
    | none => return (← (s.unwind (-1)).dropKey).tokens.toList
    | some c => run fuel (← s.token c)

end Scanner

/-- Characters that a document may hold. -/
def isAllowed (c : Char) : Bool :=
  let n := c.toNat
  n == 0x09 || n == 0x0A || n == 0x0D || (0x20 ≤ n && n ≤ 0x7E) || n == 0x85 ||
  (0xA0 ≤ n && n ≤ 0xFFFD) || (0x10000 ≤ n && n ≤ 0x10FFFF)

/-- The tokens of a text, if it can be cut into tokens. -/
def tokens? (text : List Char) : Option (List Token) :=
  if text.all isAllowed then
    let start := match text with
      | '\uFEFF' :: rest => rest
      | _ => text
    Scanner.run (text.length + 2) { cursor := { rest := start } }
  else none

end Placement.Yaml
