import Placement.Yaml.Scalar

namespace Placement.Yaml

inductive Token where
  | documentStart
  | documentEnd
  | blockSequenceStart
  | blockMappingStart
  | blockEnd
  | flowSequenceStart
  | flowSequenceEnd
  | flowMappingStart
  | flowMappingEnd
  | blockEntry
  | flowEntry
  | key
  | value
  | scalar (text : List Char) (plain : Bool)
  | anchor (name : List Char)
  | alias (name : List Char)
  deriving DecidableEq

/-- A place in a text. -/
structure Cursor where
  rest : List Char
  line : Nat := 0
  column : Nat := 0
  index : Nat := 0

def isBreak (c : Char) : Bool :=
  c == '\n' || c == '\u0085' || c == '\u2028' || c == '\u2029'

/-- Space, a tab, a line end, or the end of the text. -/
def isGap : Option Char → Bool
  | none => true
  | some c => c == ' ' || c == '\t' || isBreak c

namespace Cursor

def peek (c : Cursor) : Option Char := c.rest.head?

def peekAt (c : Cursor) (n : Nat) : Option Char := c.rest[n]?

/-- One character further. A byte order mark takes no column. -/
def next (c : Cursor) : Cursor :=
  match c.rest with
  | [] => c
  | d :: rest =>
    if isBreak d then ⟨rest, c.line + 1, 0, c.index + 1⟩
    else ⟨rest, c.line, if d = '\uFEFF' then c.column else c.column + 1, c.index + 1⟩

def skip : Nat → Cursor → Cursor
  | 0, c => c
  | n + 1, c => skip n c.next

def skipWhile (p : Char → Bool) (c : Cursor) : Cursor := c.skip (c.rest.takeWhile p).length

/-- Whether a line of three equal signs for the start or end of a document begins here. -/
def atDocumentSign (c : Cursor) : Bool :=
  (c.rest.take 3 == ['-', '-', '-'] || c.rest.take 3 == ['.', '.', '.']) && isGap (c.peekAt 3)

end Cursor

/-- Whether a character can stand in the name of an anchor. -/
def isAnchorChar (c : Char) : Bool :=
  ('0' ≤ c && c ≤ '9') || ('A' ≤ c && c ≤ 'Z') || ('a' ≤ c && c ≤ 'z') || c == '-' || c == '_'

/-- The name of an anchor, which a gap or a sign has to follow, and the cursor behind it. -/
def anchorName? (c : Cursor) : Option (List Char × Cursor) :=
  let name := c.rest.takeWhile isAnchorChar
  let behind := c.skip name.length
  let ended := isGap behind.peek || behind.peek == some '\r' ||
    behind.peek.any (· ∈ ['?', ':', ',', ']', '\x7d', '%', '@', '\x60'])
  if !name.isEmpty && ended then some (name, behind) else none

/-- What a line end contributes to a scalar. -/
def breakText (c : Char) : List Char := if c = '\u0085' then ['\n'] else [c]

/-- A line end followed by others: a single one is a space, all others stand for themselves. -/
def foldedBreaks (first : Char) (others : List Char) : List Char :=
  (if breakText first ≠ ['\n'] then breakText first
    else if others.isEmpty then [' '] else []) ++ others

/-- The characters of a plain scalar up to a gap or a sign that ends it. -/
def plainChunk (inFlow : Bool) : List Char → List Char
  | [] => []
  | c :: rest =>
    if isGap (some c) then []
    else if c = ':' &&
        (isGap rest.head? || (inFlow && (rest.head?.any (· ∈ [',', '[', ']', '\x7b', '\x7d'])))) then
      []
    else if inFlow && c ∈ [',', '?', '[', ']', '\x7b', '\x7d'] then []
    else c :: plainChunk inFlow rest

/-- The line ends and spaces between two lines of a plain scalar, unless a document ends. -/
def plainBreaks : Nat → Cursor → Option (List Char × Cursor)
  | 0, c => some ([], c)
  | fuel + 1, c =>
    match c.peek with
    | some ' ' => plainBreaks fuel c.next
    | some d =>
      if isBreak d then
        if c.next.atDocumentSign then none
        else (plainBreaks fuel c.next).map fun (text, after) => (breakText d ++ text, after)
      else some ([], c)
    | none => some ([], c)

/-- What stands between two chunks of a plain scalar, and whether a line ended in it. -/
def plainGap (c : Cursor) : List Char × Cursor × Bool :=
  let after := c.skipWhile (· == ' ')
  match after.peek with
  | some d =>
    if isBreak d then
      if after.next.atDocumentSign then ([], after.next, true)
      else
        match plainBreaks after.rest.length after.next with
        | some (others, behind) => (foldedBreaks d others, behind, true)
        | none => ([], after.next, true)
    else (c.rest.takeWhile (· == ' '), after, false)
  | none => (c.rest.takeWhile (· == ' '), after, false)

/-- A plain scalar whose lines are indented by at least `indent`, the cursor behind it, and
whether a line ended there. `pending` is the gap before the next chunk. -/
def plainScalar (inFlow : Bool) (indent : Int) :
    Nat → List Char → Bool → Cursor → List Char × Cursor × Bool
  | 0, _, lineEnded, c => ([], c, lineEnded)
  | fuel + 1, pending, lineEnded, c =>
    if c.peek == some '#' then ([], c, lineEnded)
    else
      let chunk := plainChunk inFlow c.rest
      if chunk.isEmpty then ([], c, lineEnded)
      else
        let (gap, after, ended) := plainGap (c.skip chunk.length)
        if gap.isEmpty || after.peek == some '#' || (!inFlow && (after.column : Int) < indent) then
          (pending ++ chunk, after, ended)
        else
          let (more, behind, endedLater) := plainScalar inFlow indent fuel gap ended after
          (pending ++ chunk ++ more, behind, endedLater)

/-- The line ends after the first one in a quoted scalar. -/
def quotedBreaks : Nat → Cursor → Option (List Char × Cursor)
  | 0, _ => none
  | fuel + 1, c =>
    if c.atDocumentSign then none
    else
      let after := c.skipWhile fun d => d == ' ' || d == '\t'
      match after.peek with
      | some d =>
        if isBreak d then
          (quotedBreaks fuel after.next).map fun (text, behind) => (breakText d ++ text, behind)
        else some ([], after)
      | none => some ([], after)

/-- The character that an escape stands for. -/
def escaped? (c : Char) : Option Char :=
  [('0', '\x00'), ('a', '\x07'), ('b', '\x08'), ('t', '\t'), ('\t', '\t'), ('n', '\n'),
    ('v', '\x0b'), ('f', '\x0c'), ('r', '\r'), ('e', '\x1b'), (' ', ' '), ('"', '"'),
    ('\\', '\\'), ('/', '/'), ('N', '\u0085'), ('_', '\u00a0'), ('L', '\u2028'),
    ('P', '\u2029')].lookup c

/-- The number of hexadecimal digits after an escape. -/
def escapeWidth? (c : Char) : Option Nat := [('x', 2), ('u', 4), ('U', 8)].lookup c

/-- The text up to the closing quote and the cursor behind it. -/
def quotedScalar (double : Bool) : Nat → Cursor → Option (List Char × Cursor)
  | 0, _ => none
  | fuel + 1, c =>
    match c.peek with
    | none => none
    | some d =>
      let plain (text : List Char) (after : Cursor) :=
        (quotedScalar double fuel after).map fun (more, behind) => (text ++ more, behind)
      if d == ' ' || d == '\t' then
        let spaces := c.rest.takeWhile fun e => e == ' ' || e == '\t'
        let after := c.skip spaces.length
        match after.peek with
        | none => none
        | some e =>
          if isBreak e then
            match quotedBreaks after.rest.length after.next with
            | some (others, behind) => plain (foldedBreaks e others) behind
            | none => none
          else plain spaces after
      else if isBreak d then
        match quotedBreaks c.rest.length c.next with
        | some (others, behind) => plain (foldedBreaks d others) behind
        | none => none
      else if !double && d == '\x27' then
        if c.peekAt 1 == some '\x27' then plain ['\x27'] (c.skip 2) else some ([], c.next)
      else if double && d == '"' then some ([], c.next)
      else if double && d == '\\' then
        match c.next.peek with
        | none => none
        | some e =>
          match escaped? e, escapeWidth? e with
          | some text, _ => plain [text] (c.skip 2)
          | none, some width =>
            let digits := (c.rest.drop 2).take width
            if digits.length == width && digits.all isHexDigit then
              plain [Char.ofNat (inBase 16 digits)] (c.skip (2 + width))
            else none
          | none, none =>
            if isBreak e then
              match quotedBreaks c.rest.length (c.skip 2) with
              | some (others, behind) => plain others behind
              | none => none
            else none
      else plain [d] c.next

end Placement.Yaml
