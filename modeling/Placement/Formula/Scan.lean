import Placement.Formula.Error
import Placement.Formula.Token

/-!
Text cut into tokens from left to right. The longest lexeme is taken each time, and nothing
but space is left out.
-/

namespace Placement

/-- The text before the parenthesis that closes the one already open, and the text after it.
Of the parentheses opened since, `depth` are still open. -/
def untilClose : Nat → List Char → Option (List Char × List Char)
  | _, [] => none
  | depth, c :: rest =>
    if c = '(' then (untilClose (depth + 1) rest).map fun found => (c :: found.1, found.2)
    else if c = ')' then
      match depth with
      | 0 => some ([], rest)
      | outer + 1 => (untilClose outer rest).map fun found => (c :: found.1, found.2)
    else (untilClose depth rest).map fun found => (c :: found.1, found.2)

/-- The result of reading one token: the text after it, or an error and how far behind the
start it stands. -/
abbrev TokenRead := Except (LexicalError × Nat) (Token × List Char)

/-- A number, read from its first digit on. -/
def readNumber (text : List Char) : TokenRead :=
  let digits := text.takeWhile isNumberChar
  if 1 < digits.count '.' then .error (.malformedNumber digits, 0)
  else .ok (.number digits, text.dropWhile isNumberChar)

/-- A variable, or a call if a parenthesis follows the name at once. -/
def readName (text : List Char) : TokenRead :=
  let name := text.takeWhile isNameChar
  match text.dropWhile isNameChar with
  | '(' :: rest =>
    match untilClose 0 rest with
    | some (arguments, after) => .ok (.call (String.ofList name) arguments, after)
    | none => .error (.unmatchedCall (String.ofList name), name.length)
  | rest => .ok (.identifier (String.ofList name), rest)

def readConstant (text : List Char) : TokenRead :=
  .ok (.constant (String.ofList (text.takeWhile isConstantChar)), text.dropWhile isConstantChar)

/-- The token at the start of a text that begins with `c`, which is no space. -/
def readToken (c : Char) (rest : List Char) : TokenRead :=
  match Operator.ofSymbol? c with
  | some op => .ok (.operator op, rest)
  | none =>
    if c = '(' then .ok (.leftParen, rest)
    else if c = ')' then .ok (.rightParen, rest)
    else if c = ',' then .ok (.comma, rest)
    else if c.isDigit then readNumber (c :: rest)
    else if c.isLower then readName (c :: rest)
    else if c.isUpper then readConstant (c :: rest)
    else .error (.unexpectedCharacter c, 0)

theorem untilClose_append {depth : Nat} {text inside after : List Char}
    (found : untilClose depth text = some (inside, after)) : inside ++ [')'] ++ after = text := by
  induction text generalizing depth inside with
  | nil => simp [untilClose] at found
  | cons c rest ih =>
    have step {d : Nat} (h : (untilClose d rest).map (fun found => (c :: found.1, found.2)) =
        some (inside, after)) : inside ++ [')'] ++ after = c :: rest := by
      obtain ⟨⟨inner, behind⟩, atRest, same⟩ := Option.map_eq_some_iff.mp h
      cases same
      simpa using ih atRest
    unfold untilClose at found
    split at found
    · exact step found
    · split at found
      · rename_i close
        cases depth with
        | zero => cases found; simp [close]
        | succ outer => exact step found
      · exact step found

theorem readNumber_append {text after : List Char} {token : Token}
    (read : readNumber text = .ok (token, after)) : token.lexeme ++ after = text := by
  unfold readNumber at read
  dsimp only at read
  split at read <;> cases read
  exact List.takeWhile_append_dropWhile

theorem readName_append {text after : List Char} {token : Token}
    (read : readName text = .ok (token, after)) : token.lexeme ++ after = text := by
  have whole := List.takeWhile_append_dropWhile (p := isNameChar) (l := text)
  unfold readName at read
  dsimp only at read
  split at read
  · rename_i inner behind
    split at read <;> cases read
    rename_i arguments close
    rw [behind, ← untilClose_append close] at whole
    simpa [Token.lexeme] using whole
  · cases read
    simp [Token.lexeme]

theorem readConstant_append {text after : List Char} {token : Token}
    (read : readConstant text = .ok (token, after)) : token.lexeme ++ after = text := by
  cases read
  simp [Token.lexeme]

/-- A token's lexeme and the text after it are the text read. -/
theorem readToken_append {c : Char} {rest after : List Char} {token : Token}
    (read : readToken c rest = .ok (token, after)) : token.lexeme ++ after = c :: rest := by
  unfold readToken at read
  split at read
  · rename_i op isOp
    cases read
    simp [Token.lexeme, Operator.ofSymbol?_eq_some_iff.mp isOp]
  · split at read
    · cases read
      simp [Token.lexeme, *]
    split at read
    · cases read
      simp [Token.lexeme, *]
    split at read
    · cases read
      simp [Token.lexeme, *]
    split at read
    · exact readNumber_append read
    split at read
    · exact readName_append read
    split at read
    · exact readConstant_append read
    · cases read

theorem readNumber_ne_nil {c : Char} {rest after : List Char} {token : Token}
    (digit : c.isDigit = true) (read : readNumber (c :: rest) = .ok (token, after)) :
    token.lexeme ≠ [] := by
  unfold readNumber at read
  dsimp only at read
  split at read <;> cases read
  simp [Token.lexeme, isNumberChar, digit]

theorem readName_ne_nil {c : Char} {rest after : List Char} {token : Token}
    (lower : c.isLower = true) (read : readName (c :: rest) = .ok (token, after)) :
    token.lexeme ≠ [] := by
  unfold readName at read
  dsimp only at read
  split at read
  · split at read <;> cases read
    simp [Token.lexeme]
  · cases read
    simp [Token.lexeme, isNameChar, lower]

theorem readConstant_ne_nil {c : Char} {rest after : List Char} {token : Token}
    (upper : c.isUpper = true) (read : readConstant (c :: rest) = .ok (token, after)) :
    token.lexeme ≠ [] := by
  cases read
  simp [Token.lexeme, isConstantChar, upper]

/-- No lexeme is empty. -/
theorem readToken_ne_nil {c : Char} {rest after : List Char} {token : Token}
    (read : readToken c rest = .ok (token, after)) : token.lexeme ≠ [] := by
  unfold readToken at read
  split at read
  · cases read
    simp [Token.lexeme]
  · split at read
    · cases read
      simp [Token.lexeme]
    split at read
    · cases read
      simp [Token.lexeme]
    split at read
    · cases read
      simp [Token.lexeme]
    split at read
    · exact readNumber_ne_nil (by assumption) read
    split at read
    · exact readName_ne_nil (by assumption) read
    split at read
    · exact readConstant_ne_nil (by assumption) read
    · cases read

/-- Reading a token moves on. -/
theorem readToken_length {c : Char} {rest after : List Char} {token : Token}
    (read : readToken c rest = .ok (token, after)) : after.length < (c :: rest).length := by
  have positive := List.length_pos_iff.mpr (readToken_ne_nil read)
  rw [← readToken_append read, List.length_append]
  omega

/-- The tokens of a text, and how reading them ended: at the end of the text, whose position
is given, or with an error. -/
structure Scan where
  tokens : List Placed
  ending : Except FormulaError Nat

/-- Scans the text that begins at a position. -/
def scanFrom (position : Nat) : List Char → Scan
  | [] => ⟨[], .ok position⟩
  | c :: rest =>
    if isSpace c then scanFrom (position + 1) rest
    else
      match _read : readToken c rest with
      | .error (cause, offset) => ⟨[], .error (.lexical cause (position + offset))⟩
      | .ok (token, after) =>
        let behind := scanFrom (position + token.lexeme.length) after
        ⟨⟨token, position⟩ :: behind.tokens, behind.ending⟩
termination_by text => text.length
decreasing_by
  · simp
  · exact readToken_length _read

/-- Scans a whole text. -/
def scan (text : List Char) : Scan := scanFrom 0 text

end Placement
