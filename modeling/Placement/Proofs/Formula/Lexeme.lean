import Placement.Proofs.Formula.Nesting

namespace Placement

/-- The first character, if there is one, is not of a class. -/
def HeadNot (p : Char → Bool) (text : List Char) : Prop := ∀ c, text.head? = some c → p c = false

/-- One character of a class, then any number of another. -/
def IsWord (first others : Char → Bool) (text : List Char) : Prop :=
  ∃ c rest, text = c :: rest ∧ first c = true ∧ ∀ d ∈ rest, others d = true

namespace HeadNot

variable {p q : Char → Bool} {c : Char} {text other : List Char}

theorem nil : HeadNot p [] := by
  intro c atHead
  cases atHead

theorem cons (no : p c = false) (rest : List Char) : HeadNot p (c :: rest) := by
  intro d atHead
  cases atHead
  exact no

theorem of_cons {rest : List Char} (stop : HeadNot p (c :: rest)) : p c = false := stop c rfl

theorem mono (stop : HeadNot q text) (weaker : ∀ c, q c = false → p c = false) : HeadNot p text :=
  fun c atHead => weaker c (stop c atHead)

/-- What follows a text counts only where the text is empty. -/
theorem append (stop : HeadNot p text) (behind : HeadNot p other) : HeadNot p (text ++ other) := by
  cases text with
  | nil => exact behind
  | cons c rest => exact cons stop.of_cons _

theorem append_of_ne_nil (stop : HeadNot p text) (some : text ≠ []) (other : List Char) :
    HeadNot p (text ++ other) := by
  obtain ⟨c, rest, rfl⟩ := List.exists_cons_of_ne_nil some
  exact cons stop.of_cons _

theorem of_append (stop : HeadNot p (text ++ other)) : HeadNot p text := by
  cases text with
  | nil => exact nil
  | cons c rest => exact cons stop.of_cons rest

theorem dropWhile (p : Char → Bool) (text : List Char) : HeadNot p (text.dropWhile p) := by
  intro c atHead
  have stop := List.head?_dropWhile_not p text
  rw [atHead] at stop
  exact stop

theorem takeWhile_append (stop : HeadNot p other) (all : ∀ c ∈ text, p c = true) :
    (text ++ other).takeWhile p = text := by
  rw [List.takeWhile_append_of_pos all]
  cases other with
  | nil => simp
  | cons c rest => simp [stop.of_cons]

theorem dropWhile_append (stop : HeadNot p other) (all : ∀ c ∈ text, p c = true) :
    (text ++ other).dropWhile p = other := by
  rw [List.dropWhile_append_of_pos all]
  cases other with
  | nil => rfl
  | cons c rest => simp [stop.of_cons]

end HeadNot

namespace IsWord

variable {first others : Char → Bool} {text : List Char}

theorem ne_nil (word : IsWord first others text) : text ≠ [] := by
  obtain ⟨c, rest, rfl, _⟩ := word
  exact List.cons_ne_nil c rest

theorem head (word : IsWord first others text) {c : Char} (atHead : text.head? = some c) :
    first c = true := by
  obtain ⟨d, rest, rfl, atFirst, _⟩ := word
  cases atHead
  exact atFirst

theorem all (word : IsWord first others text) (wider : ∀ c, first c = true → others c = true) :
    ∀ c ∈ text, others c = true := by
  obtain ⟨c, rest, rfl, atFirst, atRest⟩ := word
  intro d member
  rcases List.mem_cons.mp member with rfl | inRest
  · exact wider d atFirst
  · exact atRest d inRest

theorem takeWhile {c : Char} (rest : List Char) (atFirst : first c = true)
    (wider : ∀ c, first c = true → others c = true) :
    IsWord first others ((c :: rest).takeWhile others) := by
  refine ⟨c, rest.takeWhile others, List.takeWhile_cons_of_pos (wider c atFirst), atFirst, ?_⟩
  intro d member
  exact List.all_eq_true.mp (List.all_takeWhile (l := rest)) d member

end IsWord

theorem isNumberChar_of_isDigit (c : Char) (digit : c.isDigit = true) : isNumberChar c = true := by
  simp [isNumberChar, digit]

theorem isNameChar_of_isLower (c : Char) (lower : c.isLower = true) : isNameChar c = true := by
  simp [isNameChar, lower]

theorem isConstantChar_of_isUpper (c : Char) (upper : c.isUpper = true) :
    isConstantChar c = true := by
  simp [isConstantChar, upper]

/-- The characters that can make a lexeme longer, or a variable into a call. -/
def continues (c : Char) : Bool := isNumberChar c || isNameChar c || isConstantChar c || c == '('

theorem continues_eq_false_of_isSpace {c : Char} (space : isSpace c = true) :
    continues c = false := by
  simp only [isSpace, Bool.or_eq_true, beq_iff_eq] at space
  rcases space with ((rfl | rfl) | rfl) | rfl <;> rfl

theorem isLower_eq_false_of_isSpace {c : Char} (space : isSpace c = true) : c.isLower = false := by
  simp only [isSpace, Bool.or_eq_true, beq_iff_eq] at space
  rcases space with ((rfl | rfl) | rfl) | rfl <;> rfl

namespace Token

/-- The lexemes of each kind. -/
def Valid : Token → Prop
  | number digits => IsWord Char.isDigit isNumberChar digits ∧ digits.count '.' ≤ 1
  | identifier name => IsWord Char.isLower isNameChar name.toList
  | constant name => IsWord Char.isUpper isConstantChar name.toList
  | call name arguments => IsWord Char.isLower isNameChar name.toList ∧ Balanced arguments
  | _ => True

/-- The text after a token does not make it longer. -/
def Ends : Token → List Char → Prop
  | number _, after => HeadNot isNumberChar after
  | identifier _, after => HeadNot (fun c => isNameChar c || c == '(') after
  | constant _, after => HeadNot isConstantChar after
  | _, _ => True

theorem Ends.of_headNot {token : Token} {after : List Char} (stop : HeadNot continues after) :
    token.Ends after := by
  cases token with
  | number | identifier | constant =>
    refine stop.mono fun c no => ?_
    simp only [continues, Bool.or_eq_false_iff] at no
    simp only [no, Bool.or_self]
  | call | operator | leftParen | rightParen | comma => exact trivial

/-- Of the text after a token, only the first character counts. -/
theorem Ends.of_cons {token : Token} {c : Char} {rest : List Char} (ends : token.Ends (c :: rest))
    (others : List Char) : token.Ends (c :: others) := by
  cases token with
  | number | identifier | constant => exact HeadNot.cons (HeadNot.of_cons ends) others
  | call | operator | leftParen | rightParen | comma => exact trivial

theorem Ends.append {token : Token} {text other : List Char} (ends : token.Ends text)
    (stop : HeadNot continues other) : token.Ends (text ++ other) := by
  have behind : token.Ends other := .of_headNot stop
  cases token with
  | number | identifier | constant => exact HeadNot.append ends behind
  | call | operator | leftParen | rightParen | comma => exact trivial

end Token

theorem ne_of_class {p : Char → Bool} {c d : Char} (inside : p c = true) (outside : p d = false) :
    c ≠ d := by
  rintro rfl
  rw [inside] at outside
  cases outside

theorem ofSymbol?_eq_none {p : Char → Bool} {c : Char} (inside : p c = true)
    (outside : ∀ op : Operator, p op.symbol = false) : Operator.ofSymbol? c = none := by
  rw [Option.eq_none_iff_forall_ne_some]
  intro op found
  exact ne_of_class inside (outside op) (Operator.ofSymbol?_eq_some_iff.mp found)

theorem toNat_of_isDigit {c : Char} (digit : c.isDigit = true) : 48 ≤ c.toNat ∧ c.toNat ≤ 57 := by
  obtain ⟨low, high⟩ := Bool.and_eq_true_iff.mp digit
  exact ⟨UInt32.le_iff_toNat_le.mp (of_decide_eq_true low),
    UInt32.le_iff_toNat_le.mp (of_decide_eq_true high)⟩

theorem toNat_of_isLower {c : Char} (lower : c.isLower = true) :
    97 ≤ c.toNat ∧ c.toNat ≤ 122 := by
  obtain ⟨low, high⟩ := Bool.and_eq_true_iff.mp lower
  exact ⟨UInt32.le_iff_toNat_le.mp (of_decide_eq_true low),
    UInt32.le_iff_toNat_le.mp (of_decide_eq_true high)⟩

theorem toNat_of_isUpper {c : Char} (upper : c.isUpper = true) : 65 ≤ c.toNat ∧ c.toNat ≤ 90 := by
  obtain ⟨low, high⟩ := of_decide_eq_true upper
  exact ⟨UInt32.le_iff_toNat_le.mp low, UInt32.le_iff_toNat_le.mp high⟩

theorem readToken_digit {c : Char} (digit : c.isDigit = true) (rest : List Char) :
    readToken c rest = readNumber (c :: rest) := by
  have noSymbol := ofSymbol?_eq_none digit fun op => by cases op <;> decide
  have other {d : Char} : d.isDigit = false → c ≠ d := ne_of_class digit
  simp only [readToken, noSymbol, if_neg (other (d := '(') rfl), if_neg (other (d := ')') rfl),
    if_neg (other (d := ',') rfl), digit, if_true]

theorem readToken_lower {c : Char} (lower : c.isLower = true) (rest : List Char) :
    readToken c rest = readName (c :: rest) := by
  have noSymbol := ofSymbol?_eq_none lower fun op => by cases op <;> decide
  have other {d : Char} : d.isLower = false → c ≠ d := ne_of_class lower
  have range := toNat_of_isLower lower
  have noDigit : c.isDigit = false := by
    refine Bool.eq_false_iff.mpr fun digit => ?_
    have := toNat_of_isDigit digit
    omega
  simp only [readToken, noSymbol, if_neg (other (d := '(') rfl), if_neg (other (d := ')') rfl),
    if_neg (other (d := ',') rfl), noDigit, lower, if_true, Bool.false_eq_true, if_false]

theorem readToken_upper {c : Char} (upper : c.isUpper = true) (rest : List Char) :
    readToken c rest = readConstant (c :: rest) := by
  have noSymbol := ofSymbol?_eq_none upper fun op => by cases op <;> decide
  have other {d : Char} : d.isUpper = false → c ≠ d := ne_of_class upper
  have range := toNat_of_isUpper upper
  have noDigit : c.isDigit = false := by
    refine Bool.eq_false_iff.mpr fun digit => ?_
    have := toNat_of_isDigit digit
    omega
  have noLower : c.isLower = false := by
    refine Bool.eq_false_iff.mpr fun lower => ?_
    have := toNat_of_isLower lower
    omega
  simp only [readToken, noSymbol, if_neg (other (d := '(') rfl), if_neg (other (d := ')') rfl),
    if_neg (other (d := ',') rfl), noDigit, noLower, upper, if_true, Bool.false_eq_true, if_false]

theorem readNumber_sound {c : Char} {rest after : List Char} {token : Token}
    (digit : c.isDigit = true) (read : readNumber (c :: rest) = .ok (token, after)) :
    token.Valid ∧ token.Ends after := by
  unfold readNumber at read
  dsimp only at read
  split at read <;> cases read
  rename_i points
  exact ⟨⟨.takeWhile rest digit isNumberChar_of_isDigit, Nat.not_lt.mp points⟩, .dropWhile _ _⟩

theorem readName_sound {c : Char} {rest after : List Char} {token : Token}
    (lower : c.isLower = true) (read : readName (c :: rest) = .ok (token, after)) :
    token.Valid ∧ token.Ends after := by
  have word := IsWord.takeWhile rest lower isNameChar_of_isLower
  unfold readName at read
  dsimp only at read
  split at read
  · split at read <;> cases read
    rename_i found
    refine ⟨⟨?_, (untilClose_eq_some_iff.mp found).2⟩, trivial⟩
    simpa only [String.toList_ofList] using word
  · rename_i noCall
    cases read
    refine ⟨by simpa only [Token.Valid, String.toList_ofList] using word, ?_⟩
    intro d atHead
    have noName := HeadNot.dropWhile isNameChar (c :: rest) d atHead
    simp only [noName, Bool.false_or, beq_eq_false_iff_ne]
    rintro rfl
    obtain ⟨behind, same⟩ := List.head?_eq_some_iff.mp atHead
    exact noCall behind same

theorem readConstant_sound {c : Char} {rest after : List Char} {token : Token}
    (upper : c.isUpper = true) (read : readConstant (c :: rest) = .ok (token, after)) :
    token.Valid ∧ token.Ends after := by
  have word := IsWord.takeWhile rest upper isConstantChar_of_isUpper
  cases read
  exact ⟨by simpa only [Token.Valid, String.toList_ofList] using word, .dropWhile _ _⟩

/-- A token that was read is well formed, and no longer one begins where it does. -/
theorem readToken_sound {c : Char} {rest after : List Char} {token : Token}
    (read : readToken c rest = .ok (token, after)) : token.Valid ∧ token.Ends after := by
  unfold readToken at read
  split at read
  · cases read
    exact ⟨trivial, trivial⟩
  · split at read
    · cases read
      exact ⟨trivial, trivial⟩
    split at read
    · cases read
      exact ⟨trivial, trivial⟩
    split at read
    · cases read
      exact ⟨trivial, trivial⟩
    split at read
    · exact readNumber_sound (by assumption) read
    split at read
    · exact readName_sound (by assumption) read
    split at read
    · exact readConstant_sound (by assumption) read
    · cases read

theorem readNumber_lexeme {digits after : List Char} (all : ∀ c ∈ digits, isNumberChar c = true)
    (points : digits.count '.' ≤ 1) (stop : HeadNot isNumberChar after) :
    readNumber (digits ++ after) = .ok (.number digits, after) := by
  simp only [readNumber, stop.takeWhile_append all, stop.dropWhile_append all,
    if_neg (Nat.not_lt.mpr points)]

theorem readName_identifier {name : String} {after : List Char}
    (all : ∀ c ∈ name.toList, isNameChar c = true)
    (stop : HeadNot (fun c => isNameChar c || c == '(') after) :
    readName (name.toList ++ after) = .ok (.identifier name, after) := by
  have noName : HeadNot isNameChar after := stop.mono fun c no => (Bool.or_eq_false_iff.mp no).1
  simp only [readName, noName.takeWhile_append all, noName.dropWhile_append all]
  split
  · have paren := stop.of_cons
    simp at paren
  · rw [String.ofList_toList]

theorem readName_call {name : String} {arguments : List Char}
    (all : ∀ c ∈ name.toList, isNameChar c = true) (balanced : Balanced arguments)
    (after : List Char) :
    readName (name.toList ++ '(' :: (arguments ++ ')' :: after)) =
      .ok (.call name arguments, after) := by
  have noName : HeadNot isNameChar ('(' :: (arguments ++ ')' :: after)) := .cons rfl _
  have close := untilClose_append_close balanced after
  simp only [readName, noName.takeWhile_append all, noName.dropWhile_append all, close,
    String.ofList_toList]

theorem readConstant_lexeme {name : String} {after : List Char}
    (all : ∀ c ∈ name.toList, isConstantChar c = true) (stop : HeadNot isConstantChar after) :
    readConstant (name.toList ++ after) = .ok (.constant name, after) := by
  simp only [readConstant, stop.takeWhile_append all, stop.dropWhile_append all,
    String.ofList_toList]

/-- The token at the start of a text is the one whose well-formed lexeme stands there, with
nothing behind it that would make it longer. -/
theorem readToken_eq_ok_iff {c : Char} {rest after : List Char} {token : Token} :
    readToken c rest = .ok (token, after) ↔
      token.lexeme ++ after = c :: rest ∧ token.Valid ∧ token.Ends after := by
  constructor
  · intro read
    exact ⟨readToken_append read, readToken_sound read⟩
  · rintro ⟨text, valid, ends⟩
    cases token with
    | operator op =>
      obtain ⟨rfl, rfl⟩ := List.cons.inj text
      simp only [readToken, Operator.ofSymbol?_symbol]
      rfl
    | leftParen | rightParen | comma =>
      cases text
      rfl
    | number digits =>
      obtain ⟨word, points⟩ := valid
      have read := readNumber_lexeme (word.all isNumberChar_of_isDigit) points ends
      obtain ⟨first, others, rfl, digit, _⟩ := word
      cases text
      rw [readToken_digit digit]
      exact read
    | identifier name =>
      have read := readName_identifier (valid.all isNameChar_of_isLower) ends
      obtain ⟨first, others, atName, lower, _⟩ := valid
      simp only [Token.lexeme, atName, List.cons_append, List.cons.injEq] at text read
      rw [← text.1, ← text.2, readToken_lower lower]
      exact read
    | constant name =>
      have read := readConstant_lexeme (valid.all isConstantChar_of_isUpper) ends
      obtain ⟨first, others, atName, upper, _⟩ := valid
      simp only [Token.lexeme, atName, List.cons_append, List.cons.injEq] at text read
      rw [← text.1, ← text.2, readToken_upper upper]
      exact read
    | call name arguments =>
      obtain ⟨word, balanced⟩ := valid
      have read := readName_call (word.all isNameChar_of_isLower) balanced after
      obtain ⟨first, others, atName, lower, _⟩ := word
      simp only [Token.lexeme, atName, List.cons_append, List.append_assoc, List.nil_append,
        List.cons.injEq] at text read
      rw [← text.1, ← text.2, readToken_lower lower]
      exact read

theorem isPlain_of_class {p : Char → Bool} {text : List Char} (inside : ∀ c ∈ text, p c = true)
    (noOpen : p '(' = false) (noClose : p ')' = false) : ∀ c ∈ text, IsPlain c :=
  fun c member => ⟨ne_of_class (inside c member) noOpen, ne_of_class (inside c member) noClose⟩

theorem balanced_of_spaces {gap : List Char} (spaces : ∀ c ∈ gap, isSpace c = true) :
    Balanced gap :=
  openAfter_of_plain (isPlain_of_class spaces rfl rfl) 0

/-- Only parentheses of their own open and close anything. A call closes what it opens. -/
theorem Token.Valid.openAfter {token : Token} (valid : token.Valid) (noOpen : token ≠ .leftParen)
    (noClose : token ≠ .rightParen) (depth : Nat) : openAfter depth token.lexeme = some depth := by
  cases token with
  | number digits =>
    exact openAfter_of_plain
      (isPlain_of_class (valid.1.all isNumberChar_of_isDigit) rfl rfl) depth
  | identifier name =>
    exact openAfter_of_plain
      (isPlain_of_class (IsWord.all valid isNameChar_of_isLower) rfl rfl) depth
  | constant name =>
    exact openAfter_of_plain
      (isPlain_of_class (IsWord.all valid isConstantChar_of_isUpper) rfl rfl) depth
  | call name arguments =>
    have atName := openAfter_of_plain
      (isPlain_of_class (valid.1.all isNameChar_of_isLower) rfl rfl) depth
    simp only [Token.lexeme, List.append_assoc, List.singleton_append, openAfter_append, atName,
      Option.bind_some, openAfter_open, valid.2.openAfter, openAfter_succ_close]
    rfl
  | operator op => cases op <;> rfl
  | leftParen => exact absurd rfl noOpen
  | rightParen => exact absurd rfl noClose
  | comma => rfl

theorem isBlank_of_isSpace {c : Char} (space : isSpace c = true) : isBlank c = true := by
  simp only [isSpace, Bool.or_eq_true, beq_iff_eq] at space
  rcases space with ((rfl | rfl) | rfl) | rfl <;> rfl

theorem isBlank_eq_false {c : Char} (low : 33 ≤ c.toNat) (high : c.toNat ≤ 126) :
    isBlank c = false := by
  simp only [isBlank, isWhite, Bool.or_eq_false_iff, Bool.and_eq_false_iff, decide_eq_false_iff_not,
    beq_eq_false_iff_ne]
  omega

/-- No lexeme is blank. -/
theorem Token.Valid.exists_not_blank {token : Token} (valid : token.Valid) :
    ∃ c ∈ token.lexeme, isBlank c = false := by
  have ofWord {text : List Char} {first others : Char → Bool} (word : IsWord first others text)
      (range : ∀ c, first c = true → 33 ≤ c.toNat ∧ c.toNat ≤ 126) :
      ∃ c ∈ text, isBlank c = false := by
    obtain ⟨c, rest, rfl, atFirst, _⟩ := word
    obtain ⟨low, high⟩ := range c atFirst
    exact ⟨c, List.mem_cons_self, isBlank_eq_false low high⟩
  cases token with
  | number digits =>
    exact ofWord valid.1 fun c digit => by have := toNat_of_isDigit digit; omega
  | identifier name =>
    exact ofWord valid fun c lower => by have := toNat_of_isLower lower; omega
  | constant name =>
    exact ofWord valid fun c upper => by have := toNat_of_isUpper upper; omega
  | call name arguments =>
    exact ⟨'(', by simp [Token.lexeme], rfl⟩
  | operator op => exact ⟨op.symbol, List.mem_cons_self, by cases op <;> rfl⟩
  | leftParen | rightParen | comma => exact ⟨_, List.mem_cons_self, rfl⟩

/-- A text cut into tokens. Nothing but space stands between them. -/
inductive Lexes : List Char → List Token → Prop
  | nil : Lexes [] []
  | space {c : Char} {rest : List Char} {tokens : List Token} :
      isSpace c = true → Lexes rest tokens → Lexes (c :: rest) tokens
  | token {token : Token} {rest : List Char} {tokens : List Token} :
      token.Valid → token.Ends rest → Lexes rest tokens →
      Lexes (token.lexeme ++ rest) (token :: tokens)

theorem readToken_space {c : Char} (space : isSpace c = true) (rest : List Char) :
    readToken c rest = .error (.unexpectedCharacter c, 0) := by
  simp only [isSpace, Bool.or_eq_true, beq_iff_eq] at space
  rcases space with ((rfl | rfl) | rfl) | rfl <;> rfl

theorem not_isSpace_of_readToken {c : Char} {rest : List Char} {found : Token × List Char}
    (read : readToken c rest = .ok found) : ¬ isSpace c = true := by
  intro space
  rw [readToken_space space] at read
  cases read

theorem Token.Valid.lexeme_ne_nil {token : Token} (valid : token.Valid) : token.lexeme ≠ [] := by
  cases token with
  | number digits => exact valid.1.ne_nil
  | identifier name | constant name => exact IsWord.ne_nil valid
  | call name arguments => simp [Token.lexeme]
  | operator | leftParen | rightParen | comma => exact List.cons_ne_nil _ _

theorem scanFrom_space {c : Char} (space : isSpace c = true) (position : Nat) (rest : List Char) :
    scanFrom position (c :: rest) = scanFrom (position + 1) rest := by
  rw [scanFrom, if_pos space]

theorem scanFrom_spaces {gap : List Char} (spaces : ∀ c ∈ gap, isSpace c = true) (position : Nat)
    (rest : List Char) : scanFrom position (gap ++ rest) = scanFrom (position + gap.length) rest := by
  induction gap generalizing position with
  | nil => rfl
  | cons c gap ih =>
    obtain ⟨space, spaces⟩ := List.forall_mem_cons.mp spaces
    rw [List.cons_append, scanFrom_space space, ih spaces, List.length_cons, Nat.add_assoc,
      Nat.add_comm 1]

theorem scanFrom_error {c : Char} {rest : List Char} {cause : LexicalError} {offset : Nat}
    (noSpace : ¬ isSpace c = true) (read : readToken c rest = .error (cause, offset))
    (position : Nat) : scanFrom position (c :: rest) =
      ⟨[], .error (.lexical cause (position + offset))⟩ := by
  rw [scanFrom, if_neg noSpace]
  split
  · rename_i other
    rw [read] at other
    cases other
    rfl
  · rename_i other
    rw [read] at other
    cases other

/-- A well-formed lexeme that ends where it ends is scanned as its token. -/
theorem scanFrom_lexeme {token : Token} {rest : List Char} (valid : token.Valid)
    (ends : token.Ends rest) (position : Nat) :
    scanFrom position (token.lexeme ++ rest) =
      ⟨⟨token, position⟩ :: (scanFrom (position + token.lexeme.length) rest).tokens,
        (scanFrom (position + token.lexeme.length) rest).ending⟩ := by
  obtain ⟨c, behind, text⟩ := List.exists_cons_of_ne_nil
    (List.append_ne_nil_of_left_ne_nil valid.lexeme_ne_nil rest)
  have read := readToken_eq_ok_iff.mpr ⟨text, valid, ends⟩
  rw [text, scanFrom, if_neg (not_isSpace_of_readToken read)]
  split
  · rename_i other
    rw [read] at other
    cases other
  · rename_i other
    rw [read] at other
    cases other
    rfl

/-- Every token that is scanned, also in front of an error, stands in the text at its position. -/
theorem mem_scanFrom {position : Nat} {text : List Char} {placed : Placed}
    (member : placed ∈ (scanFrom position text).tokens) : placed.token.Valid ∧
      ∃ before after, text = before ++ (placed.token.lexeme ++ after) ∧
        placed.position = position + before.length := by
  induction position, text using scanFrom.induct with
  | case1 position =>
    rw [scanFrom] at member
    cases member
  | case2 position c rest space ih =>
    rw [scanFrom_space space] at member
    obtain ⟨valid, before, after, split, place⟩ := ih member
    exact ⟨valid, c :: before, after, congrArg _ split, by rw [place, List.length_cons]; omega⟩
  | case3 position c rest noSpace cause offset read =>
    rw [scanFrom_error noSpace read] at member
    cases member
  | case4 position c rest noSpace token after read ih =>
    obtain ⟨text, valid, ends⟩ := readToken_eq_ok_iff.mp read
    rw [← text, scanFrom_lexeme valid ends] at member
    rw [← text]
    rcases List.mem_cons.mp member with rfl | inRest
    · exact ⟨valid, [], after, rfl, rfl⟩
    · obtain ⟨validOther, before, behind, split, place⟩ := ih inRest
      exact ⟨validOther, token.lexeme ++ before, behind, by rw [split, List.append_assoc],
        by rw [place, List.length_append, Nat.add_assoc]⟩

theorem Lexes.scanFrom {text : List Char} {tokens : List Token} (lexes : Lexes text tokens)
    (position : Nat) :
    (∃ ending, (scanFrom position text).ending = .ok ending) ∧
      (scanFrom position text).tokens.map Placed.token = tokens := by
  induction lexes generalizing position with
  | nil =>
    rw [Placement.scanFrom]
    exact ⟨⟨position, rfl⟩, rfl⟩
  | space space _ ih =>
    rw [scanFrom_space space]
    exact ih _
  | @token token rest tokens valid ends _ ih =>
    rw [scanFrom_lexeme valid ends]
    obtain ⟨ending, same⟩ := ih (position + token.lexeme.length)
    exact ⟨ending, by rw [List.map_cons, same]⟩

theorem lexes_of_scanFrom {position ending : Nat} {text : List Char}
    (scanned : (scanFrom position text).ending = .ok ending) :
    Lexes text ((scanFrom position text).tokens.map Placed.token) := by
  induction position, text using scanFrom.induct with
  | case1 position =>
    rw [scanFrom]
    exact .nil
  | case2 position c rest space ih =>
    rw [scanFrom_space space] at scanned ⊢
    exact .space space (ih scanned)
  | case3 position c rest noSpace cause offset read =>
    rw [scanFrom_error noSpace read] at scanned
    cases scanned
  | case4 position c rest noSpace token after read ih =>
    obtain ⟨text, valid, ends⟩ := readToken_eq_ok_iff.mp read
    rw [← text, scanFrom_lexeme valid ends] at scanned ⊢
    exact .token valid ends (ih scanned)

namespace Lexes

variable {text other : List Char} {tokens more : List Token}

theorem operator (op : Operator) (lexes : Lexes text tokens) :
    Lexes (op.symbol :: text) (.operator op :: tokens) :=
  @Lexes.token (.operator op) text tokens trivial trivial lexes

theorem leftParen (lexes : Lexes text tokens) : Lexes ('(' :: text) (.leftParen :: tokens) :=
  @Lexes.token .leftParen text tokens trivial trivial lexes

theorem rightParen (lexes : Lexes text tokens) : Lexes (')' :: text) (.rightParen :: tokens) :=
  @Lexes.token .rightParen text tokens trivial trivial lexes

theorem comma (lexes : Lexes text tokens) : Lexes (',' :: text) (.comma :: tokens) :=
  @Lexes.token .comma text tokens trivial trivial lexes

/-- A text has only one sequence of tokens. -/
theorem unique (lexes : Lexes text tokens) (again : Lexes text more) : tokens = more :=
  (lexes.scanFrom 0).2.symm.trans (again.scanFrom 0).2

/-- Two texts can be cut apart where the second does not make a lexeme of the first longer. -/
theorem append (lexes : Lexes text tokens) (stop : HeadNot continues other)
    (behind : Lexes other more) : Lexes (text ++ other) (tokens ++ more) := by
  induction lexes with
  | nil => exact behind
  | space space _ ih => exact .space space ih
  | token valid ends _ ih =>
    rw [List.append_assoc]
    exact .token valid (ends.append stop) ih

theorem spaces {gap : List Char} (space : ∀ c ∈ gap, isSpace c = true)
    (lexes : Lexes text tokens) : Lexes (gap ++ text) tokens := by
  induction gap with
  | nil => exact lexes
  | cons c rest ih =>
    exact .space (space c List.mem_cons_self) (ih fun d member =>
      space d (List.mem_cons_of_mem c member))

theorem openAfter_lexemes (lexes : Lexes text tokens) (depth : Nat) :
    openAfter depth text = openAfter depth (tokens.flatMap Token.lexeme) := by
  induction lexes generalizing depth with
  | nil => rfl
  | space space _ ih =>
    have plain : IsPlain _ := ⟨ne_of_class space rfl, ne_of_class space rfl⟩
    rw [openAfter_plain plain, ih]
  | token _ _ _ ih =>
    rw [List.flatMap_cons, openAfter_append, openAfter_append]
    exact congrArg _ (funext ih)

/-- A text with a token is not blank. -/
theorem not_blank (lexes : Lexes text tokens) (some : tokens ≠ []) :
    text.all isBlank = false := by
  induction lexes with
  | nil => exact absurd rfl some
  | space _ _ ih => rw [List.all_cons, ih some, Bool.and_false]
  | token valid _ _ _ =>
    obtain ⟨c, member, written⟩ := valid.exists_not_blank
    rw [List.all_append, List.all_eq_false.mpr ⟨c, member, by simp [written]⟩, Bool.false_and]

theorem valid (lexes : Lexes text tokens) : ∀ token ∈ tokens, token.Valid := by
  induction lexes with
  | nil => simp
  | space _ _ ih => exact ih
  | token valid _ _ ih =>
    intro other member
    rcases List.mem_cons.mp member with rfl | inRest
    · exact valid
    · exact ih other inRest

end Lexes

end Placement
