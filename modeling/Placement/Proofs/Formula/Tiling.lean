import Placement.Proofs.Formula.Occurrence

namespace Placement

/-- Tokens that make up a text from a position on, with runs of space before, between and behind
them. What stands behind a lexeme, in the end the text `behind`, does not make it longer. -/
inductive Tiles (behind : List Char) : Nat → List Char → List Placed → Prop
  | last {position : Nat} {gap : List Char} :
      (∀ c ∈ gap, isSpace c = true) → Tiles behind position gap []
  | more {position : Nat} {gap rest : List Char} {token : Token} {placed : List Placed} :
      (∀ c ∈ gap, isSpace c = true) → token.Valid → token.Ends (rest ++ behind) →
      Tiles behind (position + gap.length + token.lexeme.length) rest placed →
      Tiles behind position (gap ++ (token.lexeme ++ rest))
        (⟨token, position + gap.length⟩ :: placed)

/-- No later parenthesis closes the one before the text. -/
def Unclosed (text : List Char) : Prop :=
  ∀ inside after, text = inside ++ ')' :: after → ¬ Balanced inside

/-- Text that no token can be read from, with the reason and how far behind the start it shows. -/
inductive Unreadable : List Char → LexicalError → Nat → Prop
  | character {c : Char} {rest : List Char} :
      (∀ token : Token, token.Valid → token.lexeme.head? ≠ some c) →
      Unreadable (c :: rest) (.unexpectedCharacter c) 0
  | number {digits after : List Char} : IsWord Char.isDigit isNumberChar digits →
      1 < digits.count '.' → HeadNot isNumberChar after →
      Unreadable (digits ++ after) (.malformedNumber digits) 0
  | call {name : String} {inner : List Char} : IsWord Char.isLower isNameChar name.toList →
      Unclosed inner → Unreadable (name.toList ++ '(' :: inner) (.unmatchedCall name)
        name.toList.length

/-- Text that lexemes and space cover, to its end or up to the error that the scan reports.
Of a call without its closing parenthesis the name is left out. -/
inductive Covered : List Char → Scan → Prop
  | whole {text : List Char} {tokens : List Placed} : Tiles [] 0 text tokens →
      Covered text ⟨tokens, .ok text.length⟩
  | stopped {front behind : List Char} {tokens : List Placed} {cause : LexicalError} :
      (∀ name, cause ≠ .unmatchedCall name) → Tiles behind 0 front tokens →
      Covered (front ++ behind) ⟨tokens, .error (.lexical cause front.length)⟩
  | unclosed {front inner : List Char} {tokens : List Placed} {name : String} :
      IsWord Char.isLower isNameChar name.toList → Unclosed inner →
      Tiles (name.toList ++ '(' :: inner) 0 front tokens →
      Covered (front ++ (name.toList ++ '(' :: inner))
        ⟨tokens, .error (.lexical (.unmatchedCall name) (front ++ name.toList).length)⟩

theorem forall_prefix_cons_iff {P : List Char → Prop} {c : Char} {rest : List Char} :
    (∀ before, before <+: c :: rest → P before) ↔
      P [] ∧ ∀ before, before <+: rest → P (c :: before) := by
  constructor
  · intro all
    exact ⟨all [] List.nil_prefix, fun before inRest =>
      all _ (List.cons_prefix_cons.mpr ⟨rfl, inRest⟩)⟩
  · rintro ⟨atNil, atCons⟩ before inText
    rcases List.prefix_cons_iff.mp inText with rfl | ⟨shorter, rfl, inRest⟩
    · exact atNil
    · exact atCons shorter inRest

theorem openAfter_eq_some_iff {depth behind : Nat} {text : List Char} :
    openAfter depth text = some behind ↔ depth + text.count '(' = behind + text.count ')' ∧
      ∀ before, before <+: text → before.count ')' ≤ depth + before.count '(' := by
  induction text generalizing depth with
  | nil => simp [openAfter]
  | cons c rest ih =>
    rw [forall_prefix_cons_iff]
    rcases paren_cases c with rfl | rfl | plain
    · have noClose : '(' ≠ ')' := by decide
      simp only [openAfter_open, ih, List.count_nil, List.count_cons_self,
        List.count_cons_of_ne noClose, Nat.zero_le, true_and, Nat.add_right_comm, Nat.add_assoc]
    · have noOpen : ')' ≠ '(' := by decide
      cases depth with
      | zero =>
        refine iff_of_false (fun closed => by cases closed) fun counts => ?_
        have atStart := counts.2.2 [] List.nil_prefix
        simp at atStart
      | succ outer =>
        simp only [openAfter_succ_close, ih, List.count_nil, List.count_cons_self,
          List.count_cons_of_ne noOpen, Nat.zero_le, true_and, Nat.add_right_comm outer 1,
          Nat.add_le_add_iff_right, ← Nat.add_assoc, Nat.add_right_cancel_iff]
    · simp only [openAfter_plain plain, ih, List.count_nil, List.count_cons_of_ne plain.1,
        List.count_cons_of_ne plain.2, Nat.zero_le, true_and]
theorem untilClose_eq_none_iff {text : List Char} : untilClose 0 text = none ↔ Unclosed text := by
  rw [Option.eq_none_iff_forall_ne_some]
  constructor
  · intro none inside after split balanced
    exact none (inside, after) (untilClose_eq_some_iff.mpr ⟨split, balanced⟩)
  · intro unclosed found close
    obtain ⟨split, balanced⟩ := untilClose_eq_some_iff.mp close
    exact unclosed _ _ split balanced

/-- The characters that no lexeme begins with. -/
theorem no_lexeme_iff {c : Char} :
    (∀ token : Token, token.Valid → token.lexeme.head? ≠ some c) ↔
      Operator.ofSymbol? c = none ∧ c ≠ '(' ∧ c ≠ ')' ∧ c ≠ ',' ∧
        ¬ c.isDigit = true ∧ ¬ c.isLower = true ∧ ¬ c.isUpper = true := by
  constructor
  · intro none
    have alone {first others : Char → Bool} (atFirst : first c = true) :
        IsWord first others [c] := ⟨c, [], rfl, atFirst, List.forall_mem_nil _⟩
    refine ⟨?_, ?_, ?_, ?_, fun digit => ?_, fun lower => ?_, fun upper => ?_⟩
    · rw [Option.eq_none_iff_forall_ne_some]
      intro op isOp
      exact none (.operator op) trivial
        (congrArg some (Operator.ofSymbol?_eq_some_iff.mp isOp).symm)
    · rintro rfl
      exact none .leftParen trivial rfl
    · rintro rfl
      exact none .rightParen trivial rfl
    · rintro rfl
      exact none .comma trivial rfl
    · exact none (.number [c]) ⟨alone digit, List.count_le_length⟩ rfl
    · exact none (.identifier (String.ofList [c])) (by simpa [Token.Valid] using alone lower)
        (by simp [Token.lexeme])
    · exact none (.constant (String.ofList [c])) (by simpa [Token.Valid] using alone upper)
        (by simp [Token.lexeme])
  · rintro ⟨noSymbol, noOpen, noClose, noComma, noDigit, noLower, noUpper⟩ token valid atHead
    cases token with
    | operator op =>
      rw [Operator.ofSymbol?_eq_some_iff.mpr (Option.some.inj atHead).symm] at noSymbol
      cases noSymbol
    | leftParen => exact noOpen (Option.some.inj atHead).symm
    | rightParen => exact noClose (Option.some.inj atHead).symm
    | comma => exact noComma (Option.some.inj atHead).symm
    | number digits => exact noDigit (valid.1.head atHead)
    | identifier name => exact noLower (IsWord.head valid atHead)
    | constant name => exact noUpper (IsWord.head valid atHead)
    | call name arguments =>
      obtain ⟨d, rest, same, lower, _⟩ := valid.1
      rw [Token.lexeme, same] at atHead
      cases atHead
      exact noLower lower

theorem readToken_character {c : Char} (rest : List Char)
    (none : ∀ token : Token, token.Valid → token.lexeme.head? ≠ some c) :
    readToken c rest = .error (.unexpectedCharacter c, 0) := by
  obtain ⟨noSymbol, noOpen, noClose, noComma, noDigit, noLower, noUpper⟩ := no_lexeme_iff.mp none
  simp only [readToken, noSymbol, if_neg noOpen, if_neg noClose, if_neg noComma, if_neg noDigit,
    if_neg noLower, if_neg noUpper]

theorem readNumber_eq_error {digits after : List Char} (all : ∀ c ∈ digits, isNumberChar c = true)
    (points : 1 < digits.count '.') (stop : HeadNot isNumberChar after) :
    readNumber (digits ++ after) = .error (.malformedNumber digits, 0) := by
  simp only [readNumber, stop.takeWhile_append all, stop.dropWhile_append all, if_pos points]

theorem readName_eq_error {name : String} {inner : List Char}
    (all : ∀ c ∈ name.toList, isNameChar c = true) (unclosed : Unclosed inner) :
    readName (name.toList ++ '(' :: inner) =
      .error (.unmatchedCall name, name.toList.length) := by
  have noName : HeadNot isNameChar ('(' :: inner) := .cons rfl _
  have none := untilClose_eq_none_iff.mpr unclosed
  simp only [readName, noName.takeWhile_append all, noName.dropWhile_append all, none,
    String.ofList_toList]

theorem Unreadable.of_readNumber {c : Char} {rest : List Char} {cause : LexicalError}
    {offset : Nat} (digit : c.isDigit = true)
    (read : readNumber (c :: rest) = .error (cause, offset)) :
    Unreadable (c :: rest) cause offset := by
  unfold readNumber at read
  dsimp only at read
  split at read <;> cases read
  rename_i points
  have unreadable := Unreadable.number (.takeWhile rest digit isNumberChar_of_isDigit) points
    (.dropWhile isNumberChar (c :: rest))
  rwa [List.takeWhile_append_dropWhile] at unreadable

theorem Unreadable.of_readName {c : Char} {rest : List Char} {cause : LexicalError}
    {offset : Nat} (lower : c.isLower = true)
    (read : readName (c :: rest) = .error (cause, offset)) :
    Unreadable (c :: rest) cause offset := by
  have word := IsWord.takeWhile rest lower isNameChar_of_isLower
  have whole := List.takeWhile_append_dropWhile (p := isNameChar) (l := c :: rest)
  unfold readName at read
  dsimp only at read
  split at read
  · rename_i inner behind
    split at read <;> cases read
    rename_i noClose
    rw [← String.toList_ofList (l := (c :: rest).takeWhile isNameChar)] at word
    have unreadable := Unreadable.call word (untilClose_eq_none_iff.mp noClose)
    rwa [String.toList_ofList, ← behind, whole] at unreadable
  · cases read

/-- No token is read where none of them begins. -/
theorem readToken_eq_error_iff {c : Char} {rest : List Char} {cause : LexicalError}
    {offset : Nat} :
    readToken c rest = .error (cause, offset) ↔ Unreadable (c :: rest) cause offset := by
  constructor
  · intro read
    unfold readToken at read
    split at read
    · cases read
    rename_i noSymbol
    split at read
    · cases read
    split at read
    · cases read
    split at read
    · cases read
    split at read
    · rename_i digit
      exact .of_readNumber digit read
    split at read
    · rename_i lower
      exact .of_readName lower read
    split at read <;> cases read
    exact .character (no_lexeme_iff.mpr ⟨noSymbol, by assumption, by assumption, by assumption,
      by assumption, by assumption, by assumption⟩)
  · intro unreadable
    generalize whole : c :: rest = text at unreadable
    cases unreadable with
    | character none =>
      cases whole
      exact readToken_character rest none
    | number word points stop =>
      have read := readNumber_eq_error (word.all isNumberChar_of_isDigit) points stop
      obtain ⟨first, others, rfl, digit, _⟩ := word
      obtain ⟨rfl, rfl⟩ := List.cons.inj whole
      rw [readToken_digit digit]
      exact read
    | @call name inner word unclosed =>
      have read := readName_eq_error (word.all isNameChar_of_isLower) unclosed
      obtain ⟨first, others, atName, lower, _⟩ := word
      rw [← whole] at read
      rw [atName] at whole
      obtain ⟨rfl, rfl⟩ := List.cons.inj whole
      rw [readToken_lower lower]
      exact read

theorem Tiles.space {behind front : List Char} {position : Nat} {placed : List Placed} {c : Char}
    (space : isSpace c = true) (tiles : Tiles behind (position + 1) front placed) :
    Tiles behind position (c :: front) placed := by
  cases tiles with
  | last spaces => exact .last (List.forall_mem_cons.mpr ⟨space, spaces⟩)
  | @more _ gap rest token placed spaces valid ends tiles =>
    have moved : position + 1 + gap.length = position + (c :: gap).length := by
      rw [List.length_cons]
      omega
    rw [moved] at tiles ⊢
    exact .more (List.forall_mem_cons.mpr ⟨space, spaces⟩) valid ends tiles

theorem Tiles.token {behind rest : List Char} {position : Nat} {placed : List Placed}
    {token : Token} (valid : token.Valid) (ends : token.Ends (rest ++ behind))
    (tiles : Tiles behind (position + token.lexeme.length) rest placed) :
    Tiles behind position (token.lexeme ++ rest) (⟨token, position⟩ :: placed) :=
  @Tiles.more behind position [] rest token placed (List.forall_mem_nil _) valid ends tiles

/-- Around any of the tokens that make up a text, the text is made up of the others. -/
theorem Tiles.split {behind front : List Char} {position : Nat} {before after : List Placed}
    {one : Placed} (tiles : Tiles behind position front (before ++ one :: after)) :
    ∃ first rest, front = first ++ (one.token.lexeme ++ rest) ∧
      one.position = position + first.length ∧ one.token.Valid ∧
      one.token.Ends (rest ++ behind) ∧
      Tiles (one.token.lexeme ++ (rest ++ behind)) position first before ∧
      Tiles behind (one.position + one.token.lexeme.length) rest after := by
  induction before generalizing position front with
  | nil =>
    rw [List.nil_append] at tiles
    cases tiles with
    | more spaces valid ends tiles => exact ⟨_, _, rfl, rfl, valid, ends, .last spaces, tiles⟩
  | cons other before ih =>
    cases tiles with
    | @more _ gap _ token _ spaces valid ends tiles =>
      obtain ⟨first, rest, rfl, place, validOne, endsOne, atFirst, atRest⟩ := ih tiles
      refine ⟨gap ++ (token.lexeme ++ first), rest, ?_, ?_, validOne, endsOne, ?_, atRest⟩
      · simp only [List.append_assoc]
      · simp only [place, List.length_append, Nat.add_assoc]
      · refine .more spaces valid ?_ atFirst
        simpa only [List.append_assoc] using ends

theorem exists_tiles (position : Nat) (text : List Char) :
    ∃ front behind, text = front ++ behind ∧
      Tiles behind position front (scanFrom position text).tokens ∧
      (behind = [] ∧ (scanFrom position text).ending = .ok (position + front.length) ∨
        ∃ cause offset, Unreadable behind cause offset ∧ (scanFrom position text).ending =
          .error (.lexical cause (position + front.length + offset))) := by
  induction position, text using scanFrom.induct with
  | case1 position =>
    rw [scanFrom]
    exact ⟨[], [], rfl, .last (List.forall_mem_nil _), .inl ⟨rfl, rfl⟩⟩
  | case2 position c rest space ih =>
    obtain ⟨front, behind, rfl, tiles, ending⟩ := ih
    rw [scanFrom_space space]
    refine ⟨c :: front, behind, rfl, tiles.space space, ?_⟩
    rwa [List.length_cons, Nat.add_comm front.length, ← Nat.add_assoc]
  | case3 position c rest noSpace cause offset read =>
    rw [scanFrom_error noSpace read]
    exact ⟨[], c :: rest, rfl, .last (List.forall_mem_nil _),
      .inr ⟨cause, offset, readToken_eq_error_iff.mp read, rfl⟩⟩
  | case4 position c rest noSpace token after read ih =>
    obtain ⟨text, valid, ends⟩ := readToken_eq_ok_iff.mp read
    obtain ⟨front, behind, rfl, tiles, ending⟩ := ih
    rw [← text, scanFrom_lexeme valid ends]
    refine ⟨token.lexeme ++ front, behind, (List.append_assoc _ _ _).symm, ?_, ?_⟩
    · exact .token valid ends tiles
    · rwa [List.length_append, ← Nat.add_assoc]

theorem Tiles.scanFrom {behind front : List Char} {position : Nat} {placed : List Placed}
    (tiles : Tiles behind position front placed) :
    scanFrom position (front ++ behind) =
      ⟨placed ++ (Placement.scanFrom (position + front.length) behind).tokens,
        (Placement.scanFrom (position + front.length) behind).ending⟩ := by
  induction tiles with
  | last spaces => rw [scanFrom_spaces spaces, List.nil_append]
  | more spaces valid ends tiles ih =>
    rw [List.append_assoc, List.append_assoc, scanFrom_spaces spaces, scanFrom_lexeme valid ends,
      ih]
    simp only [List.length_append, List.cons_append, Nat.add_assoc]

theorem scan_of_tiles {behind front : List Char} {placed : List Placed}
    (tiles : Tiles behind 0 front placed) : scan (front ++ behind) =
      ⟨placed ++ (scanFrom front.length behind).tokens, (scanFrom front.length behind).ending⟩ := by
  rw [scan, tiles.scanFrom, Nat.zero_add]

/-- Errors are not in front of the text that is scanned. -/
theorem le_of_scanFrom_error {position place : Nat} {text : List Char} {cause : LexicalError}
    (error : (scanFrom position text).ending = .error (.lexical cause place)) :
    position ≤ place := by
  obtain ⟨front, behind, _, _, ⟨_, ending⟩ | ⟨other, offset, _, ending⟩⟩ :=
    exists_tiles position text
  · rw [ending] at error
    cases error
  · rw [ending] at error
    cases error
    omega

theorem scan_covered (text : List Char) : Covered text (scan text) := by
  obtain ⟨front, behind, whole, tiles, stop⟩ := exists_tiles 0 text
  have same : scan text = ⟨(scan text).tokens, (scan text).ending⟩ := rfl
  rw [same]
  unfold scan
  obtain ⟨rfl, ending⟩ | ⟨cause, offset, unreadable, ending⟩ := stop
  · rw [List.append_nil] at whole
    rw [ending, Nat.zero_add, ← whole]
    rw [← whole] at tiles
    exact .whole tiles
  · rw [ending, Nat.zero_add]
    subst whole
    cases unreadable with
    | character none => exact .stopped (by simp) tiles
    | number word points stop => exact .stopped (by simp) tiles
    | call word unclosed =>
      rw [← List.length_append]
      exact .unclosed word unclosed tiles

/-- A call at the end of what was cut into lexemes is the error exactly if it is not closed. -/
theorem unmatchedCall_iff {front inner : List Char} {name : String} {placed : List Placed}
    (word : IsWord Char.isLower isNameChar name.toList)
    (tiles : Tiles (name.toList ++ '(' :: inner) 0 front placed) :
    (scan (front ++ (name.toList ++ '(' :: inner))).ending =
      .error (.lexical (.unmatchedCall name) (front ++ name.toList).length) ↔ Unclosed inner := by
  rw [scan_of_tiles tiles, List.length_append]
  constructor
  · rintro error inside after rfl balanced
    have valid : (Token.call name inside).Valid := ⟨word, balanced⟩
    have text : name.toList ++ '(' :: (inside ++ ')' :: after) =
        (Token.call name inside).lexeme ++ after := by
      simp [Token.lexeme]
    -- A call that is closed is a token, so that errors are reported behind it.
    rw [text, scanFrom_lexeme valid trivial] at error
    have place := le_of_scanFrom_error error
    rw [Token.length_lexeme_call] at place
    omega
  · intro unclosed
    have unreadable := Unreadable.call word unclosed
    obtain ⟨c, others, atName, lower, _⟩ := word
    rw [atName, List.cons_append] at unreadable ⊢
    have noSpace : ¬ isSpace c = true := by
      intro space
      rw [isLower_eq_false_of_isSpace space] at lower
      cases lower
    rw [scanFrom_error noSpace (readToken_eq_error_iff.mpr unreadable)]

/-- Arguments of calls are balanced: as many parentheses are opened as closed, and none is closed
before it is opened. -/
theorem arguments_balanced {text : List Char} {placed : Placed} {name : String}
    {arguments : List Char} (member : placed ∈ (scan text).tokens)
    (isCall : placed.token = .call name arguments) :
    arguments.count '(' = arguments.count ')' ∧
      ∀ before, before <+: arguments → before.count ')' ≤ before.count '(' := by
  have valid := (mem_scanFrom member).1
  rw [isCall] at valid
  have counts := openAfter_eq_some_iff.mp valid.2
  simpa only [Nat.zero_add] using counts

/-- The tokens of a text come in the order of their positions and lie in it end to end, but for
space, up to its end or to the first error. Calls take balanced text as their arguments. A call is
an error exactly if nothing closes it. -/
theorem scan_tiles (text : List Char) :
    (scan text).tokens.Pairwise (·.position < ·.position) ∧ Covered text (scan text) ∧
      (∀ placed ∈ (scan text).tokens, ∀ name arguments, placed.token = .call name arguments →
        arguments.count '(' = arguments.count ')' ∧
          ∀ before, before <+: arguments → before.count ')' ≤ before.count '(') ∧
      ∀ front name inner placed, text = front ++ (name.toList ++ '(' :: inner) →
        IsWord Char.isLower isNameChar name.toList →
        Tiles (name.toList ++ '(' :: inner) 0 front placed →
        ((scan text).ending =
          .error (.lexical (.unmatchedCall name) (front ++ name.toList).length) ↔
            Unclosed inner) := by
  refine ⟨scan_pairwise_position text, scan_covered text, ?_, ?_⟩
  · intro placed member name arguments isCall
    exact arguments_balanced member isCall
  · rintro front name inner placed rfl word tiles
    exact unmatchedCall_iff word tiles

/-- The call in front of the product is closed, the one behind it is not. -/
theorem scan_of_two_calls :
    let scanned := scan "g((x))*f(a".toList
    ⟨.call "g" "(x)".toList, 0⟩ ∈ scanned.tokens ∧
      "(x)".toList.count '(' = "(x)".toList.count ')' ∧
      scanned.ending = .error (.lexical (.unmatchedCall "f") 8) := by
  have word (c : Char) (lower : c.isLower = true) : IsWord Char.isLower isNameChar [c] :=
    ⟨c, [], rfl, lower, List.forall_mem_nil _⟩
  have valid : (Token.call "g" "(x)".toList).Valid := ⟨word 'g' rfl, rfl⟩
  have tiles : Tiles "f(a".toList 0 "g((x))*".toList
      [⟨.call "g" "(x)".toList, 0⟩, ⟨.operator .multiply, 6⟩] :=
    .token valid trivial (@Tiles.token _ [] 6 [] (.operator .multiply) trivial trivial
      (.last (List.forall_mem_nil _)))
  have unclosed : Unclosed ['a'] := by
    refine untilClose_eq_none_iff.mp ?_
    rfl
  have facts := scan_tiles "g((x))*f(a".toList
  have member : ⟨.call "g" "(x)".toList, 0⟩ ∈ (scan "g((x))*f(a".toList).tokens := by
    have split : "g((x))*f(a".toList = "g((x))*".toList ++ "f(a".toList := by rfl
    rw [split, scan_of_tiles tiles]
    exact List.mem_cons_self
  refine ⟨member, (facts.2.2.1 _ member "g" "(x)".toList rfl).1, ?_⟩
  exact (facts.2.2.2 "g((x))*".toList "f" ['a'] _ rfl (word 'f' rfl) tiles).mpr unclosed

end Placement
