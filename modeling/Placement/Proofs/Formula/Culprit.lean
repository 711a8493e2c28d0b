import Placement.Proofs.Formula.Acceptance
import Placement.Proofs.Formula.Tiling

namespace Placement

/-- Reading a text, inside of `depth` calls, ends with an error. It is raised while the text
`inner` is read, inside of `around` calls, when the given token is met, or when there is no further
token. -/
inductive Raised (limits : Limits) : (levels depth : Nat) → (text : List Char) →
    (around : Nat) → (inner : List Char) → (met : Option Placed) → FormulaError → Prop
  | atToken {levels depth : Nat} {text : List Char} {before after : List Placed} {placed : Placed}
      {state : Conversion} {error : FormulaError} :
      (scan text).tokens = before ++ placed :: after →
      before.foldlM (Conversion.step (limits.reader levels depth)) {} = .ok state →
      (∀ name arguments, placed.token = .call name arguments → ¬ limits.Allows (depth + 1)) →
      Conversion.step (limits.reader levels depth) state placed = .error (.formula error) →
      Raised limits levels depth text depth text (some placed) error
  | atEnd {levels depth : Nat} {text : List Char} {state : Conversion} {error : FormulaError} :
      (scan text).tokens.foldlM (Conversion.step (limits.reader levels depth)) {} = .ok state →
      Conversion.run (limits.reader levels depth) text = .error (.formula error) →
      Raised limits levels depth text depth text none error
  | inside {levels depth around position : Nat} {text arguments inner : List Char} {name : String}
      {before after : List Placed} {met : Option Placed} {state : Conversion}
      {error : FormulaError} :
      (scan text).tokens = before ++ ⟨.call name arguments, position⟩ :: after →
      before.foldlM (Conversion.step (limits.reader (levels + 1) depth)) {} = .ok state →
      limits.Allows (depth + 1) → arguments.all isBlank = false →
      Raised limits levels (depth + 1) arguments around inner met error →
      Raised limits (levels + 1) depth text around inner met error

/-- The text does not end in a name, so that a parenthesis behind it is no call. -/
def Nameless (text : List Char) : Prop :=
  ∀ front name, IsWord Char.isLower isNameChar name → text ≠ front ++ name

/-- What is wrong stands at the start of `behind`, in a text that is read inside of `depth` calls.
`met` is the token, if any, at which the error is raised. -/
inductive Culprit (limits : Limits) (depth : Nat) : (before behind : List Char) →
    (met : Option Placed) → FormulaError → Prop
  | character {before rest : List Char} {c : Char} :
      (∀ token : Token, token.Valid → token.lexeme.head? ≠ some c) →
      Culprit limits depth before (c :: rest) none
        (.lexical (.unexpectedCharacter c) before.length)
  | number {before digits after : List Char} : IsWord Char.isDigit isNumberChar digits →
      1 < digits.count '.' → HeadNot isNumberChar after →
      Culprit limits depth before (digits ++ after) none
        (.lexical (.malformedNumber digits) before.length)
  | call {front inner : List Char} {name : String} :
      IsWord Char.isLower isNameChar name.toList → Unclosed inner →
      Culprit limits depth (front ++ name.toList) ('(' :: inner) none
        (.lexical (.unmatchedCall name) (front ++ name.toList).length)
  | constant {before after : List Char} {name : String} :
      IsWord Char.isUpper isConstantChar name.toList → HeadNot isConstantChar after →
      Builtin.constant? name = none →
      Culprit limits depth before (name.toList ++ after) (some ⟨.constant name, before.length⟩)
        (.parse (.unknownConstant name) (some before.length))
  | tooDeep {before arguments after : List Char} {name : String} {limit : Nat} :
      IsWord Char.isLower isNameChar name.toList → Balanced arguments →
      limits.maxDepth = some limit → limit < depth + 1 →
      Culprit limits depth before (name.toList ++ '(' :: (arguments ++ ')' :: after))
        (some ⟨.call name arguments, before.length⟩)
        (.parse (.tooDeep name limit) (some before.length))
  | close {before after : List Char} : Balanced before →
      Culprit limits depth before (')' :: after) (some ⟨.rightParen, before.length⟩)
        (.parse .unmatchedClose (some before.length))
  | openBeforeComma {before inner after : List Char} : Nameless before → Balanced inner →
      Culprit limits depth before ('(' :: (inner ++ ',' :: after))
        (some ⟨.comma, (before ++ '(' :: inner).length⟩)
        (.parse .unmatchedOpen (some before.length))
  | openToEnd {before inner : List Char} : Nameless before → Balanced inner →
      Culprit limits depth before ('(' :: inner) none
        (.parse .unmatchedOpen (some before.length))

/-- Text read so far, with the positions of its open parentheses, of the last one first. All other
parentheses in it have their partners, between the same two of these. -/
inductive OpenAt : List Char → List Nat → Prop
  | none {text : List Char} : Balanced text → OpenAt text []
  | more {before inner : List Char} {positions : List Nat} : OpenAt before positions →
      Nameless before → Balanced inner →
      OpenAt (before ++ '(' :: inner) (before.length :: positions)

namespace Culprit

variable {limits : Limits} {depth : Nat} {before behind : List Char} {met : Option Placed}
  {error : FormulaError}

theorem position? (culprit : Culprit limits depth before behind met error) :
    error.position? = some before.length := by
  cases culprit <;> rfl

theorem behind_ne_nil (culprit : Culprit limits depth before behind met error) : behind ≠ [] := by
  cases culprit with
  | number word => exact List.append_ne_nil_of_left_ne_nil word.ne_nil _
  | constant word => exact List.append_ne_nil_of_left_ne_nil word.ne_nil _
  | tooDeep word => exact List.append_ne_nil_of_left_ne_nil word.ne_nil _
  | character | call | close | openBeforeComma | openToEnd => exact List.cons_ne_nil _ _

/-- Where no token can be read, the character, the number or the call is to blame. -/
theorem of_unreadable {front behind : List Char} {cause : LexicalError} {offset : Nat}
    (unreadable : Unreadable behind cause offset) :
    ∃ before after, front ++ behind = before ++ after ∧
      Culprit limits depth before after none (.lexical cause (front.length + offset)) := by
  cases unreadable with
  | character none => exact ⟨front, _, rfl, .character none⟩
  | number word points stop => exact ⟨front, _, rfl, .number word points stop⟩
  | @call name inner word unclosed =>
    rw [← List.length_append]
    exact ⟨front ++ name.toList, '(' :: inner, (List.append_assoc _ _ _).symm,
      .call word unclosed⟩

end Culprit

/-- Only the lexeme of a variable ends in a name. -/
theorem Token.Valid.identifier_of_word {token : Token} (valid : token.Valid)
    {front word : List Char} (same : token.lexeme = front ++ word)
    (isWord : IsWord Char.isLower isNameChar word) : ∃ name, token = .identifier name := by
  have all := isWord.all isNameChar_of_isLower
  obtain ⟨c, rest, rfl, lower, _⟩ := isWord
  have member : c ∈ token.lexeme := by simp [same]
  have range := toNat_of_isLower lower
  cases token with
  | identifier name => exact ⟨name, rfl⟩
  | number digits =>
    have digit := valid.1.all isNumberChar_of_isDigit c member
    simp only [isNumberChar, Bool.or_eq_true, beq_iff_eq] at digit
    rcases digit with digit | rfl
    · have := toNat_of_isDigit digit
      omega
    · cases lower
  | constant name =>
    have upper := IsWord.all valid isConstantChar_of_isUpper c member
    simp only [isConstantChar, Bool.or_eq_true, beq_iff_eq] at upper
    rcases upper with upper | rfl
    · have := toNat_of_isUpper upper
      omega
    · cases lower
  | call name arguments =>
    have last := congrArg List.getLast? same
    rw [Token.lexeme, List.getLast?_concat,
      List.getLast?_append_of_ne_nil _ (List.cons_ne_nil c rest)] at last
    cases all ')' (List.mem_of_getLast? last.symm)
  | operator op =>
    obtain rfl := List.mem_singleton.mp member
    cases op <;> cases lower
  | leftParen | rightParen | comma =>
    obtain rfl := List.mem_singleton.mp member
    cases lower

/-- Behind space and a lexeme, a name does not begin in the space. -/
theorem word_in_lexeme {gap lexeme front word : List Char}
    (spaces : ∀ c ∈ gap, isSpace c = true) (same : gap ++ lexeme = front ++ word)
    (isWord : IsWord Char.isLower isNameChar word) : ∃ others, lexeme = others ++ word := by
  rcases List.append_eq_append_iff.mp same with ⟨others, _, split⟩ | ⟨others, inGap, split⟩
  · exact ⟨others, split⟩
  · cases others with
    | nil => exact ⟨[], split.symm⟩
    | cons c others =>
      have lower : c.isLower = true := isWord.head (by rw [split]; rfl)
      rw [isLower_eq_false_of_isSpace (spaces c (by simp [inGap]))] at lower
      cases lower

/-- A parenthesis that is a token does not stand behind a name. -/
theorem Tiles.nameless {after front : List Char} {position : Nat} {placed : List Placed}
    (tiles : Tiles ('(' :: after) position front placed) : Nameless front := by
  induction tiles with
  | @last _ gap spaces =>
    intro others word isWord same
    rw [← List.append_nil gap] at same
    obtain ⟨_, none⟩ := word_in_lexeme spaces same isWord
    exact isWord.ne_nil (List.append_eq_nil_iff.mp none.symm).2
  | @more _ gap rest token _ spaces valid ends _ ih =>
    intro others word isWord same
    rw [← List.append_assoc] at same
    rcases List.append_eq_append_iff.mp same with ⟨front, _, inRest⟩ | ⟨start, split, rfl⟩
    · exact ih front word isWord inRest
    · have all := isWord.all isNameChar_of_isLower
      cases start with
      | nil => exact ih [] rest isWord rfl
      | cons c start =>
        -- The name begins in this lexeme, which then is a variable that ends too early.
        obtain ⟨d, more, same, lower, inMore⟩ := isWord
        obtain ⟨rfl, rfl⟩ := List.cons.inj same
        have begins : IsWord Char.isLower isNameChar (c :: start) :=
          ⟨c, start, rfl, lower, fun d member => inMore d (List.mem_append_left _ member)⟩
        obtain ⟨_, inLexeme⟩ := word_in_lexeme spaces split begins
        obtain ⟨name, rfl⟩ := valid.identifier_of_word inLexeme begins
        cases rest with
        | nil => cases HeadNot.of_cons ends
        | cons d rest =>
          have stop := HeadNot.of_cons ends
          rw [all d (by simp), Bool.true_or] at stop
          cases stop

namespace OpenAt

variable {text more : List Char} {positions : List Nat}

theorem append (openAt : OpenAt text positions) (balanced : Balanced more) :
    OpenAt (text ++ more) positions := by
  cases openAt with
  | none closed => exact .none (closed.append_iff.mpr balanced)
  | more outer nameless closed =>
    rw [List.append_assoc, List.cons_append]
    exact .more outer nameless (closed.append_iff.mpr balanced)

theorem openParen (openAt : OpenAt text positions) (nameless : Nameless text) :
    OpenAt (text ++ ['(']) (text.length :: positions) := .more openAt nameless rfl

theorem closeParen {position : Nat} (openAt : OpenAt text (position :: positions)) :
    OpenAt (text ++ [')']) positions := by
  cases openAt with
  | @more before inner _ outer _ closed =>
    rw [List.append_assoc]
    refine outer.append ?_
    rw [Balanced, List.cons_append, openAfter_open, openAfter_append, closed.openAfter]
    rfl

end OpenAt

namespace Conversion

variable {call : CallReader} {state next : Conversion}

/-- A token leaves on the stack the positions of what is open behind it. -/
theorem openAt_of_step (uniform : call.Uniform) {text : List Char} {token : Token}
    (openAt : OpenAt text (openPositions state.stack)) (valid : token.Valid)
    (nameless : token = .leftParen → Nameless text)
    (stepped : step call state ⟨token, text.length⟩ = .ok next) :
    OpenAt (text ++ token.lexeme) (openPositions next.stack) := by
  rcases step_cases uniform stepped with ⟨node, isOperand, rfl⟩ | ⟨op, rfl, rfl⟩ | ⟨rfl, rfl⟩ |
    ⟨rfl, closed⟩ | ⟨rfl, ended⟩
  · have noOpen : token ≠ .leftParen := by
      rintro rfl
      cases isOperand
    have noClose : token ≠ .rightParen := by
      rintro rfl
      cases isOperand
    exact openAt.append (valid.openAfter noOpen noClose 0)
  · rw [openPositions_pushOperator]
    exact openAt.append (valid.openAfter nofun nofun 0)
  · exact openAt.openParen (nameless rfl)
  · obtain ⟨position, one⟩ := openPositions_of_closeParen closed
    rw [one] at openAt
    exact openAt.closeParen
  · obtain ⟨nothing, fresh⟩ := openPositions_of_endSequence ended
    rw [nothing] at openAt
    rw [fresh]
    exact openAt.append rfl

/-- What waits on the stack are the open parentheses of the text whose tokens were taken in. -/
theorem openAt_of_foldlM_step (uniform : call.Uniform) {behind front : List Char}
    {placed : List Placed} (tiles : Tiles behind 0 front placed)
    (run : placed.foldlM (step call) {} = .ok state) :
    OpenAt front (openPositions state.stack) := by
  -- From the last token back: what stands in front of it shows that a parenthesis is no call.
  induction placed using List.reverseRecOn generalizing behind front state with
  | nil =>
    cases run
    cases tiles with
    | last spaces => exact .none (balanced_of_spaces spaces)
  | append_singleton before one ih =>
    obtain ⟨first, rest, rfl, place, valid, _, atFirst, atRest⟩ := tiles.split
    rw [List.foldlM_append] at run
    obtain ⟨middle, runBefore, last⟩ := bind_eq_ok_iff.mp run
    have stepped : step call middle ⟨one.token, first.length⟩ = .ok state := by
      obtain ⟨next, stepped, done⟩ := of_foldlM_step_cons last
      cases done
      rwa [← Nat.zero_add first.length, ← place]
    have nameless : one.token = .leftParen → Nameless first := by
      intro isOpen
      rw [isOpen] at atFirst
      exact atFirst.nameless
    have openAt := openAt_of_step uniform (ih atFirst runBefore) valid nameless stepped
    cases atRest with
    | last spaces =>
      rw [← List.append_assoc]
      exact openAt.append (balanced_of_spaces spaces)

end Conversion

namespace Culprit

variable {limits : Limits} {levels depth : Nat} {state : Conversion} {text rest : List Char}
  {error : FormulaError}

theorem of_step {token : Token} (openAt : OpenAt text (Conversion.openPositions state.stack))
    (valid : token.Valid) (ends : token.Ends rest)
    (refused : ∀ name arguments, token = .call name arguments → ¬ limits.Allows (depth + 1))
    (failed : Conversion.step (limits.reader levels depth) state ⟨token, text.length⟩ =
      .error (.formula error)) :
    ∃ before behind, text ++ (token.lexeme ++ rest) = before ++ behind ∧
      Culprit limits depth before behind (some ⟨token, text.length⟩) error := by
  cases token with
  | number | identifier | operator | leftParen => cases failed
  | constant name =>
    simp only [Conversion.step] at failed
    split at failed <;> cases failed
    rename_i unknown
    exact ⟨text, _, rfl, .constant valid ends unknown⟩
  | call name arguments =>
    rcases Limits.reader_eq_error (map_eq_error_iff.mp failed) with
      ⟨limit, atLimit, deep, same⟩ | ⟨allows, _⟩
    · cases same
      refine ⟨text, _, rfl, ?_⟩
      simpa [Token.lexeme] using Culprit.tooDeep valid.1 valid.2 atLimit deep
    · exact absurd allows (refused name arguments rfl)
  | rightParen =>
    simp only [Conversion.step, Conversion.closeParen] at failed
    split at failed <;> cases failed
    rename_i none
    rw [Conversion.openPositions_of_popToOpen_none none] at openAt
    cases openAt with
    | none balanced => exact ⟨text, _, rfl, .close balanced⟩
  | comma =>
    obtain ⟨position, others, first, same⟩ := Conversion.endSequence_eq_error failed
    cases same
    rw [first] at openAt
    cases openAt with
    | @more before inner _ _ nameless balanced =>
      refine ⟨before, '(' :: (inner ++ ',' :: rest), ?_, .openBeforeComma nameless balanced⟩
      simp [Token.lexeme]

/-- Behind the last token the end of the text is met, or what is no token. -/
theorem of_run
    (folded : (scan text).tokens.foldlM (Conversion.step (limits.reader levels depth)) {} = .ok state)
    (failed : Conversion.run (limits.reader levels depth) text = .error (.formula error)) :
    ∃ before behind, text = before ++ behind ∧ Culprit limits depth before behind none error := by
  obtain ⟨front, behind, whole, tiles, stop⟩ := exists_tiles 0 text
  rcases Conversion.run_eq_error_cases failed with ⟨before, one, after, middle, tokens, run, failing⟩ |
    ⟨last, again, ⟨cause, stopped, same⟩ | ⟨⟨place, reached⟩, unended⟩⟩
  · rw [tokens, Conversion.foldlM_step_append run, List.foldlM_cons, failing] at folded
    cases folded
  · cases same
    obtain ⟨_, ending⟩ | ⟨cause, offset, unreadable, ending⟩ := stop
    · cases stopped.symm.trans ending
    · cases stopped.symm.trans ending
      rw [whole, Nat.zero_add]
      exact of_unreadable unreadable
  · obtain ⟨rfl, _⟩ | ⟨cause, offset, _, ending⟩ := stop
    · obtain ⟨position, others, first, same⟩ := Conversion.endSequence_eq_error unended
      cases same
      have openAt := Conversion.openAt_of_foldlM_step (limits.reader_uniform levels depth) tiles again
      rw [first] at openAt
      rw [whole, List.append_nil]
      cases openAt with
      | more _ nameless balanced => exact ⟨_, _, rfl, .openToEnd nameless balanced⟩
    · cases reached.symm.trans ending

end Culprit

namespace Raised

variable {limits : Limits} {levels depth around : Nat} {text inner : List Char}
  {met : Option Placed} {error : FormulaError}

/-- An error that is raised is about what stands at its place. -/
theorem culprit (raised : Raised limits levels depth text around inner met error) :
    ∃ before behind, inner = before ++ behind ∧ Culprit limits around before behind met error := by
  induction raised with
  | @atToken levels depth text before after placed state error tokens run refused failed =>
    obtain ⟨front, behind, whole, tiles, _⟩ := exists_tiles 0 text
    rw [← scan, tokens] at tiles
    obtain ⟨first, rest, rfl, place, valid, ends, atFirst, _⟩ := tiles.split
    have openAt := Conversion.openAt_of_foldlM_step (limits.reader_uniform levels depth) atFirst run
    obtain ⟨token, position⟩ := placed
    obtain rfl : position = first.length := place.trans (Nat.zero_add _)
    rw [whole, List.append_assoc, List.append_assoc]
    exact Culprit.of_step openAt valid ends refused failed
  | atEnd folded failed => exact Culprit.of_run folded failed
  | inside _ _ _ _ _ ih => exact ih

end Raised

/-- An error that ends the reading of a text is raised somewhere in it. -/
theorem raised_of_sequences {limits : Limits} {levels depth : Nat} {text : List Char}
    {error : FormulaError} (failed : sequences limits levels depth text = .error (.formula error)) :
    ∃ around inner met, Raised limits levels depth text around inner met error := by
  induction levels using Nat.strongRecOn generalizing depth text with
  | ind levels ih =>
    rw [Limits.sequences_eq_run] at failed
    rcases Conversion.run_eq_error_cases failed with
      ⟨before, ⟨token, position⟩, after, state, tokens, run, failing⟩ | ⟨state, folded, _⟩
    · cases token with
      | call name arguments =>
        rcases Limits.reader_eq_error (map_eq_error_iff.mp failing) with
          ⟨limit, atLimit, deep, _⟩ | ⟨allows, ⟨_, nesting⟩ | ⟨fewer, rfl, written, read⟩⟩
        · refine ⟨depth, text, _, .atToken tokens run (fun _ _ _ allows => ?_) failing⟩
          have within := allows limit atLimit
          omega
        · cases nesting
        · obtain ⟨around, inner, met, raised⟩ := ih fewer (Nat.lt_succ_self fewer) read
          exact ⟨around, inner, met, .inside tokens run allows written raised⟩
      | _ => exact ⟨depth, text, _, .atToken tokens run nofun failing⟩
    · exact ⟨depth, text, none, .atEnd folded failed⟩

/-- An error in reading a formula, unless the formula is blank, points at its culprit in the text
that is being read when the error is raised. -/
theorem parse_points_at_culprit {limits : Limits} {text : List Char} {error : FormulaError}
    {position : Nat} (failed : parse limits text = .error (.formula error))
    (placed : error.position? = some position) (notEmpty : error ≠ .parse .empty (some position)) :
    (∃ around inner met, Raised limits limits.levels 0 text around inner met error) ∧
    ∀ around inner met, Raised limits limits.levels 0 text around inner met error →
      ∃ before behind, inner = before ++ behind ∧ before.length = position ∧
        position < inner.length ∧ Culprit limits around before behind met error := by
  constructor
  · unfold parse at failed
    split at failed
    · cases failed
      cases placed
      exact absurd rfl notEmpty
    · split at failed
      · rename_i read
        cases failed
        exact raised_of_sequences read
      · cases failed
      · cases failed
        cases placed
  · intro around inner met raised
    obtain ⟨before, behind, rfl, culprit⟩ := raised.culprit
    have here : before.length = position := Option.some.inj (culprit.position?.symm.trans placed)
    have some := List.length_pos_iff.mpr culprit.behind_ne_nil
    refine ⟨before, behind, rfl, here, ?_, culprit⟩
    rw [List.length_append]
    omega

instance decidableEqParse {α : Type} (result : Except Failure α) (cause : ParseError)
    (position : Option Nat) : Decidable (result = .error (.formula (.parse cause position))) :=
  match result with
  | .error (.formula (.parse other place)) =>
    decidable_of_iff (other = cause ∧ place = position) (by simp)
  | .ok _ | .error (.formula (.lexical ..)) | .error (.formula (.evaluation _))
  | .error .nesting | .error (.foreign _) => isFalse nofun

/-- In the arguments of a call a comma stands inside of a parenthesis that is no call. -/
theorem comma_inside_parenthesis :
    parse {} "max((x, y))".toList = .error (.formula (.parse .unmatchedOpen (some 0))) ∧
      ∃ before behind, "(x, y)".toList = before ++ behind ∧ before.length = 0 ∧
        Culprit {} 1 before behind (some ⟨.comma, 2⟩) (.parse .unmatchedOpen (some 0)) := by
  have failed : parse {} "max((x, y))".toList =
      .error (.formula (.parse .unmatchedOpen (some 0))) := by decide +kernel
  have notEmpty : FormulaError.parse .unmatchedOpen (some 0) ≠ .parse .empty (some 0) := by
    intro same
    cases same
  have inArguments : (scan "(x, y)".toList).tokens = [⟨.leftParen, 0⟩, ⟨.identifier "x", 1⟩] ++
      ⟨.comma, 2⟩ :: [⟨.identifier "y", 4⟩, ⟨.rightParen, 5⟩] := by decide +kernel
  have noCall : ∀ name arguments, Token.comma = .call name arguments →
      ¬ ({} : Limits).Allows 2 := by
    intro name arguments same
    cases same
  have alone : (scan "max((x, y))".toList).tokens =
      [] ++ ⟨.call "max" "(x, y)".toList, 0⟩ :: [] := by decide +kernel
  have raised : Raised {} usualLevels 0 "max((x, y))".toList 1 "(x, y)".toList (some ⟨.comma, 2⟩)
      (.parse .unmatchedOpen (some 0)) :=
    .inside alone rfl (Limits.unlimited_allows _ 1) rfl (.atToken inArguments rfl noCall rfl)
  obtain ⟨before, behind, same, here, _, culprit⟩ :=
    (parse_points_at_culprit failed rfl notEmpty).2 1 _ _ raised
  exact ⟨failed, before, behind, same, here, culprit⟩

end Placement
