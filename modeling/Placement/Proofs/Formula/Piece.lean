import Placement.Proofs.Formula.Lexeme

namespace Placement

/-- What the patterns cut off. A call with nothing but blanks between its parentheses is cut off
whole, so these blanks may be of any kind. -/
inductive Piece where
  | space (c : Char)
  | number (digits : List Char)
  | name (word : String)
  | constant (word : String)
  | operator (op : Operator)
  | leftParen
  | rightParen
  | comma
  | emptyCall (word : String) (gap : List Char)

namespace Piece

def lexeme : Piece → List Char
  | space c => [c]
  | number digits => digits
  | name word => word.toList
  | constant word => word.toList
  | operator op => [op.symbol]
  | leftParen => ['(']
  | rightParen => [')']
  | comma => [',']
  | emptyCall word gap => word.toList ++ '(' :: (gap ++ [')'])

/-- The text that some pieces make up. -/
def text (pieces : List Piece) : List Char := pieces.flatMap lexeme

/-- What each pattern matches. A number has at most one dot. -/
def Valid : Piece → Prop
  | space c => isSpace c = true
  | number digits => IsWord Char.isDigit isNumberChar digits ∧ digits.count '.' ≤ 1
  | name word => IsWord Char.isLower isNameChar word.toList
  | constant word => IsWord Char.isUpper isConstantChar word.toList
  | emptyCall word gap => IsWord Char.isLower isNameChar word.toList ∧ gap.all isBlank = true
  | _ => True

/-- Each pattern matches as much as it can. -/
def Ends : Piece → List Char → Prop
  | number _, after => HeadNot isNumberChar after
  | name _, after => HeadNot isNameChar after
  | constant _, after => HeadNot isConstantChar after
  | _, _ => True

end Piece

/-- Pieces as the patterns cut them off one after the other. -/
inductive Cut : List Piece → Prop
  | nil : Cut []
  | cons {piece : Piece} {rest : List Piece} :
      piece.Valid → piece.Ends (Piece.text rest) → Cut rest → Cut (piece :: rest)

/-- The innermost parenthesis that is open behind some pieces stands right behind a name. -/
def InCall (before : List Piece) : Prop :=
  ∃ front name inside, before = front ++ .name name :: .leftParen :: inside ∧
    Balanced (Piece.text inside)

/-- Every comma is in a call, or outside of all parentheses if commas may stand there. -/
def CommasWithin (outside : Prop) (pieces : List Piece) : Prop :=
  ∀ before after, pieces = before ++ .comma :: after →
    InCall before ∨ outside ∧ Balanced (Piece.text before)

/-- Every name of a constant is one of the two that are known. -/
def ConstantsKnown (pieces : List Piece) : Prop :=
  ∀ name, .constant name ∈ pieces → name = "PI" ∨ name = "EPSILON"

namespace Piece

variable {piece : Piece} {pieces others : List Piece}

@[simp] theorem text_nil : text [] = [] := rfl

@[simp] theorem text_cons (piece : Piece) (rest : List Piece) :
    text (piece :: rest) = piece.lexeme ++ text rest := rfl

@[simp] theorem text_append (first second : List Piece) :
    text (first ++ second) = text first ++ text second := List.flatMap_append

theorem Ends.of_headNot {after : List Char} (stop : HeadNot continues after) : piece.Ends after := by
  cases piece with
  | number | name | constant =>
    refine stop.mono fun c no => ?_
    simp only [continues, Bool.or_eq_false_iff] at no
    simp only [no]
  | _ => exact trivial

theorem Ends.append {after other : List Char} (ends : piece.Ends after)
    (stop : HeadNot continues other) : piece.Ends (after ++ other) := by
  have behind : piece.Ends other := .of_headNot stop
  cases piece with
  | number | name | constant => exact HeadNot.append ends behind
  | _ => exact trivial

theorem Ends.of_append {after other : List Char} (ends : piece.Ends (after ++ other)) :
    piece.Ends after := by
  cases piece with
  | number | name | constant => exact HeadNot.of_append ends
  | _ => exact trivial

theorem openAfter_blank {gap : List Char} (blank : gap.all isBlank = true) (depth : Nat) :
    openAfter depth gap = some depth :=
  openAfter_of_plain (isPlain_of_class (List.all_eq_true.mp blank) rfl rfl) depth

/-- Only pieces that are parentheses open or close anything. -/
theorem Valid.openAfter (valid : piece.Valid) (noOpen : piece ≠ .leftParen)
    (noClose : piece ≠ .rightParen) (depth : Nat) : openAfter depth piece.lexeme = some depth := by
  cases piece with
  | space c => exact openAfter_plain ⟨ne_of_class valid rfl, ne_of_class valid rfl⟩ depth []
  | number digits =>
    exact openAfter_of_plain
      (isPlain_of_class (valid.1.all isNumberChar_of_isDigit) rfl rfl) depth
  | name word =>
    exact openAfter_of_plain
      (isPlain_of_class (IsWord.all valid isNameChar_of_isLower) rfl rfl) depth
  | constant word =>
    exact openAfter_of_plain
      (isPlain_of_class (IsWord.all valid isConstantChar_of_isUpper) rfl rfl) depth
  | emptyCall word gap =>
    have atName := openAfter_of_plain
      (isPlain_of_class (valid.1.all isNameChar_of_isLower) rfl rfl) depth
    rw [lexeme, openAfter_append, atName, Option.bind_some, openAfter_open, openAfter_append,
      openAfter_blank valid.2, Option.bind_some, openAfter_succ_close]
    rfl
  | operator op => cases op <;> rfl
  | leftParen => exact absurd rfl noOpen
  | rightParen => exact absurd rfl noClose
  | comma => rfl

/-- Only an open parenthesis begins with one. -/
theorem Valid.headNot_open (valid : piece.Valid) (noOpen : piece ≠ .leftParen)
    (rest : List Char) : HeadNot (· == '(') (piece.lexeme ++ rest) := by
  have ofWord {first others : Char → Bool} {word : List Char} (isWord : IsWord first others word)
      (outside : first '(' = false) (rest : List Char) : HeadNot (· == '(') (word ++ rest) := by
    obtain ⟨c, behind, rfl, atFirst, _⟩ := isWord
    exact HeadNot.cons (p := (· == '(')) (beq_false_of_ne (ne_of_class atFirst outside)) _
  cases piece with
  | space c =>
    exact HeadNot.cons (p := (· == '(')) (beq_false_of_ne (ne_of_class (p := isSpace) valid rfl)) _
  | number digits => exact ofWord valid.1 rfl rest
  | name word => exact ofWord valid rfl rest
  | constant word => exact ofWord valid rfl rest
  | emptyCall word gap =>
    rw [lexeme, List.append_assoc]
    exact ofWord valid.1 rfl _
  | operator op => exact HeadNot.cons (p := (· == '(')) (by cases op <;> rfl) _
  | leftParen => exact absurd rfl noOpen
  | rightParen | comma => exact HeadNot.cons (p := (· == '(')) rfl _

end Piece

namespace Cut

variable {first second : List Piece}

theorem append (cut : Cut first) (stop : HeadNot continues (Piece.text second))
    (behind : Cut second) : Cut (first ++ second) := by
  induction cut with
  | nil => exact behind
  | cons valid ends _ ih =>
    refine .cons valid ?_ ih
    rw [List.append_eq, Piece.text_append]
    exact ends.append stop

theorem of_append (cut : Cut (first ++ second)) : Cut first ∧ Cut second := by
  induction first with
  | nil => exact ⟨.nil, cut⟩
  | cons piece rest ih =>
    cases cut with
    | cons valid ends behind =>
      obtain ⟨atRest, atSecond⟩ := ih behind
      rw [List.append_eq, Piece.text_append] at ends
      exact ⟨.cons valid ends.of_append atRest, atSecond⟩

/-- The piece that closes an open parenthesis, inside of `depth` others. -/
theorem closing {rest : List Piece} (cut : Cut rest) {depth : Nat}
    (closed : openAfter (depth + 1) (Piece.text rest) = some 0) :
    ∃ inner behind, rest = inner ++ .rightParen :: behind ∧
      openAfter depth (Piece.text inner) = some 0 ∧ Balanced (Piece.text behind) := by
  induction cut generalizing depth with
  | nil => cases closed
  | @cons piece rest valid _ _ ih =>
    rw [Piece.text_cons, openAfter_append] at closed
    by_cases isOpen : piece = .leftParen
    · subst isOpen
      obtain ⟨inner, behind, rfl, inside, balanced⟩ := @ih (depth + 1) closed
      refine ⟨.leftParen :: inner, behind, rfl, ?_, balanced⟩
      rwa [Piece.text_cons, Piece.lexeme, List.singleton_append, openAfter_open]
    · by_cases isClose : piece = .rightParen
      · subst isClose
        cases depth with
        | zero => exact ⟨[], rest, rfl, rfl, closed⟩
        | succ outer =>
          obtain ⟨inner, behind, rfl, inside, balanced⟩ := @ih outer closed
          exact ⟨.rightParen :: inner, behind, rfl, inside, balanced⟩
      · rw [valid.openAfter isOpen isClose, Option.bind_some] at closed
        obtain ⟨inner, behind, rfl, inside, balanced⟩ := ih closed
        refine ⟨piece :: inner, behind, rfl, ?_, balanced⟩
        rwa [Piece.text_cons, openAfter_append, valid.openAfter isOpen isClose]

end Cut

theorem Balanced.append_iff {first second : List Char} (balanced : Balanced first) :
    Balanced (first ++ second) ↔ Balanced second := by
  rw [Balanced, openAfter_append, show Placement.openAfter 0 first = some 0 from balanced]
  rfl

/-- A beginning of a balanced text closes nothing that was open before it. -/
theorem Balanced.openAfter_left {first second : List Char} (balanced : Balanced (first ++ second))
    (depth : Nat) : ∃ more, Placement.openAfter depth first = some (depth + more) := by
  rw [Balanced, openAfter_append] at balanced
  obtain ⟨more, run, _⟩ := Option.bind_eq_some_iff.mp balanced
  have shifted := openAfter_add run depth
  rw [Nat.zero_add, Nat.add_comm] at shifted
  exact ⟨more, shifted⟩

namespace InCall

variable {front before chunk : List Piece}

theorem append_left (inCall : InCall before) (front : List Piece) : InCall (front ++ before) := by
  obtain ⟨others, name, inside, rfl, balanced⟩ := inCall
  exact ⟨front ++ others, name, inside, (List.append_assoc _ _ _).symm, balanced⟩

/-- Pieces that are closed do not end within a call. -/
theorem not_closed {front inside others : List Piece} {word : String}
    (closed : Balanced (Piece.text (front ++ .name word :: .leftParen :: inside)))
    (balanced : Balanced (Piece.text (inside ++ others))) : False := by
  rw [Piece.text_append] at balanced
  rw [show front ++ Piece.name word :: .leftParen :: inside =
      (front ++ [.name word]) ++ .leftParen :: inside by simp, Piece.text_append, Balanced,
    openAfter_append] at closed
  obtain ⟨depth, _, run⟩ := Option.bind_eq_some_iff.mp closed
  obtain ⟨more, atInside⟩ := balanced.openAfter_left (depth + 1)
  rw [Piece.text_cons, Piece.lexeme, List.singleton_append, openAfter_open, atInside] at run
  injection run with same
  omega

/-- What is closed again does not hold what stands behind it, unless it ends with the name that a
parenthesis stands behind. -/
theorem of_append (inCall : InCall (chunk ++ before)) (closed : Balanced (Piece.text chunk))
    (apart : (∀ word, chunk.getLast? ≠ some (.name word)) ∨ before.head? ≠ some .leftParen) :
    InCall before := by
  obtain ⟨front, word, inside, same, balanced⟩ := inCall
  rcases List.append_eq_append_iff.mp same with ⟨others, rfl, rfl⟩ | ⟨others, rfl, behind⟩
  · exact ⟨others, word, inside, rfl, balanced⟩
  · match others, behind with
    | [], behind => exact ⟨[], word, inside, behind.symm, balanced⟩
    | [_], behind =>
      obtain ⟨rfl, rfl⟩ := List.cons.inj behind
      rcases apart with noName | noOpen
      · exact absurd (List.getLast?_concat ..) (noName word)
      · exact absurd rfl noOpen
    | _ :: _ :: more, behind =>
      obtain ⟨rfl, rest⟩ := List.cons.inj behind
      obtain ⟨rfl, rfl⟩ := List.cons.inj rest
      exact (not_closed closed balanced).elim

/-- What is open behind a parenthesis is this parenthesis, or stands behind it. -/
theorem of_open (inCall : InCall (chunk ++ .leftParen :: before))
    (closed : Balanced (Piece.text chunk)) : InCall before ∨
      (∃ word, chunk.getLast? = some (.name word)) ∧ Balanced (Piece.text before) := by
  obtain ⟨front, word, inside, same, balanced⟩ := inCall
  rcases List.append_eq_append_iff.mp same with ⟨others, rfl, behind⟩ | ⟨others, rfl, behind⟩
  · match others, behind with
    | _ :: others, behind =>
      exact Or.inl ⟨others, word, inside, (List.cons.inj behind).2, balanced⟩
  · match others, behind with
    | [_], behind =>
      obtain ⟨rfl, rest⟩ := List.cons.inj behind
      obtain ⟨_, rfl⟩ := List.cons.inj rest
      exact Or.inr ⟨⟨word, List.getLast?_concat ..⟩, balanced⟩
    | _ :: _ :: more, behind =>
      obtain ⟨rfl, rest⟩ := List.cons.inj behind
      obtain ⟨rfl, rfl⟩ := List.cons.inj rest
      exact (not_closed closed balanced).elim

end InCall

namespace CommasWithin

variable {outside : Prop} {chunk inner rest : List Piece}

theorem of_append (commas : CommasWithin outside (chunk ++ rest))
    (closed : Balanced (Piece.text chunk))
    (apart : (∀ word, chunk.getLast? ≠ some (.name word)) ∨ rest.head? ≠ some .leftParen) :
    CommasWithin outside rest := by
  rintro before after rfl
  rcases commas (chunk ++ before) after (List.append_assoc _ _ _).symm with inCall | ⟨may, balanced⟩
  · refine Or.inl (inCall.of_append closed (apart.imp_right fun noOpen => ?_))
    cases before with
    | nil => exact nofun
    | cons piece others => exact noOpen
  · rw [Piece.text_append, closed.append_iff] at balanced
    exact Or.inr ⟨may, balanced⟩

/-- Between the parentheses of a call commas may stand outside of all others, between other
parentheses they may not. -/
theorem inside (commas : CommasWithin outside (chunk ++ .leftParen :: (inner ++ rest)))
    (closed : Balanced (Piece.text chunk)) (balanced : Balanced (Piece.text inner)) :
    CommasWithin (∃ word, chunk.getLast? = some (.name word)) inner := by
  rintro before after rfl
  rcases commas (chunk ++ .leftParen :: before) (after ++ rest) (by simp) with
    inCall | ⟨_, whole⟩
  · exact inCall.of_open closed
  · rw [Piece.text_append, closed.append_iff, Balanced, Piece.text_cons, Piece.lexeme,
      List.singleton_append, openAfter_open] at whole
    rw [Piece.text_append] at balanced
    obtain ⟨more, atBefore⟩ := balanced.openAfter_left 1
    rw [show 0 + 1 = 1 from rfl, atBefore] at whole
    injection whole with same
    omega

end CommasWithin

end Placement
