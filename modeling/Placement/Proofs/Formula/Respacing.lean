import Mathlib.Logic.Relation
import Placement.Proofs.Formula.Tiling
import Placement.Proofs.Formula.Unplaced

namespace Placement

/-- Operators, commas and closing parentheses. -/
def isPunctuation (c : Char) : Bool := c == ',' || c == ')' || (Operator.ofSymbol? c).isSome

/-- The place between two texts is next to an operator, a comma or a closing parenthesis, or behind
an opening parenthesis. -/
def Loose (before after : List Char) : Prop :=
  (∃ c, before.getLast? = some c ∧ (isPunctuation c = true ∨ c = '(')) ∨
    ∃ c, after.head? = some c ∧ isPunctuation c = true

/-- One run of space replaced by another one, put in or left out. -/
inductive Respace : List Char → List Char → Prop
  | replace {before gap other after : List Char} : gap ≠ [] → other ≠ [] →
      (∀ c ∈ gap, isSpace c = true) → (∀ c ∈ other, isSpace c = true) →
      Respace (before ++ (gap ++ after)) (before ++ (other ++ after))
  | insert {before gap after : List Char} : Loose before after → (∀ c ∈ gap, isSpace c = true) →
      Respace (before ++ after) (before ++ (gap ++ after))
  | remove {before gap after : List Char} : Loose before after → (∀ c ∈ gap, isSpace c = true) →
      Respace (before ++ (gap ++ after)) (before ++ after)

/-- The characters of numbers and names. -/
def isWordChar (c : Char) : Bool := isNumberChar c || isNameChar c || isConstantChar c

/-- No word reaches over the place between two texts, and no parenthesis behind it makes a name in
front of it a call. -/
def Divided (before after : List Char) : Prop :=
  (∀ c, before.getLast? = some c → isWordChar c = false) ∨ HeadNot continues after

namespace Divided

variable {before after word behind : List Char}

theorem of_append (divided : Divided (word ++ before) after) : Divided before after := by
  rcases divided with noWord | stop
  · refine .inl fun c atLast => noWord c ?_
    rw [List.getLast?_append, atLast]
    rfl
  · exact .inr stop

theorem of_append_right (divided : Divided before (after ++ behind)) : Divided before after :=
  divided.imp_right HeadNot.of_append

theorem headNot (divided : Divided word after) (some : word ≠ [])
    (all : ∀ c ∈ word, isWordChar c = true) : HeadNot continues after := by
  rcases divided with noWord | stop
  · have inWord := all _ (List.getLast_mem some)
    rw [noWord _ (List.getLast?_eq_some_getLast some)] at inWord
    cases inWord
  · exact stop

/-- A word that begins in front of the place ends in front of it. -/
theorem split_word (divided : Divided before after) (some : before ≠ [])
    (all : ∀ c ∈ word, isWordChar c = true) (split : before ++ after = word ++ behind) :
    ∃ rest, before = word ++ rest ∧ behind = rest ++ after := by
  rcases List.append_eq_append_iff.mp split with ⟨more, rfl, rfl⟩ | ⟨rest, rfl, rfl⟩
  · cases more with
    | nil => exact ⟨[], by rw [List.append_nil, List.append_nil], rfl⟩
    | cons c more =>
      have stop := divided.headNot some fun d member => all d (List.mem_append_left _ member)
      have inWord := all c (by simp)
      have ended := stop.of_cons
      simp only [isWordChar] at inWord
      simp [continues, inWord] at ended
  · exact ⟨rest, rfl, rfl⟩

end Divided

/-- Two runs of space, and a place where either can stand. -/
structure Exchange (before gap other after : List Char) : Prop where
  spaces : ∀ c ∈ gap, isSpace c = true
  others : ∀ c ∈ other, isSpace c = true
  divided : Divided before (gap ++ after)
  dividedOther : Divided before (other ++ after)

/-- Texts that differ in one run of space, where no lexeme reaches over it. -/
inductive Respaced : List Char → List Char → Prop
  | exchange {before gap other after : List Char} : Exchange before gap other after →
      Respaced (before ++ (gap ++ after)) (before ++ (other ++ after))

theorem Respaced.refl (text : List Char) : Respaced text text :=
  @Respaced.exchange [] [] [] text ⟨List.forall_mem_nil _, List.forall_mem_nil _, .inl nofun,
    .inl nofun⟩

theorem openAfter_spaces {gap : List Char} (spaces : ∀ c ∈ gap, isSpace c = true) (depth : Nat)
    (text : List Char) : openAfter depth (gap ++ text) = openAfter depth text := by
  rw [openAfter_append, (balanced_of_spaces spaces).openAfter, Option.bind_some]

theorem balanced_spaces {before gap after : List Char} (spaces : ∀ c ∈ gap, isSpace c = true) :
    Balanced (before ++ (gap ++ after)) ↔ Balanced (before ++ after) := by
  unfold Balanced
  rw [openAfter_append, openAfter_append]
  simp only [openAfter_spaces spaces]

/-- A parenthesis in a text stands in front of a run of space in it, or behind it. -/
theorem split_close {before gap after inside behind : List Char}
    (spaces : ∀ c ∈ gap, isSpace c = true)
    (split : before ++ (gap ++ after) = inside ++ ')' :: behind) :
    (∃ rest, before = inside ++ ')' :: rest ∧ behind = rest ++ (gap ++ after)) ∨
      ∃ rest, inside = before ++ (gap ++ rest) ∧ after = rest ++ ')' :: behind := by
  have noSpace : isSpace ')' ≠ true := by decide
  rcases List.append_eq_append_iff.mp split with ⟨more, rfl, atGap⟩ | ⟨rest, rfl, atClose⟩
  · rcases List.append_eq_append_iff.mp atGap with ⟨rest, rfl, rfl⟩ | ⟨rest, rfl, atClose⟩
    · exact .inr ⟨rest, rfl, rfl⟩
    · cases rest with
      | nil => exact .inr ⟨[], by rw [List.append_nil, List.append_nil], atClose.symm⟩
      | cons c rest =>
        obtain ⟨rfl, _⟩ := List.cons.inj atClose
        exact absurd (spaces ')' (by simp)) noSpace
  · cases rest with
    | cons c rest =>
      obtain ⟨rfl, rfl⟩ := List.cons.inj atClose
      exact .inl ⟨rest, rfl, rfl⟩
    | nil =>
      cases gap with
      | nil => exact .inr ⟨[], by simp, atClose.symm⟩
      | cons c gap =>
        obtain ⟨rfl, _⟩ := List.cons.inj atClose
        exact absurd (spaces ')' List.mem_cons_self) noSpace

namespace Exchange

variable {before gap other after : List Char}

theorem of_append {word : List Char} (exchange : Exchange (word ++ before) gap other after) :
    Exchange before gap other after :=
  ⟨exchange.spaces, exchange.others, exchange.divided.of_append, exchange.dividedOther.of_append⟩

theorem of_append_right {behind : List Char}
    (exchange : Exchange before gap other (after ++ behind)) : Exchange before gap other after := by
  obtain ⟨spaces, others, divided, dividedOther⟩ := exchange
  rw [← List.append_assoc] at divided dividedOther
  exact ⟨spaces, others, divided.of_append_right, dividedOther.of_append_right⟩

theorem unclosed (exchange : Exchange before gap other after)
    (none : Unclosed (before ++ (gap ++ after))) : Unclosed (before ++ (other ++ after)) := by
  intro inside behind split balanced
  rcases split_close exchange.others split with ⟨rest, rfl, rfl⟩ | ⟨rest, rfl, rfl⟩
  · exact none inside (rest ++ (gap ++ after)) (by simp) balanced
  · refine none (before ++ (gap ++ rest)) behind (by simp) ?_
    rw [balanced_spaces exchange.spaces]
    exact (balanced_spaces exchange.others).mp balanced

/-- A word in front of the place ends where it did. -/
theorem ends {token : Token} {rest : List Char}
    (exchange : Exchange (token.lexeme ++ rest) gap other after) (some : token.lexeme ≠ [])
    (all : ∀ c ∈ token.lexeme, isWordChar c = true) (ends : token.Ends (rest ++ (gap ++ after))) :
    token.Ends (rest ++ (other ++ after)) := by
  cases rest with
  | nil =>
    rw [List.append_nil] at exchange
    exact .of_headNot (exchange.dividedOther.headNot some all)
  | cons c rest => exact ends.of_cons _

/-- The parenthesis behind a name stands in front of the place. -/
theorem split_name {name behind : List Char} (exchange : Exchange before gap other after)
    (some : before ≠ []) (someName : name ≠ []) (all : ∀ c ∈ name, isWordChar c = true)
    (split : before ++ (gap ++ after) = name ++ '(' :: behind) :
    ∃ rest, before = name ++ '(' :: rest ∧ behind = rest ++ (gap ++ after) := by
  obtain ⟨rest, rfl, atOpen⟩ := exchange.divided.split_word some all split
  cases rest with
  | nil =>
    rw [List.append_nil] at exchange
    have stop := exchange.divided.headNot someName all
    rw [List.nil_append] at atOpen
    rw [← atOpen] at stop
    exact absurd stop.of_cons (by decide)
  | cons c rest =>
    obtain ⟨rfl, rfl⟩ := List.cons.inj atOpen
    exact ⟨rest, rfl, rfl⟩

end Exchange

theorem isWordChar_of_number (c : Char) (inside : isNumberChar c = true) :
    isWordChar c = true := by
  simp [isWordChar, inside]

theorem isWordChar_of_name (c : Char) (inside : isNameChar c = true) : isWordChar c = true := by
  simp [isWordChar, inside]

theorem isWordChar_of_constant (c : Char) (inside : isConstantChar c = true) :
    isWordChar c = true := by
  simp [isWordChar, inside]

namespace Exchange

variable {before gap other after : List Char}

/-- Where no token is read with one run of space, none is read with the other. -/
theorem unreadable (exchange : Exchange before gap other after) (some : before ≠ [])
    {cause : LexicalError} {offset : Nat}
    (unreadable : Unreadable (before ++ (gap ++ after)) cause offset) :
    Unreadable (before ++ (other ++ after)) cause offset := by
  generalize whole : before ++ (gap ++ after) = text at unreadable
  cases unreadable with
  | character none =>
    obtain ⟨c, rest, rfl⟩ := List.exists_cons_of_ne_nil some
    cases whole
    exact .character none
  | @number digits behind word points stop =>
    have all := fun c member =>
      isWordChar_of_number c (word.all isNumberChar_of_isDigit c member)
    obtain ⟨rest, rfl, rfl⟩ := exchange.divided.split_word some all whole
    have ends : (Token.number digits).Ends (rest ++ (other ++ after)) :=
      exchange.ends word.ne_nil all stop
    rw [List.append_assoc]
    exact .number word points ends
  | call word none =>
    have all := fun c member => isWordChar_of_name c (word.all isNameChar_of_isLower c member)
    obtain ⟨rest, rfl, rfl⟩ := exchange.split_name some word.ne_nil all whole
    rw [List.append_assoc]
    rw [← List.singleton_append, ← List.append_assoc] at exchange
    exact .call word (exchange.of_append.unclosed none)

/-- A token that is read with one run of space is read with the other, or it is a call with the
space in its arguments. -/
theorem lexeme (exchange : Exchange before gap other after) (some : before ≠ []) {token : Token}
    {behind : List Char} (valid : token.Valid) (ends : token.Ends behind)
    (split : before ++ (gap ++ after) = token.lexeme ++ behind) :
    (∃ rest, before = token.lexeme ++ rest ∧ behind = rest ++ (gap ++ after) ∧
        token.Ends (rest ++ (other ++ after))) ∨
      ∃ name arguments others, token = .call name arguments ∧ Respaced arguments others ∧
        Balanced others ∧ before ++ (other ++ after) = (Token.call name others).lexeme ++ behind := by
  have ofWord (all : ∀ c ∈ token.lexeme, isWordChar c = true) :
      ∃ rest, before = token.lexeme ++ rest ∧ behind = rest ++ (gap ++ after) ∧
        token.Ends (rest ++ (other ++ after)) := by
    obtain ⟨rest, rfl, rfl⟩ := exchange.divided.split_word some all split
    exact ⟨rest, rfl, rfl, exchange.ends valid.lexeme_ne_nil all ends⟩
  cases token with
  | number digits =>
    exact .inl (ofWord fun c member =>
      isWordChar_of_number c (valid.1.all isNumberChar_of_isDigit c member))
  | identifier name =>
    exact .inl (ofWord fun c member =>
      isWordChar_of_name c (IsWord.all valid isNameChar_of_isLower c member))
  | constant name =>
    exact .inl (ofWord fun c member =>
      isWordChar_of_constant c (IsWord.all valid isConstantChar_of_isUpper c member))
  | operator | leftParen | rightParen | comma =>
    obtain ⟨c, rest, rfl⟩ := List.exists_cons_of_ne_nil some
    obtain ⟨rfl, rfl⟩ := List.cons.inj split
    exact .inl ⟨rest, rfl, rfl, trivial⟩
  | call name arguments =>
    obtain ⟨word, balanced⟩ := valid
    have all := fun c member => isWordChar_of_name c (word.all isNameChar_of_isLower c member)
    simp only [Token.lexeme, List.append_assoc, List.singleton_append] at split
    obtain ⟨inner, rfl, atClose⟩ := exchange.split_name some word.ne_nil all split
    rcases split_close exchange.spaces atClose.symm with ⟨rest, rfl, rfl⟩ | ⟨rest, rfl, rfl⟩
    · exact .inl ⟨rest, by simp [Token.lexeme], rfl, trivial⟩
    · refine .inr ⟨name, inner ++ (gap ++ rest), inner ++ (other ++ rest), rfl, ?_, ?_, ?_⟩
      · rw [← List.singleton_append, ← List.append_assoc] at exchange
        exact .exchange exchange.of_append.of_append_right
      · rw [balanced_spaces exchange.others]
        exact (balanced_spaces exchange.spaces).mp balanced
      · simp [Token.lexeme]

end Exchange

/-- The tokens are the same in front of the exchanged space and behind it. Token by token, less text
stands in front of the space, up to the call or the error that reaches over it. -/
theorem Exchange.scanFrom {gap other after : List Char} : ∀ {before : List Char}
    (_ : Exchange before gap other after) (position place : Nat),
    (scanFrom position (before ++ (gap ++ after))).Alike Respaced
      (Placement.scanFrom place (before ++ (other ++ after)))
  | [], exchange, position, place => by
    rw [List.nil_append, List.nil_append, scanFrom_spaces exchange.spaces,
      scanFrom_spaces exchange.others]
    exact scanFrom_alike Respaced.refl _ _ after
  | c :: rest, exchange, position, place => by
    by_cases space : isSpace c = true
    · rw [List.cons_append, List.cons_append, scanFrom_space space, scanFrom_space space]
      have behind : Exchange ([c] ++ rest) gap other after := exchange
      exact scanFrom behind.of_append _ _
    cases read : readToken c (rest ++ (gap ++ after)) with
    | error stop =>
      obtain ⟨cause, offset⟩ := stop
      have unreadable := exchange.unreadable (List.cons_ne_nil c rest)
        (readToken_eq_error_iff.mp read)
      rw [List.cons_append] at unreadable
      rw [List.cons_append, List.cons_append, scanFrom_error space read,
        scanFrom_error space (readToken_eq_error_iff.mpr unreadable)]
      exact .stops cause _ _
    | ok found =>
      obtain ⟨token, behind⟩ := found
      obtain ⟨split, valid, ends⟩ := readToken_eq_ok_iff.mp read
      rcases exchange.lexeme (List.cons_ne_nil c rest) valid ends split.symm with
        ⟨later, split', rfl, endsOther⟩ |
        ⟨name, arguments, others, rfl, respaced, balanced, split'⟩
      · rw [split', List.append_assoc, List.append_assoc, scanFrom_lexeme valid ends,
          scanFrom_lexeme valid endsOther]
        rw [split'] at exchange
        have shorter : later.length < (c :: rest).length := by
          rw [split', List.length_append]
          have := List.length_pos_iff.mpr valid.lexeme_ne_nil
          omega
        exact .token (.refl Respaced.refl token) _ _ (scanFrom exchange.of_append _ _)
      -- The space is in the arguments of a call, and the text behind the call stays as it is.
      · have validOther : (Token.call name others).Valid := ⟨valid.1, balanced⟩
        rw [List.cons_append, ← split, split', scanFrom_lexeme valid trivial,
          scanFrom_lexeme validOther trivial]
        exact .token (.call respaced) _ _ (scanFrom_alike Respaced.refl _ _ behind)
termination_by before => before.length
decreasing_by
  · exact Nat.lt_succ_self _
  · exact shorter

theorem readAlike_respaced : ReadAlike Respaced where
  scan := by
    rintro _ _ ⟨exchange⟩
    exact exchange.scanFrom 0 0
  blank := by
    rintro _ _ ⟨exchange⟩
    have blank {gap : List Char} (spaces : ∀ c ∈ gap, isSpace c = true) :
        gap.all isBlank = true := by
      rw [List.all_eq_true]
      exact fun c member => isBlank_of_isSpace (spaces c member)
    simp only [List.all_append, blank exchange.spaces, blank exchange.others]

theorem headNot_spaces {gap : List Char} (some : gap ≠ []) (spaces : ∀ c ∈ gap, isSpace c = true)
    (after : List Char) : HeadNot continues (gap ++ after) := by
  obtain ⟨c, rest, rfl⟩ := List.exists_cons_of_ne_nil some
  exact .cons (continues_eq_false_of_isSpace (spaces c List.mem_cons_self)) _

theorem continues_eq_false_of_isPunctuation {c : Char} (punctuation : isPunctuation c = true) :
    continues c = false := by
  simp only [isPunctuation, Bool.or_eq_true, beq_iff_eq, Option.isSome_iff_exists] at punctuation
  rcases punctuation with (rfl | rfl) | ⟨op, symbol⟩
  · decide
  · decide
  · rw [Operator.ofSymbol?_eq_some_iff.mp symbol]
    cases op <;> decide

theorem isWordChar_eq_false {c : Char} (no : continues c = false) : isWordChar c = false :=
  (Bool.or_eq_false_iff.mp no).1

theorem Loose.divided {before after : List Char} (loose : Loose before after) :
    Divided before after := by
  rcases loose with ⟨c, atLast, beside⟩ | ⟨c, atHead, punctuation⟩
  · have noWord : isWordChar c = false := by
      rcases beside with punctuation | rfl
      · exact isWordChar_eq_false (continues_eq_false_of_isPunctuation punctuation)
      · decide
    refine .inl fun d again => ?_
    rw [atLast] at again
    cases again
    exact noWord
  · refine .inr fun d again => ?_
    rw [atHead] at again
    cases again
    exact continues_eq_false_of_isPunctuation punctuation

/-- Where no space is needed, some does no harm. -/
theorem Loose.divided_spaces {before gap after : List Char} (loose : Loose before after)
    (spaces : ∀ c ∈ gap, isSpace c = true) : Divided before (gap ++ after) := by
  rcases eq_or_ne gap [] with rfl | some
  · exact loose.divided
  · exact .inr (headNot_spaces some spaces after)

theorem Respace.respaced {text other : List Char} (respace : Respace text other) :
    Respaced text other := by
  cases respace with
  | @replace before gap other after some someOther spaces others =>
    exact .exchange ⟨spaces, others, .inr (headNot_spaces some spaces after),
      .inr (headNot_spaces someOther others after)⟩
  | @insert before gap after loose spaces =>
    exact @Respaced.exchange before [] gap after
      ⟨List.forall_mem_nil _, spaces, loose.divided, loose.divided_spaces spaces⟩
  | @remove before gap after loose spaces =>
    exact @Respaced.exchange before gap [] after
      ⟨spaces, List.forall_mem_nil _, loose.divided_spaces spaces, loose.divided⟩

/-- How space is set between tokens does not matter: a formula has the same nodes, or the same error
in another place. -/
theorem parse_respaced {text other : List Char} (respaced : Relation.ReflTransGen Respace text other)
    (limits : Limits) : UpToPlace Eq (parse limits text) (parse limits other) := by
  induction respaced with
  | refl => exact .refl _
  | tail _ respace ih => exact ih.trans (readAlike_respaced.parse limits respace.respaced)

theorem parse_call_with_spaces :
    UpToPlace Eq (parse {} "2*max(1,x) - y".toList) (parse {} "2 *max( 1,x)\t- y".toList) := by
  have blank : ∀ c ∈ [' '], isSpace c = true := List.forall_mem_singleton.mpr rfl
  have tab : ∀ c ∈ ['\t'], isSpace c = true := List.forall_mem_singleton.mpr rfl
  have atOperator : Respace "2*max(1,x) - y".toList "2 *max(1,x) - y".toList :=
    @Respace.insert "2".toList [' '] "*max(1,x) - y".toList (.inr ⟨'*', rfl, rfl⟩) blank
  have atOpening : Respace "2 *max(1,x) - y".toList "2 *max( 1,x) - y".toList :=
    @Respace.insert "2 *max(".toList [' '] "1,x) - y".toList (.inl ⟨'(', rfl, .inr rfl⟩) blank
  have between : Respace "2 *max( 1,x) - y".toList "2 *max( 1,x)\t- y".toList :=
    @Respace.replace "2 *max( 1,x)".toList [' '] ['\t'] "- y".toList
      (List.cons_ne_nil _ _) (List.cons_ne_nil _ _) blank tab
  exact parse_respaced (((Relation.ReflTransGen.single atOperator).tail atOpening).tail between) {}

end Placement
