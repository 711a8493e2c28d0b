import Placement.Proofs.Formula.Piece
import Placement.Proofs.Formula.Replacement
import Placement.Proofs.Formula.Sentence
import Placement.Proofs.Formula.Writing

namespace Placement

/-- What is asked of a text. None of it depends on how the text is read. -/
structure Acceptable (text : List Char) : Prop where
  written : ∃ c ∈ text, isBlank c = false
  balanced : Balanced text
  cut : ∃ pieces, Piece.text pieces = text ∧ Cut pieces ∧ ConstantsKnown pieces ∧
    ∀ before after, pieces = before ++ .comma :: after → InCall before

/-- A text in which calls are nested `depth` deep somewhere. -/
inductive Nests : Nat → List Char → Prop
  | zero (text : List Char) : Nests 0 text
  | call {depth : Nat} {name inside : List Char} (before after : List Char) :
      IsWord Char.isLower isNameChar name → Balanced inside → Nests depth inside →
      Nests (depth + 1) (before ++ (name ++ '(' :: (inside ++ ')' :: after)))

namespace Nests

variable {depth : Nat} {text : List Char}

theorem within (nests : Nests depth text) (before after : List Char) :
    Nests depth (before ++ (text ++ after)) := by
  cases nests with
  | zero => exact .zero _
  | @call depth name inside front behind word balanced inner =>
    have wider := Nests.call (before ++ front) (behind ++ after) word balanced inner
    simpa only [List.append_assoc, List.cons_append] using wider

/-- Each call has a parenthesis of its own. -/
theorem le_count (nests : Nests depth text) : depth ≤ text.count '(' := by
  induction nests with
  | zero => exact Nat.zero_le _
  | call _ _ _ _ _ ih =>
    simp only [List.count_append, List.count_cons_self]
    omega

theorem of_call {name : String} {arguments : List Char}
    (valid : (Token.call name arguments).Valid) (nests : Nests depth arguments) :
    Nests (depth + 1) (Token.call name arguments).lexeme := by
  have alone := Nests.call [] [] valid.1 valid.2 nests
  simpa only [Token.lexeme, List.nil_append, List.append_assoc, List.cons_append] using alone

end Nests

/-- Pieces that a token is cut into. -/
structure Spells (token : Token) (chunk : List Piece) : Prop where
  text : Piece.text chunk = token.lexeme
  known : ConstantsKnown chunk
  commas : ∀ before after, chunk = before ++ .comma :: after →
    InCall before ∨ token = .comma ∧ before = []
  cut : ∀ {rest : List Piece}, token.Ends (Piece.text rest) → Cut rest → Cut (chunk ++ rest)

/-- A piece that is a token by itself. -/
theorem Spells.single {token : Token} {piece : Piece} (text : piece.lexeme = token.lexeme)
    (known : ∀ name, piece = .constant name → name = "PI" ∨ name = "EPSILON")
    (comma : piece = .comma → token = .comma) (valid : piece.Valid)
    (ends : ∀ after, token.Ends after → piece.Ends after) : Spells token [piece] where
  text := by rw [Piece.text_cons, Piece.text_nil, List.append_nil, text]
  known := fun name member => known name (List.mem_singleton.mp member).symm
  commas := by
    intro before after same
    cases before with
    | nil => exact Or.inr ⟨comma (List.cons.inj same).1, rfl⟩
    | cons other more => simp at same
  cut := fun stop cut => .cons valid (ends _ stop) cut

/-- A call is spelled by its name, its parentheses and what its arguments are cut into. -/
theorem Spells.call {name : String} {inner : List Piece}
    (word : IsWord Char.isLower isNameChar name.toList) (cutInner : Cut inner)
    (known : ConstantsKnown inner) (commas : CommasWithin True inner) :
    Spells (.call name (Piece.text inner)) (.name name :: .leftParen :: (inner ++ [.rightParen])) where
  text := by simp [Token.lexeme, Piece.lexeme]
  known := by
    intro constant member
    refine known constant ?_
    simpa using member
  commas := by
    intro before after same
    rcases before with _ | ⟨first, _ | ⟨second, others⟩⟩
    · cases same
    · cases (List.cons.inj same).2
    · obtain ⟨rfl, behind⟩ := List.cons.inj same
      obtain ⟨rfl, atInner⟩ := List.cons.inj behind
      rcases List.append_eq_append_iff.mp atInner with ⟨gap, _, last⟩ | ⟨gap, rfl, last⟩
      · cases gap <;> simp at last
      · cases gap with
        | nil => simp at last
        | cons piece gap =>
          obtain ⟨rfl, _⟩ := List.cons.inj last
          rcases commas others gap rfl with inCall | ⟨_, balanced⟩
          · exact Or.inl (inCall.append_left [.name name, .leftParen])
          · exact Or.inl ⟨[], name, others, rfl, balanced⟩
  cut := by
    intro rest _ cut
    have close : Cut (.rightParen :: rest) := .cons trivial trivial cut
    have stop : HeadNot continues (Piece.text (.rightParen :: rest)) := .cons rfl _
    have inside := cutInner.append stop close
    have whole : Cut (.name name :: .leftParen :: (inner ++ .rightParen :: rest)) :=
      .cons word (.cons rfl _) (.cons trivial trivial inside)
    simpa only [List.cons_append, List.append_assoc, List.nil_append] using whole

/-- The argument of a call is blank, or can be cut into pieces. -/
def ArgumentsCut (arguments : List Char) : Prop :=
  arguments.all isBlank = true ∨ ∃ inner, Piece.text inner = arguments ∧ Cut inner ∧
    ConstantsKnown inner ∧ CommasWithin True inner

theorem Token.Valid.spells {token : Token} (valid : token.Valid)
    (known : ∀ name, token = .constant name → name = "PI" ∨ name = "EPSILON")
    (arguments : ∀ name text, token = .call name text → ArgumentsCut text) :
    ∃ chunk, Spells token chunk := by
  cases token with
  | number digits => exact ⟨[.number digits], .single rfl nofun nofun valid fun _ ends => ends⟩
  | identifier name =>
    refine ⟨[.name name], .single rfl nofun nofun valid fun _ ends => ?_⟩
    exact ends.mono fun c no => (Bool.or_eq_false_iff.mp no).1
  | constant name =>
    refine ⟨[.constant name], .single rfl ?_ nofun valid fun _ ends => ends⟩
    rintro other ⟨⟩
    exact known name rfl
  | operator op => exact ⟨[.operator op], .single rfl nofun nofun trivial fun _ _ => trivial⟩
  | leftParen => exact ⟨[.leftParen], .single rfl nofun nofun trivial fun _ _ => trivial⟩
  | rightParen => exact ⟨[.rightParen], .single rfl nofun nofun trivial fun _ _ => trivial⟩
  | comma => exact ⟨[.comma], .single rfl nofun (fun _ => rfl) trivial fun _ _ => trivial⟩
  | call name text =>
    rcases arguments name text rfl with blank | ⟨inner, rfl, cut, known, commas⟩
    · refine ⟨[.emptyCall name text], .single ?_ nofun nofun ⟨valid.1, blank⟩ fun _ _ => trivial⟩
      simp [Piece.lexeme, Token.lexeme]
    · exact ⟨_, .call valid.1 cut known commas⟩

/-- Every comma is in a call, or is a token. -/
def CommasAre (tokens : List Token) (pieces : List Piece) : Prop :=
  ∀ before after, pieces = before ++ .comma :: after → InCall before ∨
    ∃ front back, tokens = front ++ .comma :: back ∧
      ∀ depth, openAfter depth (Piece.text before) = openAfter depth (front.flatMap Token.lexeme)

theorem CommasAre.space {tokens : List Token} {pieces : List Piece} {c : Char}
    (space : isSpace c = true) (commas : CommasAre tokens pieces) :
    CommasAre tokens (.space c :: pieces) := by
  intro before after same
  cases before with
  | nil => cases same
  | cons piece others =>
    obtain ⟨rfl, rfl⟩ := List.cons.inj same
    rcases commas others after rfl with inCall | ⟨front, back, split, nested⟩
    · exact Or.inl (inCall.append_left [.space c])
    · refine Or.inr ⟨front, back, split, fun depth => ?_⟩
      have plain : IsPlain c := ⟨ne_of_class space rfl, ne_of_class space rfl⟩
      rw [Piece.text_cons, Piece.lexeme, List.singleton_append, openAfter_plain plain, nested]

theorem CommasAre.token {tokens : List Token} {chunk pieces : List Piece} {token : Token}
    (spells : Spells token chunk) (commas : CommasAre tokens pieces) :
    CommasAre (token :: tokens) (chunk ++ pieces) := by
  intro before after same
  rcases List.append_eq_append_iff.mp same with ⟨others, rfl, behind⟩ | ⟨others, inChunk, behind⟩
  · rcases commas others after behind with inCall | ⟨front, back, split, nested⟩
    · exact Or.inl (inCall.append_left chunk)
    · refine Or.inr ⟨token :: front, back, congrArg _ split, fun depth => ?_⟩
      rw [Piece.text_append, spells.text, List.flatMap_cons, openAfter_append, openAfter_append]
      exact congrArg _ (funext nested)
  · cases others with
    | nil =>
      rw [List.append_nil] at inChunk
      subst inChunk
      rcases commas [] after behind.symm with inCall | ⟨front, back, split, nested⟩
      · rw [← List.append_nil chunk]
        exact Or.inl (inCall.append_left chunk)
      · refine Or.inr ⟨token :: front, back, congrArg _ split, fun depth => ?_⟩
        rw [spells.text, List.flatMap_cons, openAfter_append, ← funext nested]
        simp [openAfter]
    | cons piece others =>
      obtain ⟨rfl, _⟩ := List.cons.inj behind
      rcases spells.commas before others inChunk with inCall | ⟨rfl, rfl⟩
      · exact Or.inl inCall
      · exact Or.inr ⟨[], tokens, rfl, fun _ => rfl⟩

/-- Pieces of a text, from its tokens. -/
theorem Lexes.cut {text : List Char} {tokens : List Token} (lexes : Lexes text tokens)
    (known : ∀ name, .constant name ∈ tokens → name = "PI" ∨ name = "EPSILON")
    (arguments : ∀ name inside, .call name inside ∈ tokens → ArgumentsCut inside) :
    ∃ pieces, Piece.text pieces = text ∧ Cut pieces ∧ ConstantsKnown pieces ∧
      CommasAre tokens pieces := by
  induction lexes with
  | nil => exact ⟨[], rfl, .nil, nofun, fun before after same => by simp at same⟩
  | @space c rest tokens space _ ih =>
    obtain ⟨pieces, rfl, cut, atPieces, commas⟩ := ih known arguments
    refine ⟨.space c :: pieces, rfl, .cons space trivial cut, fun name member => ?_,
      commas.space space⟩
    exact atPieces name ((List.mem_cons.mp member).resolve_left nofun)
  | @token token rest tokens valid ends _ ih =>
    obtain ⟨pieces, rfl, cut, atPieces, commas⟩ :=
      ih (fun name member => known name (List.mem_cons_of_mem _ member))
        (fun name inside member => arguments name inside (List.mem_cons_of_mem _ member))
    obtain ⟨chunk, spells⟩ := valid.spells
      (by rintro name rfl; exact known name List.mem_cons_self)
      (by rintro name inside rfl; exact arguments name inside List.mem_cons_self)
    refine ⟨chunk ++ pieces, ?_, spells.cut ends cut, fun name member => ?_, commas.token spells⟩
    · rw [Piece.text_append, spells.text]
    · rcases List.mem_append.mp member with inChunk | inRest
      · exact spells.known name inChunk
      · exact atPieces name inRest

/-- Commas between items are outside of all parentheses. -/
theorem Parted.balanced_before_comma {call : CallReader} {tokens front back : List Token}
    {parts : List (List Item)} (parted : Parted call.operand? tokens parts)
    (valid : ∀ token ∈ tokens, token.Valid) (split : tokens = front ++ .comma :: back) :
    1 < parts.length ∧ Balanced (front.flatMap Token.lexeme) := by
  induction parted generalizing front with
  | last grouped =>
    subst split
    exact absurd (by simp) grouped.comma_notMem
  | @more first rest items parts grouped behind ih =>
    have several : 1 < (items :: parts).length := by
      cases behind <;> simp
    have validFirst : ∀ token ∈ first, token.Valid := fun token member => valid token (by simp [member])
    refine ⟨several, ?_⟩
    rcases List.append_eq_append_iff.mp split with ⟨gap, rfl, same⟩ | ⟨gap, inFirst, same⟩
    · cases gap with
      | nil =>
        rw [List.append_nil]
        exact grouped.openAfter_lexemes validFirst 0
      | cons token gap =>
        obtain ⟨rfl, atRest⟩ := List.cons.inj same
        have inRest := (ih (fun token member => valid token (by simp [member])) atRest).2
        rw [List.flatMap_append, Balanced.append_iff (grouped.openAfter_lexemes validFirst 0),
          Balanced, List.flatMap_cons, openAfter_append]
        exact inRest
    · cases gap with
      | nil =>
        rw [List.append_nil] at inFirst
        subst inFirst
        exact grouped.openAfter_lexemes validFirst 0
      | cons token gap =>
        obtain ⟨rfl, _⟩ := List.cons.inj same
        exact absurd (inFirst ▸ by simp) grouped.comma_notMem

/-- A text that is read can be cut. Its commas are in calls, or between its sequences. -/
theorem cut_of_sequences {limits : Limits} {levels depth : Nat} {text : List Char}
    {found : List (List Node)} (read : sequences limits levels depth text = .ok found) :
    Balanced text ∧ ∃ pieces, Piece.text pieces = text ∧ Cut pieces ∧ ConstantsKnown pieces ∧
      CommasWithin (1 < found.length) pieces := by
  induction levels using Nat.strongRecOn generalizing depth text found with
  | ind levels ih =>
    obtain ⟨tokens, parts, lexes, parted, rfl⟩ := Limits.sequences_eq_ok_iff.mp read
    have known : ∀ name, .constant name ∈ tokens → name = "PI" ∨ name = "EPSILON" := by
      intro name member
      obtain ⟨node, isOperand⟩ := parted.operand_of_mem member rfl
      obtain ⟨value, found, _⟩ := Option.map_eq_some_iff.mp isOperand
      exact Builtin.constant?_isSome_iff.mp ⟨value, found⟩
    have arguments : ∀ name inside, .call name inside ∈ tokens → ArgumentsCut inside := by
      intro name inside member
      obtain ⟨node, isOperand⟩ := parted.operand_of_mem member rfl
      obtain ⟨_, inner, within, rfl, rfl, readInside⟩ :=
        Limits.reader_eq_ok_iff.mp (Limits.operand?_call_iff.mp isOperand)
      split at readInside
      · rename_i blank
        exact Or.inl blank
      · obtain ⟨_, pieces, same, cut, known, commas⟩ := ih inner (Nat.lt_succ_self inner) readInside
        exact Or.inr ⟨pieces, same, cut, known, fun before after split =>
          (commas before after split).imp_right fun outside => ⟨trivial, outside.2⟩⟩
    obtain ⟨pieces, same, cut, atPieces, commas⟩ := lexes.cut known arguments
    refine ⟨parted.balanced lexes, pieces, same, cut, atPieces, fun before after split => ?_⟩
    rcases commas before after split with inCall | ⟨front, back, inTokens, nested⟩
    · exact Or.inl inCall
    · obtain ⟨several, balanced⟩ := parted.balanced_before_comma lexes.valid inTokens
      refine Or.inr ⟨by rwa [List.length_map], ?_⟩
      rw [Balanced, nested]
      exact balanced

theorem acceptable_of_parse {limits : Limits} {text : List Char} {nodes : List Node}
    (parsed : parse limits text = .ok nodes) : Acceptable text := by
  obtain ⟨notBlank, read⟩ := Limits.parse_eq_ok_iff.mp parsed
  obtain ⟨c, member, written⟩ := List.all_eq_false.mp notBlank
  obtain ⟨balanced, pieces, same, cut, known, commas⟩ := cut_of_sequences read
  refine ⟨⟨c, member, Bool.eq_false_iff.mpr written⟩, balanced, pieces, same, cut, known, ?_⟩
  intro before after split
  exact (commas before after split).resolve_right fun outside => absurd outside.1 (by simp)

/-- A text is read as items between commas, and has no comma if none may stand outside of
parentheses. -/
def Reads (call : CallReader) (outside : Prop) (text : List Char) : Prop :=
  ∃ tokens parts, Lexes text tokens ∧ Parted call.operand? tokens parts ∧
    (¬ outside → parts.length = 1)

namespace Reads

variable {reader : CallReader} {outside : Prop} {text : List Char}

theorem nil : Reads reader outside [] := ⟨[], _, .nil, .last .nil, fun _ => rfl⟩

theorem space {c : Char} (space : isSpace c = true) (reads : Reads reader outside text) :
    Reads reader outside (c :: text) := by
  obtain ⟨tokens, parts, lexes, parted, single⟩ := reads
  exact ⟨tokens, parts, .space space lexes, parted, single⟩

theorem comma (may : outside) (reads : Reads reader outside text) :
    Reads reader outside (',' :: text) := by
  obtain ⟨tokens, parts, lexes, parted, _⟩ := reads
  exact ⟨.comma :: tokens, [] :: parts, lexes.comma, .more .nil parted, fun no => absurd may no⟩

/-- Items can be put before what is read. -/
theorem prepend {front : List Char} {first : List Token} {items : List Item}
    (reads : Reads reader outside text) (grouped : Grouped reader.operand? first items)
    (lexes : ∀ {tokens : List Token}, Lexes text tokens → Lexes (front ++ text) (first ++ tokens)) :
    Reads reader outside (front ++ text) := by
  obtain ⟨tokens, parts, behind, parted, single⟩ := reads
  obtain ⟨all, together, length⟩ := grouped.append_parted parted
  exact ⟨first ++ tokens, all, lexes behind, together, fun no => length.trans (single no)⟩

theorem operand (token : Token) {node : Node} (reads : Reads reader outside text)
    (isOperand : reader.operand? token = some node) (valid : token.Valid) (ends : token.Ends text) :
    Reads reader outside (token.lexeme ++ text) :=
  reads.prepend (.operand isOperand .nil) fun lexes => .token valid ends lexes

theorem operator (op : Operator) (reads : Reads reader outside text) :
    Reads reader outside (op.symbol :: text) := by
  have read : Reads reader outside ([op.symbol] ++ text) :=
    reads.prepend (.operator op .nil) fun lexes => lexes.operator op
  exact read

theorem group {inner : List Char} (reads : Reads reader outside text)
    (inside : Reads reader False inner) :
    Reads reader outside ('(' :: (inner ++ ')' :: text)) := by
  obtain ⟨tokens, parts, lexesInner, parted, single⟩ := inside
  cases parted with
  | more _ behind => cases behind <;> cases single id
  | last grouped =>
    have read : Reads reader outside ('(' :: (inner ++ [')']) ++ text) :=
      reads.prepend (.group grouped .nil) fun lexes => by
        have close := lexesInner.append (.cons rfl _) lexes.rightParen
        simpa only [List.cons_append, List.append_assoc, List.nil_append] using close.leftParen
    simpa only [List.cons_append, List.append_assoc, List.nil_append] using read

/-- A call is read where its arguments are blank or read one level further in. -/
theorem call {most levels depth : Nat} {name : String} {inner : List Char}
    (reads : Reads (Limits.reader { levels := most } (levels + 1) depth) outside text)
    (word : IsWord Char.isLower isNameChar name.toList) (balanced : Balanced inner)
    (inside : inner.all isBlank = false →
      ∃ any, Reads (Limits.reader { levels := most } levels (depth + 1)) any inner) :
    Reads (Limits.reader { levels := most } (levels + 1) depth) outside
      ((Token.call name inner).lexeme ++ text) := by
  have isOperand : ∃ node,
      (Limits.reader { levels := most } (levels + 1) depth).operand? (.call name inner) = some node := by
    by_cases blank : inner.all isBlank = true
    · refine ⟨.call name [], Limits.operand?_call_iff.mpr (Limits.reader_eq_ok_iff.mpr
        ⟨Limits.unlimited_allows _ _, levels, [], rfl, rfl, ?_⟩)⟩
      rw [if_pos blank]
    · obtain ⟨_, tokens, parts, lexes, parted, _⟩ := inside (Bool.eq_false_iff.mpr blank)
      refine ⟨.call name (parts.map Item.arrange), Limits.operand?_call_iff.mpr
        (Limits.reader_eq_ok_iff.mpr ⟨Limits.unlimited_allows _ _, levels, _, rfl, rfl, ?_⟩)⟩
      rw [if_neg blank]
      exact Limits.sequences_eq_ok_iff.mpr ⟨tokens, parts, lexes, parted, rfl⟩
  obtain ⟨node, isOperand⟩ := isOperand
  exact reads.operand _ isOperand ⟨word, balanced⟩ trivial

end Reads

/-- Pieces in which parentheses pair up, commas are where they may stand, constants are known and
calls nest no deeper than they may. -/
structure Readable (levels : Nat) (outside : Prop) (pieces : List Piece) : Prop where
  cut : Cut pieces
  balanced : Balanced (Piece.text pieces)
  known : ConstantsKnown pieces
  commas : CommasWithin outside pieces
  within : ¬ Nests (levels + 1) (Piece.text pieces)

namespace Readable

variable {levels : Nat} {outside : Prop} {inner rest : List Piece} {piece : Piece}

/-- What stands behind something that is closed. -/
theorem behind (chunk : List Piece) (readable : Readable levels outside (chunk ++ rest))
    (closed : Balanced (Piece.text chunk))
    (apart : (∀ word, chunk.getLast? ≠ some (.name word)) ∨ rest.head? ≠ some .leftParen) :
    Readable levels outside rest where
  cut := readable.cut.of_append.2
  balanced := by
    have whole := readable.balanced
    rwa [Piece.text_append, closed.append_iff] at whole
  known := fun name member => readable.known name (List.mem_append_right _ member)
  commas := readable.commas.of_append closed apart
  within := by
    intro nests
    refine readable.within ?_
    rw [Piece.text_append]
    simpa only [List.append_nil] using nests.within (Piece.text chunk) []

theorem tail (readable : Readable levels outside (piece :: rest)) (noOpen : piece ≠ .leftParen)
    (noClose : piece ≠ .rightParen)
    (apart : (∀ word, piece ≠ .name word) ∨ rest.head? ≠ some .leftParen) :
    Readable levels outside rest := by
  refine behind [piece] readable ?_
    (apart.imp_left fun noName word same => noName word (Option.some.inj same))
  cases readable.cut with
  | cons valid _ _ =>
    rw [Balanced, Piece.text_cons, Piece.text_nil, List.append_nil, valid.openAfter noOpen noClose]

/-- What stands between parentheses. Calls may nest less deep there if a name stands before. -/
theorem inside {fewer : Nat} (chunk : List Piece)
    (readable : Readable levels outside (chunk ++ .leftParen :: (inner ++ rest)))
    (closed : Balanced (Piece.text chunk)) (balanced : Balanced (Piece.text inner))
    (within : Nests (fewer + 1) (Piece.text inner) →
      Nests (levels + 1) (Piece.text (chunk ++ .leftParen :: (inner ++ rest)))) :
    Readable fewer (∃ word, chunk.getLast? = some (.name word)) inner where
  cut := by
    have cut := readable.cut.of_append.2
    cases cut with
    | cons _ _ cut => exact cut.of_append.1
  balanced := balanced
  known := fun name member => readable.known name (by simp [member])
  commas := readable.commas.inside closed balanced
  within := fun nests => readable.within (within nests)

/-- An open parenthesis is closed again. -/
theorem closing (chunk : List Piece)
    (readable : Readable levels outside (chunk ++ .leftParen :: rest))
    (closed : Balanced (Piece.text chunk)) : ∃ inner others,
      rest = inner ++ .rightParen :: others ∧ Balanced (Piece.text inner) ∧
        Readable levels outside others := by
  have balanced := readable.balanced
  rw [Piece.text_append, closed.append_iff, Piece.text_cons] at balanced
  cases readable.cut.of_append.2 with
  | cons _ _ cut =>
    have opened : openAfter (0 + 1) (Piece.text rest) = some 0 := balanced
    obtain ⟨inner, others, rfl, atInner, _⟩ := cut.closing opened
    refine ⟨inner, others, rfl, atInner,
      behind (chunk ++ .leftParen :: (inner ++ [.rightParen])) (by simpa using readable)
        ?_ (Or.inl ?_)⟩
    · have group : Balanced ('(' :: (Piece.text inner ++ [')'])) := openAfter_parens atInner 0
      rw [Piece.text_append, closed.append_iff]
      simpa [Piece.lexeme] using group
    · intro word same
      rw [← List.cons_append, ← List.append_assoc, List.getLast?_concat] at same
      cases same

/-- A group in parentheses holds no comma of its own. -/
theorem group (readable : Readable levels outside (.leftParen :: rest)) : ∃ inner others,
    rest = inner ++ .rightParen :: others ∧ Readable levels False inner ∧
      Readable levels outside others := by
  obtain ⟨inner, others, rfl, balanced, atOthers⟩ := closing [] readable rfl
  have atInner : Readable levels _ inner := inside [] readable rfl balanced fun nests => by
    simpa [Piece.lexeme] using nests.within ['('] (')' :: Piece.text others)
  refine ⟨inner, others, rfl, ?_, atOthers⟩
  simpa using atInner

/-- A call holds its arguments, and calls may nest less deep in them. -/
theorem call {word : String} (readable : Readable levels outside (.name word :: .leftParen :: rest)) :
    IsWord Char.isLower isNameChar word.toList ∧ ∃ fewer inner others, levels = fewer + 1 ∧
      rest = inner ++ .rightParen :: others ∧ Readable fewer True inner ∧
        Readable levels outside others := by
  cases readable.cut with
  | cons valid _ _ =>
    have closed : Balanced (Piece.text [.name word]) := by
      have kept := valid.openAfter nofun nofun 0
      rwa [Balanced, Piece.text_cons, Piece.text_nil, List.append_nil]
    obtain ⟨inner, others, rfl, balanced, atOthers⟩ :=
      closing [.name word] readable closed
    have deeper {depth : Nat} (nests : Nests depth (Piece.text inner)) : Nests (depth + 1)
        (Piece.text (.name word :: .leftParen :: (inner ++ .rightParen :: others))) := by
      simpa [Piece.lexeme] using Nests.call [] (Piece.text others) valid balanced nests
    cases levels with
    | zero => exact absurd (deeper (.zero _)) readable.within
    | succ fewer =>
      have atInner : Readable fewer _ inner :=
        inside [.name word] readable closed balanced deeper
      refine ⟨valid, fewer, inner, others, rfl, rfl, ?_, atOthers⟩
      simpa using atInner

theorem emptyCall {word : String} {gap : List Char}
    (readable : Readable levels outside (.emptyCall word gap :: rest)) :
    IsWord Char.isLower isNameChar word.toList ∧ gap.all isBlank = true ∧
      ∃ fewer, levels = fewer + 1 := by
  cases readable.cut with
  | cons valid _ _ =>
    cases levels with
    | zero =>
      refine absurd ?_ readable.within
      simpa [Piece.lexeme] using Nests.call [] (Piece.text rest) valid.1
        (Piece.openAfter_blank valid.2 0) (.zero gap)
    | succ fewer => exact ⟨valid.1, valid.2, fewer, rfl⟩

/-- A name that no parenthesis follows is a variable. -/
theorem identifier {word : String} (readable : Readable levels outside (.name word :: rest))
    (noOpen : rest.head? ≠ some .leftParen) :
    (Token.identifier word).Valid ∧ (Token.identifier word).Ends (Piece.text rest) := by
  cases readable.cut with
  | cons valid ends cut =>
    refine ⟨valid, fun c atHead => ?_⟩
    have noParen : HeadNot (· == '(') (Piece.text rest) := by
      cases cut with
      | nil => exact .nil
      | cons valid _ _ => exact valid.headNot_open (fun same => noOpen (congrArg some same)) _
    exact Bool.or_eq_false_iff.mpr ⟨ends c atHead, noParen c atHead⟩

/-- The items of readable pieces are read. -/
theorem reads (most depth : Nat) {pieces : List Piece} (readable : Readable levels outside pieces) :
    Reads (Limits.reader { levels := most } levels depth) outside (Piece.text pieces) := by
  induction size : pieces.length using Nat.strongRecOn
    generalizing levels depth outside pieces with
  | ind size ih =>
    have shorter (depth : Nat) {levels : Nat} {outside : Prop} {others : List Piece}
        (readable : Readable levels outside others) (less : others.length < pieces.length) :
        Reads (Limits.reader { levels := most } levels depth) outside (Piece.text others) :=
      ih others.length (size ▸ less) depth readable rfl
    cases pieces with
    | nil => exact .nil
    | cons piece rest =>
      have next (noOpen : piece ≠ .leftParen) (noClose : piece ≠ .rightParen)
          (apart : (∀ word, piece ≠ .name word) ∨ rest.head? ≠ some .leftParen) :
          Reads (Limits.reader { levels := most } levels depth) outside (Piece.text rest) :=
        shorter depth (readable.tail noOpen noClose apart) (Nat.lt_succ_self _)
      cases piece with
      | space c =>
        cases readable.cut with
        | cons valid _ _ => exact (next nofun nofun (Or.inl nofun)).space valid
      | number digits =>
        cases readable.cut with
        | cons valid ends _ =>
          exact (next nofun nofun (Or.inl nofun)).operand (.number digits) rfl valid ends
      | constant word =>
        obtain ⟨value, found⟩ :=
          Builtin.constant?_isSome_iff.mpr (readable.known word List.mem_cons_self)
        cases readable.cut with
        | cons valid ends _ =>
          exact (next nofun nofun (Or.inl nofun)).operand (.constant word)
            (Option.map_eq_some_iff.mpr ⟨value, found, rfl⟩) valid ends
      | operator op => exact (next nofun nofun (Or.inl nofun)).operator op
      | comma =>
        rcases readable.commas [] rest rfl with ⟨front, word, inside, same, _⟩ | ⟨may, _⟩
        · simp at same
        · exact (next nofun nofun (Or.inl nofun)).comma may
      | rightParen => cases readable.balanced
      | emptyCall word gap =>
        obtain ⟨isWord, blank, fewer, rfl⟩ := readable.emptyCall
        have read := (next nofun nofun (Or.inl nofun)).call isWord
          (Piece.openAfter_blank blank 0) fun written => by rw [blank] at written; cases written
        simpa [Piece.lexeme, Token.lexeme] using read
      | leftParen =>
        obtain ⟨inner, others, rfl, atInner, atOthers⟩ := readable.group
        have read := (shorter depth atOthers (by simp; omega)).group
          (shorter depth atInner (by simp only [List.length_cons, List.length_append]; omega))
        simpa [Piece.lexeme] using read
      | name word =>
        by_cases paren : rest.head? = some .leftParen
        · obtain ⟨rest, rfl⟩ := List.head?_eq_some_iff.mp paren
          obtain ⟨isWord, fewer, inner, others, rfl, rfl, atInner, atOthers⟩ := readable.call
          have read := (shorter depth atOthers (by simp; omega)).call isWord
            atInner.balanced fun _ => ⟨True, shorter (depth + 1) atInner (by simp; omega)⟩
          simpa [Piece.lexeme, Token.lexeme] using read
        · obtain ⟨valid, ends⟩ := readable.identifier paren
          exact (next (by simp) (by simp) (Or.inr paren)).operand (.identifier word) rfl valid ends

end Readable

/-- A failure to cut a text into tokens, or to read its tokens. -/
def Failure.IsReading (failure : Failure) : Prop :=
  (∃ cause position, failure = .formula (.lexical cause position)) ∨
    ∃ cause position, failure = .formula (.parse cause position)

theorem Failure.isReading_fail (cause : ParseError) (position : Nat) :
    (Conversion.fail cause position).IsReading := Or.inr ⟨cause, some position, rfl⟩

theorem scanFrom_ending {position : Nat} {text : List Char} {error : FormulaError}
    (stopped : (scanFrom position text).ending = .error error) :
    ∃ cause place, error = .lexical cause place := by
  induction position, text using scanFrom.induct with
  | case1 position =>
    rw [scanFrom] at stopped
    cases stopped
  | case2 position c rest space ih =>
    rw [scanFrom_space space] at stopped
    exact ih stopped
  | case3 position c rest noSpace cause offset read =>
    rw [scanFrom_error noSpace read] at stopped
    cases stopped
    exact ⟨_, _, rfl⟩
  | case4 position c rest noSpace token after read ih =>
    obtain ⟨text, valid, ends⟩ := readToken_eq_ok_iff.mp read
    rw [← text, scanFrom_lexeme valid ends] at stopped
    exact ih stopped

namespace Conversion

variable {call : CallReader} {state : Conversion} {failure : Failure}

/-- A sequence ends unless a parenthesis is open. The last one that was opened is reported. -/
theorem endSequence_eq_error (failed : state.endSequence = .error failure) :
    ∃ position others, openPositions state.stack = position :: others ∧
      failure = fail .unmatchedOpen position := by
  unfold endSequence at failed
  split at failed <;> cases failed
  rename_i position popped
  obtain ⟨others, first⟩ := List.head?_eq_some_iff.mp (popAll_eq_error_iff.mp popped)
  exact ⟨position, others, first, rfl⟩

theorem step_eq_error {placed : Placed} (failed : step call state placed = .error failure) :
    failure.IsReading ∨ ∃ name arguments, placed.token = .call name arguments ∧
      call name arguments placed.position = .error failure := by
  obtain ⟨token, position⟩ := placed
  cases token with
  | number | identifier | operator | leftParen => cases failed
  | constant name =>
    simp only [step] at failed
    split at failed <;> cases failed
    exact Or.inl (Failure.isReading_fail _ _)
  | call name arguments =>
    exact Or.inr ⟨name, arguments, rfl, map_eq_error_iff.mp failed⟩
  | rightParen =>
    simp only [step, closeParen] at failed
    split at failed <;> cases failed
    exact Or.inl (Failure.isReading_fail _ _)
  | comma =>
    obtain ⟨_, _, _, rfl⟩ := endSequence_eq_error failed
    exact Or.inl (Failure.isReading_fail _ _)

/-- Where the tokens are not all taken in, there is a first one that fails. -/
theorem foldlM_step_eq_error {placed : List Placed}
    (failed : placed.foldlM (step call) state = .error failure) :
    ∃ before one after next, placed = before ++ one :: after ∧
      before.foldlM (step call) state = .ok next ∧ step call next one = .error failure := by
  induction placed generalizing state with
  | nil => cases failed
  | cons first rest ih =>
    rw [List.foldlM_cons] at failed
    rcases bind_eq_error_iff.mp failed with atFirst | ⟨next, stepped, behind⟩
    · exact ⟨[], first, rest, state, rfl, rfl, atFirst⟩
    · obtain ⟨before, one, after, last, rfl, run, atOne⟩ := ih behind
      refine ⟨first :: before, one, after, last, rfl, ?_, atOne⟩
      rw [foldlM_step_cons stepped, run]

/-- A conversion fails at one of the tokens of the text, or behind the last one. -/
theorem run_eq_error_cases {text : List Char} (failed : run call text = .error failure) :
    (∃ before one after state, (scan text).tokens = before ++ one :: after ∧
      before.foldlM (step call) {} = .ok state ∧ step call state one = .error failure) ∨
    ∃ state, (scan text).tokens.foldlM (step call) {} = .ok state ∧
      ((∃ error, (scan text).ending = .error error ∧ failure = .formula error) ∨
        (∃ behind, (scan text).ending = .ok behind) ∧ state.endSequence = .error failure) := by
  unfold run at failed
  rcases bind_eq_error_iff.mp failed with folded | ⟨state, folded, rest⟩
  · exact Or.inl (foldlM_step_eq_error folded)
  · refine Or.inr ⟨state, folded, ?_⟩
    split at rest
    · rename_i error stopped
      cases rest
      exact Or.inl ⟨error, stopped, rfl⟩
    · rename_i behind ending
      rcases bind_eq_error_iff.mp rest with ended | ⟨_, _, done⟩
      · exact Or.inr ⟨⟨behind, ending⟩, ended⟩
      · cases done

/-- A conversion fails as reading does, or with a call of its text. -/
theorem run_eq_error {text : List Char} (failed : run call text = .error failure) :
    failure.IsReading ∨ ∃ name arguments position before after,
      (Token.call name arguments).Valid ∧
        text = before ++ ((Token.call name arguments).lexeme ++ after) ∧
        call name arguments position = .error failure := by
  rcases run_eq_error_cases failed with ⟨_, ⟨token, position⟩, _, _, tokens, _, stepped⟩ |
    ⟨_, _, ⟨error, stopped, rfl⟩ | ⟨_, ended⟩⟩
  · refine (step_eq_error stepped).imp_right ?_
    rintro ⟨name, arguments, rfl, called⟩
    have member : ⟨.call name arguments, position⟩ ∈ (scan text).tokens := by simp [tokens]
    obtain ⟨valid, before, after, split, _⟩ := mem_scanFrom member
    exact ⟨name, arguments, position, before, after, valid, split, called⟩
  · obtain ⟨cause, place, rfl⟩ := scanFrom_ending stopped
    exact Or.inl (Or.inl ⟨cause, place, rfl⟩)
  · obtain ⟨_, _, _, rfl⟩ := endSequence_eq_error ended
    exact Or.inl (Failure.isReading_fail _ _)

end Conversion

theorem Limits.admit_eq_error {limits : Limits} {depth position : Nat} {name : String}
    {failure : Failure} (failed : limits.admit depth name position = .error failure) :
    ∃ limit, limits.maxDepth = some limit ∧ limit < depth ∧
      failure = Conversion.fail (.tooDeep name limit) position := by
  unfold Limits.admit at failed
  split at failed
  · rename_i limit atLimit
    split at failed <;> cases failed
    rename_i deep
    exact ⟨limit, atLimit, deep, rfl⟩
  · cases failed

theorem callNode_eq_error {read : List Char → Except Failure (List (List Node))} {name : String}
    {arguments : List Char} {failure : Failure}
    (failed : callNode read name arguments = .error failure) :
    arguments.all isBlank = false ∧ read arguments = .error failure := by
  unfold callNode at failed
  split at failed
  · cases failed
  · rename_i written
    exact ⟨Bool.eq_false_iff.mpr written, map_eq_error_iff.mp failed⟩

/-- A call is refused for its depth, is never followed, or has arguments that are not read. -/
theorem Limits.reader_eq_error {limits : Limits} {levels depth position : Nat} {name : String}
    {arguments : List Char} {failure : Failure}
    (failed : limits.reader levels depth name arguments position = .error failure) :
    (∃ limit, limits.maxDepth = some limit ∧ limit < depth + 1 ∧
      failure = Conversion.fail (.tooDeep name limit) position) ∨
    limits.Allows (depth + 1) ∧ (levels = 0 ∧ failure = .nesting ∨
      ∃ inner, levels = inner + 1 ∧ arguments.all isBlank = false ∧
        Placement.sequences limits inner (depth + 1) arguments = .error failure) := by
  cases levels with
  | zero =>
    refine (bind_eq_error_iff.mp failed).imp admit_eq_error ?_
    rintro ⟨_, admitted, stop⟩
    cases stop
    exact ⟨admit_eq_ok_iff.mp admitted, Or.inl ⟨rfl, rfl⟩⟩
  | succ inner =>
    refine (bind_eq_error_iff.mp failed).imp admit_eq_error ?_
    rintro ⟨_, admitted, made⟩
    obtain ⟨written, read⟩ := callNode_eq_error made
    exact ⟨admit_eq_ok_iff.mp admitted, Or.inr ⟨inner, rfl, written, read⟩⟩

/-- Sequences are read, or fail to be read, unless calls nest deeper than is followed. -/
theorem sequences_eq_error {limits : Limits} {levels depth : Nat} {text : List Char}
    {failure : Failure} (failed : sequences limits levels depth text = .error failure) :
    failure.IsReading ∨ failure = .nesting ∧ Nests (levels + 1) text := by
  induction levels using Nat.strongRecOn generalizing depth text with
  | ind levels ih =>
    rw [Limits.sequences_eq_run] at failed
    rcases Conversion.run_eq_error failed with reading |
      ⟨name, arguments, position, before, after, valid, rfl, called⟩
    · exact Or.inl reading
    · suffices within : failure.IsReading ∨ failure = .nesting ∧ Nests levels arguments by
        refine within.imp_right fun ⟨isNesting, nests⟩ => ⟨isNesting, ?_⟩
        exact (Nests.of_call valid nests).within before after
      rcases Limits.reader_eq_error called with ⟨limit, _, _, rfl⟩ | ⟨_, ⟨rfl, rfl⟩ |
        ⟨inner, rfl, _, read⟩⟩
      · exact Or.inl (Failure.isReading_fail _ _)
      · exact Or.inr ⟨rfl, .zero _⟩
      · exact ih inner (Nat.lt_succ_self inner) read

/-- A text fails to be read, or its calls nest deeper than is followed. -/
theorem parse_fails {limits : Limits} {text : List Char} {failure : Failure}
    (failed : parse limits text = .error failure) :
    failure.IsReading ∨ failure = .nesting ∧ Nests (limits.levels + 1) text := by
  unfold parse at failed
  split at failed
  · cases failed
    exact Or.inl (Failure.isReading_fail _ _)
  · split at failed
    · rename_i read
      cases failed
      exact sequences_eq_error read
    · cases failed
    · cases failed
      exact Or.inl (Or.inr ⟨.strayComma, none, rfl⟩)

theorem parse_eq_error {limits : Limits} {text : List Char} {failure : Failure}
    (failed : parse limits text = .error failure) :
    failure.IsReading ∨ Nests (limits.levels + 1) text :=
  (parse_fails failed).imp_right And.right

/-- Reading does not fail with an error from outside. -/
theorem parse_ne_foreign {limits : Limits} {text : List Char} {error : ForeignError} :
    parse limits text ≠ .error (.foreign error) := by
  intro failed
  rcases parse_fails failed with (⟨_, _, same⟩ | ⟨_, _, same⟩) | ⟨same, _⟩ <;> cases same

theorem parse_ne_evaluation {limits : Limits} {text : List Char} {cause : EvaluationError} :
    parse limits text ≠ .error (.formula (.evaluation cause)) := by
  intro failed
  rcases parse_fails failed with (⟨_, _, same⟩ | ⟨_, _, same⟩) | ⟨same, _⟩ <;> cases same

theorem parse_of_acceptable {levels : Nat} {text : List Char} (acceptable : Acceptable text)
    (within : ¬ Nests (levels + 1) text) : ∃ nodes, parse { levels } text = .ok nodes := by
  obtain ⟨⟨c, member, written⟩, balanced, pieces, rfl, cut, known, commas⟩ := acceptable
  have readable : Readable levels False pieces :=
    ⟨cut, balanced, known, fun before after split => Or.inl (commas before after split), within⟩
  obtain ⟨tokens, parts, lexes, parted, single⟩ := readable.reads levels 0
  obtain ⟨items, rfl⟩ := List.length_eq_one_iff.mp (single id)
  refine ⟨Item.arrange items, Limits.parse_eq_ok_iff.mpr ⟨?_, Limits.sequences_eq_ok_iff.mpr
    ⟨tokens, [items], lexes, parted, rfl⟩⟩⟩
  exact List.all_eq_false.mpr ⟨c, member, by rw [written]; exact Bool.false_ne_true⟩

/-- A text in which calls nest no deeper than is ever followed is a formula exactly if it is
acceptable. Any other such text fails to be cut into tokens, or to be read. -/
theorem parse_acceptable_iff {levels : Nat} {text : List Char}
    (within : ¬ Nests (levels + 1) text) :
    ((∃ nodes, parse { levels } text = .ok nodes) ↔ Acceptable text) ∧
      (¬ Acceptable text →
        (∃ cause position, parse { levels } text = .error (.formula (.lexical cause position))) ∨
          ∃ cause position, parse { levels } text = .error (.formula (.parse cause position))) := by
  have iff : (∃ nodes, parse { levels } text = .ok nodes) ↔ Acceptable text := by
    constructor
    · rintro ⟨nodes, parsed⟩
      exact acceptable_of_parse parsed
    · intro acceptable
      exact parse_of_acceptable acceptable within
  refine ⟨iff, fun unacceptable => ?_⟩
  cases parsed : parse { levels } text with
  | ok nodes => exact absurd (iff.mp ⟨nodes, parsed⟩) unacceptable
  | error failure =>
    rcases (parse_eq_error parsed).resolve_right within with ⟨cause, position, rfl⟩ |
      ⟨cause, position, rfl⟩
    · exact Or.inl ⟨cause, position, rfl⟩
    · exact Or.inr ⟨cause, position, rfl⟩

/-- A comma in a call, and a call whose blank argument no pattern matches. -/
theorem acceptable_of_nested_calls : ¬ Nests (usualLevels + 1) "max(PI, f(\u00a0))".toList ∧
    Acceptable "max(PI, f(\u00a0))".toList := by
  have within : ¬ Nests (usualLevels + 1) "max(PI, f(\u00a0))".toList := by
    intro nests
    have count := nests.le_count
    revert count
    decide
  refine ⟨within, (parse_acceptable_iff within).1.mp ?_⟩
  cases parsed : parse {} "max(PI, f(\u00a0))".toList with
  | ok nodes => exact ⟨nodes, rfl⟩
  | error failure =>
    have value : (parse {} "max(PI, f(\u00a0))".toList).toOption.isSome = true := by
      decide +kernel
    rw [parsed] at value
    cases value

end Placement
