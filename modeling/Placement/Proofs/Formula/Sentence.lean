import Mathlib.Data.List.Chain
import Placement.Proofs.Formula.Conversion
import Placement.Proofs.Formula.Running

namespace Placement

mutual

/-- An operand of a sentence. -/
inductive Term : List Token → Prop
  | number (digits : List Char) : Term [.number digits]
  | constant (name : String) : Term [.constant name]
  | variable (name : String) : Term [.identifier name]
  | group {tokens : List Token} : Sentence tokens → Term (.leftParen :: (tokens ++ [.rightParen]))
  | call {name : String} {arguments : List Char} : Arguments arguments →
      Term [.call name arguments]

/-- Terms with operators between them. -/
inductive Sentence : List Token → Prop
  | term {tokens : List Token} : Term tokens → Sentence tokens
  | operation {first rest : List Token} (op : Operator) : Term first → Sentence rest →
      Sentence (first ++ .operator op :: rest)

/-- The text between the parentheses of a call: blank, or sentences with commas between them. -/
inductive Arguments : List Char → Prop
  | blank {text : List Char} : text.all isBlank = true → Arguments text
  | written {text : List Char} {tokens : List Token} : Lexes text tokens → Listed tokens →
      Arguments text

inductive Listed : List Token → Prop
  | last {tokens : List Token} : Sentence tokens → Listed tokens
  | more {first rest : List Token} : Sentence first → Listed rest →
      Listed (first ++ .comma :: rest)

end

/-- What stands between two commas, or between a comma and an end. -/
inductive Segment : List Token → List Token → Prop
  | whole {tokens : List Token} : .comma ∉ tokens → Segment tokens tokens
  | first {tokens rest : List Token} : .comma ∉ tokens → Segment (tokens ++ .comma :: rest) tokens
  | later {tokens rest segment : List Token} : .comma ∉ tokens → Segment rest segment →
      Segment (tokens ++ .comma :: rest) segment

/-- The levels of some tokens: the tokens themselves, and the levels of every argument of every
call. -/
inductive Level : List Token → List Token → Prop
  | self (tokens : List Token) : Level tokens tokens
  | argument {tokens inner segment level : List Token} {name : String} {arguments : List Char} :
      .call name arguments ∈ tokens → arguments.all isBlank = false → Lexes arguments inner →
      Segment inner segment → Level segment level → Level tokens level

namespace Token

def isOperand : Token → Bool
  | number _ => true
  | constant _ => true
  | identifier _ => true
  | call _ _ => true
  | _ => false

def isOperator : Token → Bool
  | operator _ => true
  | _ => false

/-- Whether a term can begin with a token. -/
def begins (token : Token) : Bool := token.isOperand || token == .leftParen

/-- Whether a term can end with a token. -/
def ends (token : Token) : Bool := token.isOperand || token == .rightParen

end Token

/-- No term begins right where another one ends. -/
def Apart (tokens : List Token) : Prop :=
  tokens.IsChain fun before behind => before.ends = true → behind.begins = false

/-- On a level, parentheses pair up, no comma occurs, and there is one operand more than there
are operators. -/
structure Weighed (tokens : List Token) : Prop where
  balanced : Balanced (tokens.flatMap Token.lexeme)
  comma : .comma ∉ tokens
  count : tokens.countP Token.isOperand = tokens.countP Token.isOperator + 1

/-- What stands behind a term: nothing, or an operator and a sentence. -/
def Tail (tokens : List Token) : Prop :=
  tokens = [] ∨ ∃ op rest, tokens = .operator op :: rest ∧ Sentence rest

theorem Term.sentence {first rest : List Token} (term : Term first) (tail : Tail rest) :
    Sentence (first ++ rest) := by
  rcases tail with rfl | ⟨op, behind, rfl, sentence⟩
  · rw [List.append_nil]
    exact .term term
  · exact .operation op term sentence

theorem CallReader.isOperand_of_operand? {call : CallReader} {token : Token} {node : Node}
    (isOperand : call.operand? token = some node) :
    token.isOperand = true ∧ token.isOperator = false := by
  cases token <;> first | exact ⟨rfl, rfl⟩ | cases isOperand

/-- Apart terms alternate with operators where there are as many as can be: no sentence has
fewer operands, and no tokens have more. -/
theorem Grouped.sentence {call : CallReader} {tokens : List Token} {items : List Item}
    (grouped : Grouped call.operand? tokens items) (apart : Apart tokens)
    (terms : ∀ token ∈ tokens, token.isOperand = true → Term [token]) :
    tokens.countP Token.isOperand ≤ tokens.countP Token.isOperator + 1 ∧
      (tokens.countP Token.isOperand = tokens.countP Token.isOperator + 1 → Sentence tokens) ∧
      ((∀ token ∈ tokens.head?, token.begins = false) →
        tokens.countP Token.isOperand ≤ tokens.countP Token.isOperator ∧
          (tokens.countP Token.isOperand = tokens.countP Token.isOperator → Tail tokens)) := by
  induction grouped with
  | nil => simp [Tail]
  | @operand token node tokens items isOperand _ ih =>
    obtain ⟨operand, noOperator⟩ := CallReader.isOperand_of_operand? isOperand
    obtain ⟨stop, apartRest⟩ := List.isChain_cons.mp apart
    have ends : token.ends = true := by rw [Token.ends, operand, Bool.true_or]
    obtain ⟨bound, exact⟩ := (ih apartRest fun other member =>
      terms other (List.mem_cons_of_mem _ member)).2.2 fun other atHead => stop other atHead ends
    have term := terms token List.mem_cons_self operand
    simp only [List.countP_cons, operand, noOperator, if_true, Bool.false_eq_true, if_false]
    refine ⟨by omega, fun same => term.sentence (exact (by omega)), fun noTerm => ?_⟩
    have begins := noTerm token rfl
    rw [Token.begins, operand, Bool.true_or] at begins
    cases begins
  | @operator tokens items op _ ih =>
    obtain ⟨_, apartRest⟩ := List.isChain_cons.mp apart
    obtain ⟨bound, exact, _⟩ := ih apartRest fun other member =>
      terms other (List.mem_cons_of_mem _ member)
    simp only [List.countP_cons, Token.isOperand, Token.isOperator, if_true, Bool.false_eq_true,
      if_false]
    refine ⟨by omega, by omega, fun _ => ⟨by omega, fun same => ?_⟩⟩
    exact Or.inr ⟨op, tokens, rfl, exact (by omega)⟩
  | @group inner tokens inside items _ _ ihInner ih =>
    obtain ⟨apartInner, apartClose, _⟩ := List.isChain_append.mp (List.isChain_cons.mp apart).2
    obtain ⟨stop, apartRest⟩ := List.isChain_cons.mp apartClose
    obtain ⟨boundInner, exactInner, _⟩ := ihInner apartInner fun other member =>
      terms other (by simp [member])
    obtain ⟨bound, exact⟩ := (ih apartRest fun other member => terms other (by simp [member])).2.2
      fun other atHead => stop other atHead rfl
    have operands : (Token.leftParen :: (inner ++ .rightParen :: tokens)).countP Token.isOperand =
        inner.countP Token.isOperand + tokens.countP Token.isOperand := by
      simp [List.countP_append, Token.isOperand]
    have operators : (Token.leftParen :: (inner ++ .rightParen :: tokens)).countP Token.isOperator =
        inner.countP Token.isOperator + tokens.countP Token.isOperator := by
      simp [List.countP_append, Token.isOperator]
    rw [operands, operators]
    refine ⟨by omega, fun same => ?_, fun noTerm => ?_⟩
    · have group := Term.group (exactInner (by omega))
      have whole := group.sentence (exact (by omega))
      simpa only [List.cons_append, List.append_assoc, List.nil_append] using whole
    · have begins := noTerm .leftParen rfl
      cases begins

theorem Grouped.comma_notMem {call : CallReader} {tokens : List Token} {items : List Item}
    (grouped : Grouped call.operand? tokens items) : .comma ∉ tokens := by
  intro member
  induction grouped with
  | nil => cases member
  | operand isOperand _ ih =>
    rcases List.mem_cons.mp member with rfl | inRest
    · cases isOperand
    · exact ih inRest
  | operator op _ ih =>
    rcases List.mem_cons.mp member with same | inRest
    · cases same
    · exact ih inRest
  | group _ _ ihInner ih =>
    rcases List.mem_cons.mp member with same | inRest
    · cases same
    · rcases List.mem_append.mp inRest with inInner | behind
      · exact ihInner inInner
      · rcases List.mem_cons.mp behind with same | last
        · cases same
        · exact ih last

/-- Where the first comma stands is determined. -/
theorem append_comma_inj {first second rest others : List Token} (noFirst : .comma ∉ first)
    (noSecond : .comma ∉ second) (same : first ++ .comma :: rest = second ++ .comma :: others) :
    first = second ∧ rest = others := by
  induction first generalizing second with
  | nil =>
    cases second with
    | nil => exact ⟨rfl, (List.cons.inj same).2⟩
    | cons token behind =>
      rw [List.nil_append, List.cons_append, List.cons.injEq] at same
      exact absurd (same.1 ▸ List.mem_cons_self) noSecond
  | cons token behind ih =>
    cases second with
    | nil =>
      rw [List.nil_append, List.cons_append, List.cons.injEq] at same
      exact absurd (same.1 ▸ List.mem_cons_self) noFirst
    | cons other more =>
      rw [List.cons_append, List.cons_append, List.cons.injEq] at same
      obtain ⟨rfl, behindSame⟩ := same
      obtain ⟨rfl, rfl⟩ := ih (fun member => noFirst (List.mem_cons_of_mem _ member))
        (fun member => noSecond (List.mem_cons_of_mem _ member)) behindSame
      exact ⟨rfl, rfl⟩

/-- What is in front of the first comma, and what is behind it. -/
theorem Parted.of_append_comma {call : CallReader} {first rest : List Token}
    {parts : List (List Item)} (parted : Parted call.operand? (first ++ .comma :: rest) parts)
    (noComma : .comma ∉ first) : ∃ items others, parts = items :: others ∧
      Grouped call.operand? first items ∧ Parted call.operand? rest others := by
  generalize same : first ++ .comma :: rest = tokens at parted
  cases parted with
  | last grouped =>
    subst same
    exact absurd (by simp) grouped.comma_notMem
  | more grouped behind =>
    obtain ⟨rfl, rfl⟩ := append_comma_inj noComma grouped.comma_notMem same
    exact ⟨_, _, rfl, grouped, behind⟩

/-- Tokens that are read as items between commas have segments that are read so. -/
theorem Segment.grouped {call : CallReader} {tokens segment : List Token}
    {parts : List (List Item)} (inTokens : Segment tokens segment)
    (parted : Parted call.operand? tokens parts) :
    ∃ items ∈ parts, Grouped call.operand? segment items := by
  induction inTokens generalizing parts with
  | whole noComma =>
    cases parted with
    | last grouped => exact ⟨_, List.mem_cons_self, grouped⟩
    | more _ _ => exact absurd (by simp) noComma
  | first noComma =>
    obtain ⟨items, others, rfl, grouped, _⟩ := parted.of_append_comma noComma
    exact ⟨items, List.mem_cons_self, grouped⟩
  | later noComma _ ih =>
    obtain ⟨_, others, rfl, _, behind⟩ := parted.of_append_comma noComma
    obtain ⟨items, member, grouped⟩ := ih behind
    exact ⟨items, List.mem_cons_of_mem _ member, grouped⟩

theorem Listed.of_segments {tokens : List Token}
    (sentences : ∀ segment, Segment tokens segment → Sentence segment) : Listed tokens := by
  induction length : tokens.length using Nat.strongRecOn generalizing tokens with
  | ind size ih =>
    by_cases comma : .comma ∈ tokens
    · obtain ⟨first, rest, rfl, noComma⟩ := List.eq_append_cons_of_mem comma
      have shorter : rest.length < size := by
        rw [← length, List.length_append, List.length_cons]
        omega
      exact .more (sentences first (.first noComma)) (ih rest.length shorter
        (fun segment inRest => sentences segment (.later noComma inRest)) rfl)
    · exact .last (sentences tokens (.whole comma))

theorem Segment.subset {tokens segment : List Token} (inTokens : Segment tokens segment) :
    ∀ token ∈ segment, token ∈ tokens := by
  induction inTokens with
  | whole _ => exact fun _ member => member
  | first _ => exact fun _ member => List.mem_append_left _ member
  | later _ _ ih =>
    exact fun _ member => List.mem_append_right _ (List.mem_cons_of_mem _ (ih _ member))

/-- The items of some tokens, read where calls may nest `levels` deep, have a value. -/
def HasValue (limits : Limits) (context : Context) (levels : Nat) (tokens : List Token) : Prop :=
  (∀ token ∈ tokens, token.Valid) ∧ ∃ depth items value,
    Grouped (limits.reader levels depth).operand? tokens items ∧
      (context.evaluate (Item.arrange items)).result = .ok value

namespace HasValue

variable {limits : Limits} {context : Context} {levels : Nat} {tokens : List Token}

theorem node_of_mem {call : CallReader} {items : List Item} {token : Token}
    (grouped : Grouped call.operand? tokens items) (member : token ∈ tokens)
    (isOperand : token.isOperand = true) :
    ∃ node ∈ Item.nodesAll items, call.operand? token = some node := by
  induction grouped with
  | nil => cases member
  | @operand other node tokens items made _ ih =>
    rcases List.mem_cons.mp member with rfl | inRest
    · exact ⟨node, List.mem_cons_self, made⟩
    · obtain ⟨found, inItems, read⟩ := ih inRest
      exact ⟨found, List.mem_cons_of_mem _ inItems, read⟩
  | operator op _ ih =>
    rcases List.mem_cons.mp member with rfl | inRest
    · cases isOperand
    · exact ih inRest
  | group _ _ ihInner ih =>
    rcases List.mem_cons.mp member with rfl | inRest
    · cases isOperand
    · rcases List.mem_append.mp inRest with inInner | behind
      · obtain ⟨found, inItems, read⟩ := ihInner inInner
        exact ⟨found, List.mem_append_left _ inItems, read⟩
      · rcases List.mem_cons.mp behind with rfl | last
        · cases isOperand
        · obtain ⟨found, inItems, read⟩ := ih last
          exact ⟨found, List.mem_append_right _ inItems, read⟩

/-- Where a whole has a value, every argument of its calls has one. -/
theorem argument (value : HasValue limits context levels tokens) {name : String}
    {arguments : List Char} (member : .call name arguments ∈ tokens)
    (written : arguments.all isBlank = false) :
    ∃ inner fewer, Lexes arguments inner ∧ fewer < levels ∧
      ∀ segment, Segment inner segment → HasValue limits context fewer segment := by
  obtain ⟨_, depth, items, x, grouped, evaluated⟩ := value
  obtain ⟨node, inItems, isOperand⟩ := node_of_mem grouped member rfl
  obtain ⟨_, fewer, sequences, rfl, rfl, read⟩ :=
    Limits.reader_eq_ok_iff.mp (Limits.operand?_call_iff.mp isOperand)
  rw [if_neg (by simp [written])] at read
  obtain ⟨inner, parts, lexes, parted, rfl⟩ := Limits.sequences_eq_ok_iff.mp read
  refine ⟨inner, fewer, lexes, Nat.lt_succ_self fewer, fun segment inInner => ?_⟩
  obtain ⟨others, atPart, groupedSegment⟩ := inInner.grouped parted
  have ran := Context.evaluate_eq_ok_iff.mp evaluated
  obtain ⟨y, atSegment⟩ := Context.evaluate_of_call_mem ran (Item.mem_arrange inItems)
    (List.mem_map_of_mem atPart)
  exact ⟨fun token inSegment => lexes.valid token (inInner.subset token inSegment),
    depth + 1, others, y, groupedSegment, atSegment⟩

theorem countP_operators (operators : List Operator) :
    (operators.map Node.operator).countP Node.isOperator = operators.length := by
  rw [List.countP_map]
  exact List.countP_eq_length.mpr fun _ _ => rfl

theorem isOperator_of_operand? {depth : Nat} {token : Token} {node : Node}
    (isOperand : (limits.reader levels depth).operand? token = some node) :
    node.isOperator = false := by
  cases token with
  | number | identifier =>
    cases isOperand
    rfl
  | constant name =>
    obtain ⟨value, _, rfl⟩ := Option.map_eq_some_iff.mp isOperand
    rfl
  | call name arguments =>
    obtain ⟨_, _, _, _, rfl, _⟩ :=
      Limits.reader_eq_ok_iff.mp (Limits.operand?_call_iff.mp isOperand)
    rfl
  | operator | leftParen | rightParen | comma => cases isOperand

/-- Every operand and every operator goes to the output or waits. -/
theorem count_shuntAll {depth : Nat} {items : List Item}
    (grouped : Grouped (limits.reader levels depth).operand? tokens items)
    (waiting : List Operator) :
    (Item.shuntAll items waiting).1.countP Node.isOperator +
          (Item.shuntAll items waiting).2.length =
        tokens.countP Token.isOperator + waiting.length ∧
      (Item.shuntAll items waiting).1.length + (Item.shuntAll items waiting).2.length =
        tokens.countP Token.isOperand + tokens.countP Token.isOperator + waiting.length := by
  induction grouped generalizing waiting with
  | nil => simp
  | @operand token node tokens items isOperand _ ih =>
    obtain ⟨operators, all⟩ := ih waiting
    obtain ⟨operand, noOperator⟩ := CallReader.isOperand_of_operand? isOperand
    simp only [Item.shuntAll_operand, List.countP_cons, List.length_cons, operand, noOperator,
      isOperator_of_operand? isOperand, if_true, Bool.false_eq_true, if_false]
    omega
  | @operator tokens items op _ ih =>
    obtain ⟨operators, all⟩ := ih (op :: waiting.dropWhile op.calls)
    have parts := congrArg List.length (List.takeWhile_append_dropWhile (p := op.calls) (l := waiting))
    rw [List.length_append] at parts
    simp only [Item.shuntAll_operator, List.countP_append, List.length_append, countP_operators,
      List.length_map, List.length_cons, List.countP_cons, Token.isOperand, Token.isOperator,
      if_true, Bool.false_eq_true, if_false] at operators all ⊢
    omega
  | @group inner tokens inside items _ _ ihInner ih =>
    obtain ⟨operatorsInner, allInner⟩ := ihInner []
    obtain ⟨operators, all⟩ := ih waiting
    simp only [Item.shuntAll_group, Item.arrange, List.countP_append, List.length_append,
      countP_operators, List.length_map, List.length_nil, List.countP_cons, Token.isOperand,
      Token.isOperator, Bool.false_eq_true, if_false] at operatorsInner allInner ⊢
    omega

/-- A level that has a value has one operand more than operators. -/
theorem weighed (value : HasValue limits context levels tokens) : Weighed tokens := by
  obtain ⟨valid, depth, items, x, grouped, evaluated⟩ := value
  have length := Context.runSequence_length (Context.evaluate_eq_ok_iff.mp evaluated)
  obtain ⟨operators, all⟩ := count_shuntAll grouped []
  refine ⟨grouped.openAfter_lexemes valid 0, grouped.comma_notMem, ?_⟩
  simp only [Item.arrange, List.countP_append, List.length_append, countP_operators,
    List.length_map, List.length_nil, List.length_cons] at length operators all
  omega

/-- Every level of tokens that have a value has a value. -/
theorem level {level : List Token} (isLevel : Level tokens level)
    (value : HasValue limits context levels tokens) :
    ∃ fewer, HasValue limits context fewer level := by
  induction isLevel generalizing levels with
  | self tokens => exact ⟨levels, value⟩
  | argument member written lexes inInner _ ih =>
    obtain ⟨inner, fewer, lexesInner, _, segments⟩ := value.argument member written
    obtain rfl := lexes.unique lexesInner
    exact ih (segments _ inInner)

/-- Where no level has terms side by side, tokens that have a value are a sentence. -/
theorem sentence (value : HasValue limits context levels tokens)
    (apart : ∀ level, Level tokens level → Apart level) : Sentence tokens := by
  induction levels using Nat.strongRecOn generalizing tokens with
  | ind levels ih =>
    have terms : ∀ token ∈ tokens, token.isOperand = true → Term [token] := by
      intro token member isOperand
      cases token with
      | number digits => exact .number digits
      | constant name => exact .constant name
      | identifier name => exact .variable name
      | call name arguments =>
        refine .call ?_
        by_cases blank : arguments.all isBlank = true
        · exact .blank blank
        · rw [Bool.not_eq_true] at blank
          obtain ⟨inner, fewer, lexes, less, segments⟩ := value.argument member blank
          exact .written lexes (.of_segments fun segment inInner =>
            ih fewer less (segments segment inInner) fun level isLevel =>
              apart level (.argument member blank lexes inInner isLevel))
      | operator | leftParen | rightParen | comma => cases isOperand
    have count := value.weighed.count
    obtain ⟨_, depth, items, x, grouped, _⟩ := value
    exact (grouped.sentence (apart tokens (.self tokens)) terms).2.1 count

end HasValue

theorem Parted.operand_of_mem {call : CallReader} {tokens : List Token}
    {parts : List (List Item)} (parted : Parted call.operand? tokens parts) {token : Token}
    (member : token ∈ tokens) (isOperand : token.isOperand = true) :
    ∃ node, call.operand? token = some node := by
  induction parted with
  | last grouped =>
    obtain ⟨node, _, made⟩ := HasValue.node_of_mem grouped member isOperand
    exact ⟨node, made⟩
  | more grouped _ ih =>
    rcases List.mem_append.mp member with inFirst | behind
    · obtain ⟨node, _, made⟩ := HasValue.node_of_mem grouped inFirst isOperand
      exact ⟨node, made⟩
    · rcases List.mem_cons.mp behind with rfl | inRest
      · cases isOperand
      · exact ih inRest

mutual

theorem Term.comma_notMem : ∀ {tokens : List Token}, Term tokens → .comma ∉ tokens
  | _, .number _ => by simp
  | _, .constant _ => by simp
  | _, .variable _ => by simp
  | _, .group sentence => by
    have inside := sentence.comma_notMem
    simpa using inside
  | _, .call _ => by simp

theorem Sentence.comma_notMem : ∀ {tokens : List Token}, Sentence tokens → .comma ∉ tokens
  | _, .term term => term.comma_notMem
  | _, .operation op term sentence => by
    have atTerm := term.comma_notMem
    have behind := sentence.comma_notMem
    simpa using ⟨atTerm, behind⟩

end

mutual

theorem Term.arguments {name : String} {text : List Char} :
    ∀ {tokens : List Token}, Term tokens → .call name text ∈ tokens → Arguments text
  | _, .number _, member => by simp at member
  | _, .constant _, member => by simp at member
  | _, .variable _, member => by simp at member
  | _, .group sentence, member => sentence.arguments (by simpa using member)
  | _, .call arguments, member => by
    obtain ⟨rfl, rfl⟩ := Token.call.inj (List.mem_singleton.mp member)
    exact arguments

theorem Sentence.arguments {name : String} {text : List Char} :
    ∀ {tokens : List Token}, Sentence tokens → .call name text ∈ tokens → Arguments text
  | _, .term term, member => term.arguments member
  | _, .operation op term sentence, member => by
    rcases List.mem_append.mp member with atTerm | behind
    · exact term.arguments atTerm
    · exact sentence.arguments (by simpa using behind)

end

mutual

theorem Term.apart : ∀ {tokens : List Token}, Term tokens → Apart tokens
  | _, .number _ => List.isChain_singleton _
  | _, .constant _ => List.isChain_singleton _
  | _, .variable _ => List.isChain_singleton _
  | _, .group sentence => by
    refine List.isChain_cons.mpr ⟨fun _ _ => nofun, ?_⟩
    refine List.isChain_append.mpr ⟨sentence.apart, List.isChain_singleton _, ?_⟩
    intro _ _ behind atHead _
    obtain rfl := Option.some.inj atHead
    rfl
  | _, .call _ => List.isChain_singleton _

theorem Sentence.apart : ∀ {tokens : List Token}, Sentence tokens → Apart tokens
  | _, .term term => term.apart
  | _, .operation op term sentence => by
    refine List.isChain_append.mpr ⟨term.apart, ?_, ?_⟩
    · exact List.isChain_cons.mpr ⟨fun _ _ => nofun, sentence.apart⟩
    · intro _ _ behind atHead _
      obtain rfl := Option.some.inj atHead
      rfl

end

theorem Listed.of_append_comma {first rest : List Token} (listed : Listed (first ++ .comma :: rest))
    (noComma : .comma ∉ first) : Sentence first ∧ Listed rest := by
  generalize same : first ++ .comma :: rest = tokens at listed
  cases listed with
  | last sentence =>
    subst same
    exact absurd (by simp) sentence.comma_notMem
  | more sentence behind =>
    obtain ⟨rfl, rfl⟩ := append_comma_inj noComma sentence.comma_notMem same
    exact ⟨sentence, behind⟩

theorem Listed.sentence {tokens segment : List Token} (inTokens : Segment tokens segment)
    (listed : Listed tokens) : Sentence segment := by
  induction inTokens with
  | whole noComma =>
    cases listed with
    | last sentence => exact sentence
    | more _ _ => exact absurd (by simp) noComma
  | first noComma => exact (listed.of_append_comma noComma).1
  | later noComma _ ih => exact ih (listed.of_append_comma noComma).2

/-- Every level of a sentence is a sentence. -/
theorem Sentence.level {tokens level : List Token} (isLevel : Level tokens level)
    (sentence : Sentence tokens) : Sentence level := by
  induction isLevel with
  | self tokens => exact sentence
  | argument member written lexes inInner _ ih =>
    cases sentence.arguments member with
    | blank blank =>
      rw [written] at blank
      cases blank
    | written again listed =>
      obtain rfl := lexes.unique again
      exact ih (listed.sentence inInner)

/-- On every level, a formula with a value has one operand more than operators, and pairs of
parentheses. It is a sentence unless terms stand side by side on some level. -/
theorem evaluateText_sentence (source : String) (given : List (String × Given))
    (functions : List SuppliedFunction) (limits : Limits) :
    ((∃ tried, attempt (some source) given functions limits = .ok tried ∧ tried.isValue = true) ↔
        ∃ x, (evaluateText (some source) given functions limits).result = .ok x) ∧
      ∀ x, (evaluateText (some source) given functions limits).result = .ok x →
        ∃ tokens, Lexes source.toList tokens ∧ (∀ level, Level tokens level → Weighed level) ∧
          (Sentence tokens ↔ ∀ level, Level tokens level → Apart level) := by
  refine ⟨attempt_isValue_iff, fun x evaluated => ?_⟩
  obtain ⟨nodes, bindings, single, parsed, _, atNodes, _⟩ := evaluateText_eq_ok_iff.mp evaluated
  obtain ⟨_, read⟩ := Limits.parse_eq_ok_iff.mp parsed
  obtain ⟨tokens, parts, lexes, parted, same⟩ := Limits.sequences_eq_ok_iff.mp read
  cases parted with
  | more _ behind => cases behind <;> cases same
  | last grouped =>
    obtain rfl := (List.cons.inj same).1
    have value : HasValue limits ⟨bindings, functions⟩ limits.levels tokens :=
      ⟨lexes.valid, 0, _, single, grouped, atNodes⟩
    refine ⟨tokens, lexes, fun level isLevel => ?_, fun sentence level isLevel => ?_, fun apart => ?_⟩
    · obtain ⟨fewer, atLevel⟩ := value.level isLevel
      exact atLevel.weighed
    · exact (sentence.level isLevel).apart
    · exact value.sentence apart

/-- Terms side by side within an argument. -/
theorem sentence_of_max :
    ∃ tokens, Lexes "max(1 2 +, 3)".toList tokens ∧ (∀ level, Level tokens level → Weighed level) ∧
      (Sentence tokens ↔ ∀ level, Level tokens level → Apart level) := by
  obtain ⟨value, weighed⟩ := evaluateText_sentence "max(1 2 +, 3)" [] [] {}
  have valued : (attempt (some "max(1 2 +, 3)") [] [] {}).toOption.any Attempt.isValue = true := by
    decide +kernel
  cases tried : attempt (some "max(1 2 +, 3)") [] [] {} with
  | error error =>
    rw [tried] at valued
    cases valued
  | ok became =>
    rw [tried] at valued
    obtain ⟨x, evaluated⟩ := value.mp ⟨became, tried, valued⟩
    exact weighed x evaluated

/-- Postfix order is read as well: the operator waits for the end. -/
theorem value_of_postfix :
    (evaluateText (some "1 2 +") [] [] {}).result = .ok (.ofNat 3) ∧
      ¬ ∃ tokens, Lexes "1 2 +".toList tokens ∧ Sentence tokens := by
  constructor
  · have value : (evaluateText (some "1 2 +") [] [] {}).result.toOption = some (.ofNat 3) := by
      decide +kernel
    cases evaluated : (evaluateText (some "1 2 +") [] [] {}).result with
    | error failure =>
      rw [evaluated] at value
      cases value
    | ok x =>
      rw [evaluated] at value
      exact congrArg Except.ok (Option.some.inj value)
  · rintro ⟨tokens, lexes, sentence⟩
    have one : (Token.number ['1']).Valid := ⟨⟨'1', [], rfl, rfl, nofun⟩, by decide⟩
    have two : (Token.number ['2']).Valid := ⟨⟨'2', [], rfl, rfl, nofun⟩, by decide⟩
    have behind : Lexes "2 +".toList [.number ['2'], .operator .add] :=
      .token two (.of_headNot (.cons rfl _)) (.space (c := ' ') rfl (.operator .add .nil))
    have written : Lexes "1 2 +".toList [.number ['1'], .number ['2'], .operator .add] :=
      .token one (.of_headNot (.cons rfl _)) (.space (c := ' ') rfl behind)
    obtain rfl := lexes.unique written
    have apart := (List.isChain_cons.mp sentence.apart).1 (.number ['2']) rfl rfl
    cases apart

end Placement
