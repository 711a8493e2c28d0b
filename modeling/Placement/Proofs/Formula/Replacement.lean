import Placement.Proofs.Formula.Substitution

namespace Placement

/-- A text in which a variable is replaced by another text in parentheses. What stands behind the
first place that is no token stays as it is. -/
def replaceVariable (name : String) (inner : List Char) : List Char → List Char
  | [] => []
  | c :: rest =>
    if isSpace c then c :: replaceVariable name inner rest
    else
      match _read : readToken c rest with
      | .error _ => c :: rest
      | .ok (.identifier other, after) =>
        (if other = name then '(' :: (inner ++ [')']) else other.toList) ++
          replaceVariable name inner after
      | .ok (.call function arguments, after) =>
        function.toList ++ '(' :: (replaceVariable name inner arguments ++ [')']) ++
          replaceVariable name inner after
      | .ok (token, after) => token.lexeme ++ replaceVariable name inner after
termination_by text => text.length
decreasing_by
  · exact Nat.lt_succ_self _
  · exact readToken_length _read
  · rw [← readToken_append _read]
    simp only [Token.lexeme, List.length_append, List.length_singleton]
    omega
  · exact readToken_length _read
  · exact readToken_length _read

/-- The text in the place of a token. -/
def Token.replacement (name : String) (inner : List Char) : Token → List Char
  | identifier other => if other = name then '(' :: (inner ++ [')']) else other.toList
  | call function arguments =>
    function.toList ++ '(' :: (replaceVariable name inner arguments ++ [')'])
  | token => token.lexeme

/-- The tokens in the place of a token. -/
def Token.replaced (name : String) (inner : List Char) (tokens : List Token) : Token → List Token
  | identifier other =>
    if other = name then .leftParen :: (tokens ++ [.rightParen]) else [.identifier other]
  | call function arguments => [.call function (replaceVariable name inner arguments)]
  | token => [token]

variable {name : String} {inner : List Char}

theorem replaceVariable_space {c : Char} (space : isSpace c = true) (rest : List Char) :
    replaceVariable name inner (c :: rest) = c :: replaceVariable name inner rest := by
  rw [replaceVariable, if_pos space]

theorem replaceVariable_token {token : Token} {rest : List Char} (valid : token.Valid)
    (ends : token.Ends rest) : replaceVariable name inner (token.lexeme ++ rest) =
      token.replacement name inner ++ replaceVariable name inner rest := by
  obtain ⟨c, behind, text⟩ := List.exists_cons_of_ne_nil
    (List.append_ne_nil_of_left_ne_nil valid.lexeme_ne_nil rest)
  have read := readToken_eq_ok_iff.mpr ⟨text, valid, ends⟩
  rw [text, replaceVariable, if_neg (not_isSpace_of_readToken read)]
  split <;> rename_i other <;> rw [read] at other <;> cases other
  · rfl
  · rfl
  · rename_i noName noCall
    cases token with
    | identifier other => exact (noName other rfl).elim
    | call function arguments => exact (noCall function arguments rfl).elim
    | _ => rfl

theorem replaceVariable_error {c : Char} {rest : List Char} {cause : LexicalError × Nat}
    (noSpace : isSpace c = false) (read : readToken c rest = .error cause) :
    replaceVariable name inner (c :: rest) = c :: rest := by
  rw [replaceVariable, if_neg (by simp [noSpace])]
  split <;> rename_i other <;> rw [read] at other <;> cases other

/-- A text is empty, begins with space, begins with a token, or stays as it is. -/
theorem replaceVariable_cases (name : String) (inner text : List Char) :
    text = [] ∨ (∃ c rest, text = c :: rest ∧ isSpace c = true) ∨
      (∃ token rest, text = Token.lexeme token ++ rest ∧ token.Valid ∧ token.Ends rest) ∨
      replaceVariable name inner text = text := by
  cases text with
  | nil => exact Or.inl rfl
  | cons c rest =>
    by_cases space : isSpace c = true
    · exact Or.inr (Or.inl ⟨c, rest, rfl, space⟩)
    · cases read : readToken c rest with
      | error cause =>
        exact Or.inr (Or.inr (Or.inr (replaceVariable_error (by simpa using space) read)))
      | ok found =>
        obtain ⟨text, valid, ends⟩ := readToken_eq_ok_iff.mp read
        exact Or.inr (Or.inr (Or.inl ⟨found.1, found.2, text.symm, valid, ends⟩))

theorem Token.replacement_ne_nil {token : Token} (valid : token.Valid) :
    token.replacement name inner ≠ [] := by
  have some := valid.lexeme_ne_nil
  cases token with
  | identifier other =>
    rw [Token.replacement]
    split
    · exact List.cons_ne_nil _ _
    · exact some
  | call function arguments => simp [Token.replacement]
  | _ => exact some

/-- What stands in the place of a token begins with a parenthesis or as the token does. -/
theorem HeadNot.replacement {p : Char → Bool} {token : Token} (stop : HeadNot p token.lexeme)
    (valid : token.Valid) (parens : p '(' = false ∨ ∀ c : Char, c.isLower = true → p c = true) :
    HeadNot p (token.replacement name inner) := by
  cases token with
  | identifier other =>
    rw [Token.replacement]
    split
    · obtain ⟨c, others, atName, lower, _⟩ := valid
      rw [Token.lexeme, atName] at stop
      rcases parens with outside | letters
      · exact .cons outside _
      · exact absurd (letters c lower) (by simp [stop.of_cons])
    · exact stop
  | call function arguments =>
    obtain ⟨⟨c, others, atName, _⟩, _⟩ := valid
    simp only [Token.lexeme, atName, List.cons_append] at stop
    simp only [Token.replacement, atName, List.cons_append]
    exact .cons stop.of_cons _
  | _ => exact stop

theorem HeadNot.replaceVariable {p : Char → Bool} {text : List Char} (stop : HeadNot p text)
    (parens : p '(' = false ∨ ∀ c : Char, c.isLower = true → p c = true) :
    HeadNot p (replaceVariable name inner text) := by
  rcases replaceVariable_cases name inner text with rfl | ⟨c, rest, rfl, space⟩ |
    ⟨token, rest, rfl, valid, ends⟩ | same
  · rwa [Placement.replaceVariable]
  · rw [replaceVariable_space space]
    exact .cons stop.of_cons _
  · rw [replaceVariable_token valid ends]
    exact (stop.of_append.replacement valid parens).append_of_ne_nil
      (Token.replacement_ne_nil valid) _
  · rwa [same]

theorem Token.Ends.replaceVariable {token : Token} {rest : List Char} (ends : token.Ends rest) :
    token.Ends (replaceVariable name inner rest) := by
  cases token with
  | number | constant => exact HeadNot.replaceVariable ends (Or.inl rfl)
  | identifier =>
    refine HeadNot.replaceVariable ends (Or.inr fun c lower => ?_)
    rw [isNameChar_of_isLower c lower, Bool.true_or]
  | call | operator | leftParen | rightParen | comma => exact trivial

theorem openAfter_parens (balanced : Balanced inner) (depth : Nat) :
    openAfter depth ('(' :: (inner ++ [')'])) = some depth := by
  rw [openAfter_open, openAfter_append, balanced.openAfter, Option.bind_some, openAfter_succ_close]
  rfl

/-- A replacement keeps the number of open parentheses. -/
theorem openAfter_replaceVariable (balanced : Balanced inner) (text : List Char) (depth : Nat) :
    openAfter depth (replaceVariable name inner text) = openAfter depth text := by
  induction length : text.length using Nat.strongRecOn generalizing text depth with
  | ind size ih =>
    subst length
    rcases replaceVariable_cases name inner text with rfl | ⟨c, rest, rfl, space⟩ |
      ⟨token, rest, rfl, valid, ends⟩ | same
    · rw [replaceVariable]
    · have plain : IsPlain c := ⟨ne_of_class space rfl, ne_of_class space rfl⟩
      rw [replaceVariable_space space, openAfter_plain plain, openAfter_plain plain]
      exact ih rest.length (Nat.lt_succ_self _) rest depth rfl
    · have some := List.length_pos_iff.mpr valid.lexeme_ne_nil
      have atToken : openAfter depth (token.replacement name inner) =
          openAfter depth token.lexeme := by
        cases token with
        | identifier other =>
          rw [Token.replacement]
          split
          · rw [openAfter_parens balanced, valid.openAfter (by simp) (by simp)]
          · rfl
        | call function arguments =>
          have shorter : arguments.length < (Token.lexeme (.call function arguments) ++ rest).length := by
            simp only [Token.lexeme, List.length_append, List.length_singleton]
            omega
          have inside : Balanced (replaceVariable name inner arguments) :=
            (ih _ shorter arguments 0 rfl).trans valid.2
          rw [valid.openAfter (by simp) (by simp), Token.replacement, openAfter_append,
            openAfter_of_plain (isPlain_of_class (valid.1.all isNameChar_of_isLower) rfl rfl),
            Option.bind_some, openAfter_parens inside]
        | _ => rfl
      rw [replaceVariable_token valid ends, openAfter_append, openAfter_append, atToken]
      refine congrArg _ (funext fun behind => ih rest.length ?_ rest behind rfl)
      rw [List.length_append]
      omega
    · rw [same]

/-- A replacement is blank only where the text is. -/
theorem all_isBlank_replaceVariable (text : List Char) :
    (replaceVariable name inner text).all isBlank = text.all isBlank := by
  induction text with
  | nil => rw [replaceVariable]
  | cons c rest ih =>
    rcases replaceVariable_cases name inner (c :: rest) with none | ⟨d, others, same, space⟩ |
      ⟨token, after, text, valid, ends⟩ | same
    · cases none
    · cases same
      rw [replaceVariable_space space, List.all_cons, List.all_cons, ih]
    · obtain ⟨d, member, written⟩ := valid.exists_not_blank
      have before : token.lexeme.all isBlank = false :=
        List.all_eq_false.mpr ⟨d, member, by simp [written]⟩
      have behind : (token.replacement name inner).all isBlank = false := by
        cases token with
        | identifier other =>
          rw [Token.replacement]
          split
          · rw [List.all_cons]
            rfl
          · exact before
        | call function arguments =>
          exact List.all_eq_false.mpr ⟨'(', by simp [Token.replacement], by decide⟩
        | _ => exact before
      rw [text, replaceVariable_token valid ends, List.all_append, List.all_append, before, behind]
      rfl
    · rw [same]

/-- The tokens of a replaced text are the replaced tokens. -/
theorem Lexes.replaceVariable {text : List Char} {tokens inside : List Token}
    (lexes : Lexes text tokens) (lexesInner : Lexes inner inside) (balanced : Balanced inner) :
    Lexes (replaceVariable name inner text) (tokens.flatMap (Token.replaced name inner inside)) := by
  induction lexes with
  | nil =>
    rw [Placement.replaceVariable]
    exact .nil
  | space space _ ih =>
    rw [replaceVariable_space space]
    exact .space space ih
  | @token token rest tokens valid ends _ ih =>
    rw [replaceVariable_token valid ends, List.flatMap_cons]
    cases token with
    | identifier other =>
      rw [Token.replacement, Token.replaced]
      split
      · have closed := lexesInner.append (.cons rfl _) ih.rightParen
        simpa only [List.cons_append, List.append_assoc, List.nil_append] using closed.leftParen
      · exact .token valid ends.replaceVariable ih
    | call function arguments =>
      have inside : Balanced (Placement.replaceVariable name inner arguments) :=
        (openAfter_replaceVariable balanced arguments 0).trans valid.2
      have replaced := @Lexes.token (.call function (Placement.replaceVariable name inner arguments))
        _ _ ⟨valid.1, inside⟩ trivial ih
      simpa only [Token.lexeme, Token.replacement, Token.replaced, List.append_assoc,
        List.cons_append, List.nil_append] using replaced
    | _ => exact .token valid ends.replaceVariable ih

section

variable {operand? other? : Token → Option Node} {inside : List Token} {nodes : List Node}

/-- The tokens in the place of an operand are read as items that send to the output what stands
in the place of its node. -/
def Replaces (name : String) (inner : List Char) (inside : List Token) (nodes : List Node)
    (operand? other? : Token → Option Node) (node : Node) : Prop :=
  ∀ token, operand? token = some node → ∃ items,
    Grouped other? (token.replaced name inner inside) items ∧
      ∀ waiting, Item.shuntAll items waiting = (node.substitute name nodes, waiting)

/-- Items that do in the place of others what the substituted nodes do. -/
def Substitutes (name : String) (nodes : List Node) (items others : List Item) : Prop :=
  ∀ waiting, Item.shuntAll others waiting =
    (Node.substituteAll name nodes (Item.shuntAll items waiting).1,
      (Item.shuntAll items waiting).2)

theorem Substitutes.arrange {items others : List Item}
    (substitutes : Substitutes name nodes items others) :
    Item.arrange others = Node.substituteAll name nodes (Item.arrange items) := by
  rw [Item.arrange, substitutes, Item.arrange, Node.substituteAll_append,
    Node.substituteAll_operators]

theorem Grouped.replaced {tokens : List Token} {items : List Item}
    (grouped : Grouped operand? tokens items)
    (operands : ∀ node ∈ Item.nodesAll items,
      Replaces name inner inside nodes operand? other? node) :
    ∃ others, Grouped other? (tokens.flatMap (Token.replaced name inner inside)) others ∧
      Substitutes name nodes items others := by
  induction grouped with
  | nil =>
    refine ⟨[], .nil, fun waiting => ?_⟩
    rw [Item.shuntAll_nil, Node.substituteAll]
  | @operand token node tokens items isOperand _ ih =>
    obtain ⟨first, groupedFirst, shuntFirst⟩ := operands node List.mem_cons_self token isOperand
    obtain ⟨others, groupedRest, shuntRest⟩ :=
      ih fun other member => operands other (List.mem_cons_of_mem _ member)
    refine ⟨first ++ others, groupedFirst.append groupedRest, fun waiting => ?_⟩
    rw [Item.shuntAll_append, shuntFirst, shuntRest, Item.shuntAll_operand, Node.substituteAll]
  | operator op _ ih =>
    obtain ⟨others, groupedRest, shuntRest⟩ := ih operands
    refine ⟨.operator op :: others, .operator op groupedRest, fun waiting => ?_⟩
    rw [Item.shuntAll_operator, Item.shuntAll_operator, shuntRest, Node.substituteAll_append,
      Node.substituteAll_operators]
  | @group _ _ group items _ _ ihGroup ih =>
    obtain ⟨within, groupedInside, shuntInside⟩ :=
      ihGroup fun other member => operands other (List.mem_append_left _ member)
    obtain ⟨others, groupedRest, shuntRest⟩ :=
      ih fun other member => operands other (List.mem_append_right _ member)
    refine ⟨.group within :: others, ?_, fun waiting => ?_⟩
    · have whole := Grouped.group groupedInside groupedRest
      simpa only [List.flatMap_cons, List.flatMap_append, Token.replaced,
        List.singleton_append] using whole
    · rw [Item.shuntAll_group, Item.shuntAll_group, shuntRest, shuntInside.arrange,
        Node.substituteAll_append]

theorem Parted.replaced {tokens : List Token} {parts : List (List Item)}
    (parted : Parted operand? tokens parts)
    (operands : ∀ items ∈ parts, ∀ node ∈ Item.nodesAll items,
      Replaces name inner inside nodes operand? other? node) :
    ∃ others, Parted other? (tokens.flatMap (Token.replaced name inner inside)) others ∧
      others.map Item.arrange = Node.substituteEach name nodes (parts.map Item.arrange) := by
  induction parted with
  | @last tokens items grouped =>
    obtain ⟨others, groupedOthers, shunt⟩ := grouped.replaced (operands items List.mem_cons_self)
    refine ⟨[others], .last groupedOthers, ?_⟩
    rw [List.map_singleton, List.map_singleton, shunt.arrange, Node.substituteEach,
      Node.substituteEach]
  | @more tokens rest items parts grouped _ ih =>
    obtain ⟨others, groupedOthers, shunt⟩ := grouped.replaced (operands items List.mem_cons_self)
    obtain ⟨behind, partedBehind, same⟩ :=
      ih fun items member => operands items (List.mem_cons_of_mem _ member)
    refine ⟨others :: behind, ?_, ?_⟩
    · have whole := Parted.more groupedOthers partedBehind
      simpa only [List.flatMap_cons, List.flatMap_append, Token.replaced,
        List.singleton_append] using whole
    · rw [List.map_cons, List.map_cons, shunt.arrange, same, Node.substituteEach]

end

theorem Grouped.single {operand? : Token → Option Node} {token : Token} {node : Node}
    (isOperand : operand? token = some node) : ∃ items, Grouped operand? [token] items ∧
      ∀ waiting, Item.shuntAll items waiting = ([node], waiting) := by
  refine ⟨[.operand node], .operand isOperand .nil, fun waiting => ?_⟩
  rw [Item.shuntAll_operand, Item.shuntAll_nil]

/-- The sequence of a text, read where as many calls may nest as occur in it, is the arrangement
of its items. -/
theorem Limits.items_of_sequences {limits others : Limits} {levels depth more around : Nat}
    {text : List Char} {tokens : List Token} {nodes : List Node} (lexes : Lexes text tokens)
    (read : sequences limits levels depth text = .ok [nodes])
    (within : Node.depthSequence nodes ≤ more)
    (allowed : others.Allows (around + Node.depthSequence nodes)) :
    ∃ items, Grouped (others.reader more around).operand? tokens items ∧
      Item.arrange items = nodes := by
  rw [← Node.depthArguments_singleton] at within allowed
  obtain ⟨again, parts, lexesAgain, parted, same⟩ :=
    Limits.sequences_eq_ok_iff.mp (Limits.sequences_transfer read within allowed)
  obtain rfl := lexes.unique lexesAgain
  cases parted with
  | last grouped => exact ⟨_, grouped, (List.cons.inj same).1.symm⟩
  | more _ rest => cases rest <;> cases same

/-- An operand is replaced as its node is substituted, where this holds of the text of its
arguments. -/
theorem replaces_of_arguments {limits limitsInner others : Limits}
    {levels depth more around levelsInner depthInner : Nat} {inside : List Token}
    {nodes : List Node} {node : Node} (lexesInner : Lexes inner inside)
    (readInner : sequences limitsInner levelsInner depthInner inner = .ok [nodes])
    (within : Node.depthSequence (node.substitute name nodes) ≤ more)
    (allowed : others.Allows (around + Node.depthSequence (node.substitute name nodes)))
    (arguments : ∀ (fewer less : Nat) (text : List Char) (read : List (List Node)),
      levels = less + 1 → sequences limits less (depth + 1) text = .ok read →
      Node.depthArguments (Node.substituteEach name nodes read) ≤ fewer →
      others.Allows (around + 1 + Node.depthArguments (Node.substituteEach name nodes read)) →
      sequences others fewer (around + 1) (replaceVariable name inner text) =
        .ok (Node.substituteEach name nodes read)) :
    Replaces name inner inside nodes (limits.reader levels depth).operand?
      (others.reader more around).operand? node := by
  intro token isOperand
  cases token with
  | number digits =>
    cases isOperand
    exact Grouped.single rfl
  | constant symbol =>
    obtain ⟨value, found, rfl⟩ := Option.map_eq_some_iff.mp isOperand
    exact Grouped.single isOperand
  | identifier other =>
    cases isOperand
    rw [Node.substitute] at within allowed ⊢
    rw [Token.replaced]
    split
    · rename_i same
      rw [if_pos same] at within allowed
      obtain ⟨items, grouped, arranged⟩ :=
        Limits.items_of_sequences lexesInner readInner within allowed
      refine ⟨[.group items], .group grouped .nil, fun waiting => ?_⟩
      rw [Item.shuntAll_group, Item.shuntAll_nil, arranged, List.append_nil]
    · exact Grouped.single rfl
  | call function text =>
    obtain ⟨_, less, read, deeper, rfl, readText⟩ :=
      Limits.reader_eq_ok_iff.mp (Limits.operand?_call_iff.mp isOperand)
    rw [Node.substitute, Node.depthSequence, Node.depthSequence, Node.depth, Nat.max_zero]
      at within allowed
    obtain ⟨fewer, rfl⟩ : ∃ fewer, more = fewer + 1 := ⟨more - 1, by omega⟩
    rw [Node.substitute]
    refine Grouped.single (Limits.operand?_call_iff.mpr (Limits.reader_eq_ok_iff.mpr
      ⟨Limits.allows_of_le allowed (by omega), fewer, _, rfl, rfl, ?_⟩))
    rw [all_isBlank_replaceVariable]
    split
    · rename_i blank
      rw [if_pos blank] at readText
      rw [readText, Node.substituteEach]
    · rename_i written
      rw [if_neg written] at readText
      exact arguments fewer less text read deeper readText (by omega)
        (Limits.allows_of_le allowed (by omega))
  | operator | leftParen | rightParen | comma => cases isOperand

/-- Where the whole is not nested too deep, a replaced text is read as the substituted
sequences. -/
theorem sequences_replaceVariable {limits limitsInner others : Limits}
    {levels depth more around levelsInner depthInner : Nat} {text : List Char}
    {nodes : List Node} {read : List (List Node)}
    (readText : sequences limits levels depth text = .ok read)
    (readInner : sequences limitsInner levelsInner depthInner inner = .ok [nodes])
    (within : Node.depthArguments (Node.substituteEach name nodes read) ≤ more)
    (allowed : others.Allows
      (around + Node.depthArguments (Node.substituteEach name nodes read))) :
    sequences others more around (replaceVariable name inner text) =
      .ok (Node.substituteEach name nodes read) := by
  obtain ⟨inside, partsInner, lexesInner, partedInner, _⟩ :=
    Limits.sequences_eq_ok_iff.mp readInner
  induction levels using Nat.strongRecOn generalizing depth more around text read with
  | ind levels ih =>
    obtain ⟨tokens, parts, lexes, parted, rfl⟩ := Limits.sequences_eq_ok_iff.mp readText
    have operands : ∀ items ∈ parts, ∀ node ∈ Item.nodesAll items,
        Replaces name inner inside nodes (limits.reader levels depth).operand?
          (others.reader more around).operand? node := by
      intro items atPart node member
      have atNode : Node.depthSequence (node.substitute name nodes) ≤
          Node.depthArguments (Node.substituteEach name nodes (parts.map Item.arrange)) :=
        Nat.le_trans (Node.depthSequence_substitute_le (Item.mem_arrange member))
          (Node.depthSequence_substituteAll_le (List.mem_map_of_mem atPart))
      refine replaces_of_arguments lexesInner readInner (Nat.le_trans atNode within)
        (Limits.allows_of_le allowed (Nat.add_le_add_left atNode around)) ?_
      intro fewer less text read deeper readArguments
      exact ih less (deeper ▸ Nat.lt_succ_self less) readArguments
    obtain ⟨replaced, partedReplaced, same⟩ := parted.replaced operands
    refine Limits.sequences_eq_ok_iff.mpr ⟨_, replaced, ?_, partedReplaced, same.symm⟩
    exact lexes.replaceVariable lexesInner (partedInner.balanced lexesInner)

theorem parse_replaceVariable {limits limitsInner others : Limits} {text : List Char}
    {read nodes : List Node} (parsed : parse limits text = .ok read)
    (parsedInner : parse limitsInner inner = .ok nodes)
    (nested : Node.depthSequence (Node.substituteAll name nodes read) ≤ others.levels)
    (allowed : others.Allows (Node.depthSequence (Node.substituteAll name nodes read))) :
    parse others (replaceVariable name inner text) =
      .ok (Node.substituteAll name nodes read) := by
  obtain ⟨written, readText⟩ := Limits.parse_eq_ok_iff.mp parsed
  obtain ⟨_, readInner⟩ := Limits.parse_eq_ok_iff.mp parsedInner
  have each : Node.substituteEach name nodes [read] = [Node.substituteAll name nodes read] := by
    rw [Node.substituteEach, Node.substituteEach]
  have depth : Node.depthArguments (Node.substituteEach name nodes [read]) =
      Node.depthSequence (Node.substituteAll name nodes read) := by
    rw [each, Node.depthArguments_singleton]
  have replaced : sequences others others.levels 0 (replaceVariable name inner text) =
      .ok (Node.substituteEach name nodes [read]) :=
    sequences_replaceVariable readText readInner (depth ▸ nested) (by rwa [depth, Nat.zero_add])
  rw [each] at replaced
  exact Limits.parse_eq_ok_iff.mpr ⟨by rw [all_isBlank_replaceVariable, written], replaced⟩

/-- Replacing a variable by a formula in parentheses replaces its nodes by those of the formula.
Where the formula has a value, and the functions see their arguments only, the whole does what
the text does with the variable bound to this value. -/
theorem evaluateText_replaceVariable {text : List Char} {read nodes : List Node} {levels : Nat}
    (parsed : parse { levels } text = .ok read) (parsedInner : parse { levels } inner = .ok nodes)
    (nested : Node.depthSequence (Node.substituteAll name nodes read) ≤ levels) :
    parse { levels } (replaceVariable name inner text) = .ok (Node.substituteAll name nodes read) ∧
      ∀ (given : List (String × Given)) (functions : List SuppliedFunction) (x : Double),
        (∀ f ∈ functions, f.IgnoresBindings) →
        (evaluateText (some (String.ofList inner)) given functions { levels }).result = .ok x →
        (evaluateText (some (String.ofList (replaceVariable name inner text))) given
            functions { levels }).result =
          (evaluateText (some (String.ofList text)) ((name, .datum (.float x)) :: given)
            functions { levels }).result := by
  have replaced : parse { levels } (replaceVariable name inner text) =
      .ok (Node.substituteAll name nodes read) :=
    parse_replaceVariable parsed parsedInner nested nofun
  refine ⟨replaced, fun given functions x ignore evaluated => ?_⟩
  obtain ⟨_, bindings, value, again, bound, atInner, rfl⟩ := evaluateText_eq_ok_iff.mp evaluated
  rw [String.toList_ofList] at again
  cases parsedInner.symm.trans again
  have front : Bindings.ofPairs ((name, .datum (.float value.toDouble)) :: given) =
      .ok ⟨(name, .number value) :: bindings.entries⟩ := by
    rw [Bindings.ofPairs_cons rfl, bound, Binary.toSingle_toDouble]
    rfl
  have binds : Context.Binds ⟨⟨(name, .number value) :: bindings.entries⟩, functions⟩
      ⟨bindings, functions⟩ name value := {
    functions := rfl
    ignore := ignore
    here := Bindings.number_cons_self name value bindings.entries
    others := fun other different => Bindings.number_cons_of_ne different _ _ }
  rw [evaluateText_eq_ofTraced (by rwa [String.toList_ofList]) bound,
    evaluateText_eq_ofTraced (by rwa [String.toList_ofList]) front]
  exact Outcome.result_ofTraced_congr (Context.evaluate_substituteAll binds atInner read)

/-- A call in the place of both occurrences of a variable, one of them inside of a call. -/
theorem replace_by_call :
    let given : List (String × Given) := [("y", .datum (.float .half))]
    let functions : List SuppliedFunction := [⟨"same", fun arguments _ =>
      .ok (.float (arguments.headD .nan))⟩]
    parse {} "(same( y ))^ max((same( y )),y)".toList =
        .ok [.call "same" [[.variable "y"]],
          .call "max" [[.call "same" [[.variable "y"]]], [.variable "y"]], .operator .power] ∧
      (evaluateText (some "(same( y ))^ max((same( y )),y)") given functions {}).result =
        (evaluateText (some "x^ max(x,y)") (("x", .datum (.float .half)) :: given)
          functions {}).result := by
  intro given functions
  have text : parse {} "x^ max(x,y)".toList =
      .ok [.variable "x", .call "max" [[.variable "x"], [.variable "y"]], .operator .power] := by
    decide +kernel
  have inner : parse {} "same( y )".toList = .ok [.call "same" [[.variable "y"]]] := by decide +kernel
  have replaced : replaceVariable "x" "same( y )".toList "x^ max(x,y)".toList =
      "(same( y ))^ max((same( y )),y)".toList := by decide +kernel
  have ignore : ∀ f ∈ functions, f.IgnoresBindings := by
    intro f member
    rw [List.mem_singleton.mp member]
    exact fun _ _ _ => rfl
  have evaluated : (evaluateText (some (String.ofList "same( y )".toList)) given
      functions {}).result = .ok .half := by
    rw [String.ofList_toList]
    refine evaluateText_eq_ok_iff.mpr ⟨_, ⟨[("y", .number (Binary.half : Double).toSingle)]⟩,
      (Binary.half : Double).toSingle, inner, rfl, ?_, by decide +kernel⟩
    exact congrArg Except.ok (Binary.toSingle_toDouble _)
  obtain ⟨parsed, same⟩ := @evaluateText_replaceVariable "x" _ _ _ _ _ text inner (by decide +kernel)
  rw [replaced] at parsed same
  exact ⟨parsed, same given functions .half ignore evaluated⟩

end Placement
