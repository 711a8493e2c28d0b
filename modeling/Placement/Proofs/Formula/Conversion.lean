import Placement.Proofs.Formula.Grouping
import Placement.Proofs.Sequencing

namespace Placement

/-- How the node of a call is made from its name, the text of its arguments and its position. -/
abbrev CallReader := String → List Char → Nat → Except Failure Node

/-- The nodes of calls do not depend on where the calls stand. -/
def CallReader.Uniform (call : CallReader) : Prop :=
  ∀ name arguments position other node, call name arguments position = .ok node →
    call name arguments other = .ok node

/-- The node of a token that is an operand. -/
def CallReader.operand? (call : CallReader) : Token → Option Node
  | .number digits => some (.number (numeralValue digits).toSingle)
  | .constant name => (Builtin.constant? name).map .number
  | .identifier name => some (.variable name)
  | .call name arguments => (call name arguments 0).toOption
  | _ => none

/-- The nodes of the tokens, one for each operand, are those of the items. -/
theorem Grouped.flatMap_nodesAll {call : CallReader} {tokens : List Token} {items : List Item}
    (grouped : Grouped call.operand? tokens items) {α : Type} (f : Node → List α) :
    (Item.nodesAll items).flatMap f =
      tokens.flatMap fun token => (call.operand? token).toList.flatMap f := by
  induction grouped with
  | nil => rw [Item.nodesAll, List.flatMap_nil, List.flatMap_nil]
  | operand isOperand _ ih =>
    simp only [Item.nodesAll, Item.nodes, List.flatMap_append, ih, List.flatMap_cons, isOperand,
      Option.toList_some]
  | operator op _ ih =>
    rw [Item.nodesAll, Item.nodes, List.nil_append, ih]
    rfl
  | group _ _ ihInside ih =>
    rw [Item.nodesAll, Item.nodes, List.flatMap_append, ihInside, ih, List.flatMap_cons,
      List.flatMap_append, List.flatMap_cons]
    rfl

theorem Parted.flatMap_arrange {call : CallReader} {tokens : List Token}
    {parts : List (List Item)} (parted : Parted call.operand? tokens parts) {α : Type}
    {f : Node → List α} (none : ∀ op, f (.operator op) = []) :
    (parts.map Item.arrange).flatMap (·.flatMap f) =
      tokens.flatMap fun token => (call.operand? token).toList.flatMap f := by
  induction parted with
  | last grouped =>
    rw [List.map_singleton, List.flatMap_singleton, Item.flatMap_arrange none,
      grouped.flatMap_nodesAll]
  | more grouped _ ih =>
    rw [List.map_cons, List.flatMap_cons, ih, Item.flatMap_arrange none,
      grouped.flatMap_nodesAll, List.flatMap_append, List.flatMap_cons]
    rfl

/-- Tokens that are read as items close all parentheses they open. -/
theorem Grouped.openAfter_lexemes {call : CallReader} {tokens : List Token} {items : List Item}
    (grouped : Grouped call.operand? tokens items) (valid : ∀ token ∈ tokens, token.Valid)
    (depth : Nat) : openAfter depth (tokens.flatMap Token.lexeme) = some depth := by
  induction grouped generalizing depth with
  | nil => rfl
  | @operand token node tokens items isOperand _ ih =>
    have atToken := (valid token List.mem_cons_self).openAfter (by rintro rfl; cases isOperand)
      (by rintro rfl; cases isOperand) depth
    rw [List.flatMap_cons, openAfter_append, atToken]
    exact ih (fun other member => valid other (List.mem_cons_of_mem _ member)) depth
  | operator op _ ih =>
    have atToken := (valid (.operator op) List.mem_cons_self).openAfter nofun nofun depth
    rw [List.flatMap_cons, openAfter_append, atToken]
    exact ih (fun other member => valid other (List.mem_cons_of_mem _ member)) depth
  | group _ _ ihInside ih =>
    have inside := ihInside (fun other member => valid other (by simp [member])) (depth + 1)
    have behind := ih (fun other member => valid other (by simp [member])) depth
    simp only [List.flatMap_cons, List.flatMap_append, Token.lexeme, List.singleton_append,
      openAfter_open, openAfter_append, inside, Option.bind_some, openAfter_succ_close, behind]

theorem Parted.openAfter_lexemes {call : CallReader} {tokens : List Token}
    {parts : List (List Item)} (parted : Parted call.operand? tokens parts)
    (valid : ∀ token ∈ tokens, token.Valid) (depth : Nat) :
    openAfter depth (tokens.flatMap Token.lexeme) = some depth := by
  induction parted with
  | last grouped => exact grouped.openAfter_lexemes valid depth
  | more grouped _ ih =>
    have before := grouped.openAfter_lexemes (fun other member => valid other (by simp [member]))
      depth
    have comma : IsPlain ',' := ⟨by decide, by decide⟩
    simp only [List.flatMap_append, List.flatMap_cons, Token.lexeme, List.singleton_append,
      openAfter_append, before, Option.bind_some, openAfter_plain comma]
    exact ih fun other member => valid other (by simp [member])

theorem Parted.balanced {call : CallReader} {text : List Char} {tokens : List Token}
    {parts : List (List Item)} (parted : Parted call.operand? tokens parts)
    (lexes : Lexes text tokens) : Balanced text := by
  rw [Balanced, lexes.openAfter_lexemes]
  exact parted.openAfter_lexemes lexes.valid 0

/-- The stack holds no operator above its last open parenthesis. -/
def Settled (stack : List Pending) : Prop := ∀ op, stack.head? ≠ some (.operator op)

theorem popToOpen_operators (waiting : List Operator) (position : Nat) (below : List Pending) :
    popToOpen (waiting.map .operator ++ .openParen position :: below) =
      some (waiting.map .operator, below) := by
  induction waiting with
  | nil => rfl
  | cons op rest ih => simp only [List.map_cons, List.cons_append, popToOpen, ih, Option.map_some]

theorem popAll_operators (waiting : List Operator) :
    popAll (waiting.map .operator) = .ok (waiting.map .operator) := by
  induction waiting with
  | nil => rfl
  | cons op rest ih =>
    simp only [List.map_cons, popAll, ih]
    rfl

theorem takeWhile_settled (waiting : List Operator) {below : List Pending}
    (settled : Settled below) (op : Operator) :
    (waiting.map Pending.operator ++ below).takeWhile (Pending.precedes op) =
      (waiting.takeWhile op.calls).map Pending.operator := by
  induction waiting with
  | nil =>
    cases below with
    | nil => rfl
    | cons top rest =>
      cases top with
      | operator other => exact absurd rfl (settled other)
      | openParen position => rfl
  | cons top rest ih =>
    rw [List.map_cons, List.cons_append, List.takeWhile_cons, List.takeWhile_cons, ih]
    change (if op.calls top then _ else _) = _
    split <;> rfl

theorem dropWhile_settled (waiting : List Operator) {below : List Pending}
    (settled : Settled below) (op : Operator) :
    (waiting.map Pending.operator ++ below).dropWhile (Pending.precedes op) =
      (waiting.dropWhile op.calls).map Pending.operator ++ below := by
  induction waiting with
  | nil =>
    cases below with
    | nil => rfl
    | cons top rest =>
      cases top with
      | operator other => exact absurd rfl (settled other)
      | openParen position => rfl
  | cons top rest ih =>
    rw [List.map_cons, List.cons_append, List.dropWhile_cons, List.dropWhile_cons, ih]
    change (if op.calls top then _ else _) = _
    split <;> rfl

namespace Conversion

variable {call : CallReader}

theorem pushOperator_settled (finished : List (List Node)) (output : List Node)
    (waiting : List Operator) {below : List Pending} (settled : Settled below) (op : Operator) :
    pushOperator ⟨finished, output, waiting.map .operator ++ below⟩ op =
      ⟨finished, output ++ (waiting.takeWhile op.calls).map .operator,
        (op :: waiting.dropWhile op.calls).map .operator ++ below⟩ := by
  have nodes : ((waiting.takeWhile op.calls).map Pending.operator).map Pending.node =
      (waiting.takeWhile op.calls).map .operator := by
    rw [List.map_map]
    rfl
  simp only [pushOperator, takeWhile_settled waiting settled, dropWhile_settled waiting settled,
    nodes, List.map_cons, List.cons_append]

theorem foldlM_step_cons {state next : Conversion} {placed : Placed}
    (stepped : step call state placed = .ok next) (rest : List Placed) :
    (placed :: rest).foldlM (step call) state = rest.foldlM (step call) next := by
  rw [List.foldlM_cons, stepped]
  rfl

theorem of_foldlM_step_cons {state last : Conversion} {first : Placed} {rest : List Placed}
    (run : (first :: rest).foldlM (step call) state = .ok last) :
    ∃ next, step call state first = .ok next ∧ rest.foldlM (step call) next = .ok last := by
  rw [List.foldlM_cons] at run
  exact bind_eq_ok_iff.mp run

theorem foldlM_step_append {state next : Conversion} {first : List Placed}
    (run : first.foldlM (step call) state = .ok next) (rest : List Placed) :
    (first ++ rest).foldlM (step call) state = rest.foldlM (step call) next := by
  rw [List.foldlM_append, run]
  rfl

theorem step_operand (uniform : call.Uniform) {token : Token} {node : Node}
    (isOperand : call.operand? token = some node) (state : Conversion) (position : Nat) :
    step call state ⟨token, position⟩ = .ok (state.emit node) := by
  cases token with
  | number digits | identifier name =>
    cases isOperand
    rfl
  | constant name =>
    obtain ⟨value, found, rfl⟩ := Option.map_eq_some_iff.mp isOperand
    simp only [step, found]
  | call name arguments =>
    have made : call name arguments 0 = .ok node := by
      simp only [CallReader.operand?] at isOperand
      cases result : call name arguments 0 with
      | error failure =>
        rw [result] at isOperand
        cases isOperand
      | ok other =>
        rw [result] at isOperand
        cases isOperand
        rfl
    simp only [step, uniform _ _ _ position _ made]
    rfl
  | operator | leftParen | rightParen | comma => cases isOperand

/-- Reading items sends to the output what they send, and leaves on the stack what waits. What
is below an open parenthesis is not touched. -/
theorem foldlM_step_grouped {tokens : List Token} {items : List Item} (uniform : call.Uniform)
    (grouped : Grouped call.operand? tokens items) {placed : List Placed}
    (same : placed.map Placed.token = tokens) (finished : List (List Node)) (output : List Node)
    (waiting : List Operator) {below : List Pending} (settled : Settled below) :
    placed.foldlM (step call) ⟨finished, output, waiting.map .operator ++ below⟩ =
      .ok ⟨finished, output ++ (Item.shuntAll items waiting).1,
        (Item.shuntAll items waiting).2.map .operator ++ below⟩ := by
  induction grouped generalizing placed output waiting below with
  | nil =>
    obtain rfl := List.map_eq_nil_iff.mp same
    simp [pure, Except.pure]
  | @operand _ node tokens items isOperand _ ih =>
    obtain ⟨⟨token, position⟩, rest, rfl, rfl, behind⟩ := List.map_eq_cons_iff.mp same
    have emitted : step call ⟨finished, output, waiting.map .operator ++ below⟩ ⟨token, position⟩ =
        .ok ⟨finished, output ++ [node], waiting.map .operator ++ below⟩ :=
      step_operand uniform isOperand _ position
    have atRest := ih behind (output ++ [node]) waiting settled
    rw [foldlM_step_cons emitted, Item.shuntAll_operand]
    simpa only [List.append_assoc, List.singleton_append] using atRest
  | operator op _ ih =>
    obtain ⟨⟨_, position⟩, rest, rfl, rfl, behind⟩ := List.map_eq_cons_iff.mp same
    have pushed : step call ⟨finished, output, waiting.map .operator ++ below⟩
        ⟨.operator op, position⟩ = .ok ⟨finished,
          output ++ (waiting.takeWhile op.calls).map .operator,
          (op :: waiting.dropWhile op.calls).map .operator ++ below⟩ :=
      congrArg Except.ok (pushOperator_settled finished output waiting settled op)
    have atRest := ih behind (output ++ (waiting.takeWhile op.calls).map .operator)
      (op :: waiting.dropWhile op.calls) settled
    rw [foldlM_step_cons pushed, Item.shuntAll_operator]
    simpa only [List.append_assoc] using atRest
  | @group inner tokens inside items _ _ ihInside ih =>
    obtain ⟨⟨_, position⟩, rest, rfl, rfl, behind⟩ := List.map_eq_cons_iff.mp same
    obtain ⟨front, back, rfl, atFront, atBack⟩ := List.map_eq_append_iff.mp behind
    obtain ⟨⟨_, closing⟩, after, rfl, rfl, atAfter⟩ := List.map_eq_cons_iff.mp atBack
    have opened : Settled (.openParen position :: (waiting.map .operator ++ below)) := by
      intro op atHead
      cases atHead
    have opening : step call ⟨finished, output, waiting.map .operator ++ below⟩
        ⟨.leftParen, position⟩ = .ok ⟨finished, output, ([] : List Operator).map .operator ++
          .openParen position :: (waiting.map .operator ++ below)⟩ := rfl
    have atInside := ihInside atFront output [] opened
    have closed : step call ⟨finished, output ++ (Item.shuntAll inside []).1,
        (Item.shuntAll inside []).2.map .operator ++
          .openParen position :: (waiting.map .operator ++ below)⟩ ⟨.rightParen, closing⟩ =
        .ok ⟨finished, output ++ Item.arrange inside, waiting.map .operator ++ below⟩ := by
      simp only [step, closeParen, popToOpen_operators, Item.arrange, List.append_assoc]
    rw [foldlM_step_cons opening, foldlM_step_append atInside, foldlM_step_cons closed,
      ih atAfter _ waiting settled, Item.shuntAll_group, List.append_assoc]

/-- Ending the sequence sends what still waits to the output. -/
theorem endSequence_waiting (finished : List (List Node)) (output : List Node)
    (waiting : List Operator) :
    endSequence ⟨finished, output, waiting.map .operator⟩ =
      .ok { finished := finished ++ [output ++ waiting.map .operator] } := by
  simp only [endSequence, popAll_operators]

theorem foldlM_step_parted {tokens : List Token} {parts : List (List Item)}
    (uniform : call.Uniform) (parted : Parted call.operand? tokens parts) {placed : List Placed}
    (same : placed.map Placed.token = tokens) (finished : List (List Node)) :
    ∃ state, placed.foldlM (step call) { finished } = .ok state ∧
      state.endSequence = .ok { finished := finished ++ parts.map Item.arrange } := by
  have settled : Settled [] := by
    intro op atHead
    cases atHead
  induction parted generalizing placed finished with
  | last grouped =>
    have run := foldlM_step_grouped uniform grouped same finished [] [] settled
    refine ⟨_, run, ?_⟩
    simp only [List.append_nil, endSequence_waiting]
    rfl
  | @more tokens rest items parts grouped _ ih =>
    obtain ⟨front, back, rfl, atFront, atBack⟩ := List.map_eq_append_iff.mp same
    obtain ⟨⟨_, position⟩, after, rfl, rfl, atAfter⟩ := List.map_eq_cons_iff.mp atBack
    have run := foldlM_step_grouped uniform grouped atFront finished [] [] settled
    obtain ⟨state, atRest, ended⟩ := ih atAfter (finished ++ [Item.arrange items])
    have comma : step call ⟨finished, (Item.shuntAll items []).1,
        (Item.shuntAll items []).2.map .operator⟩ ⟨.comma, position⟩ =
        .ok { finished := finished ++ [Item.arrange items] } :=
      endSequence_waiting finished _ _
    simp only [List.map_nil, List.append_nil, List.nil_append] at run
    refine ⟨state, ?_, ?_⟩
    · rw [foldlM_step_append run, foldlM_step_cons comma, atRest]
    · rw [ended, List.append_assoc]
      rfl

/-- The positions of the open parentheses on a stack, of the last one first. -/
def openPositions : List Pending → List Nat
  | [] => []
  | .openParen position :: below => position :: openPositions below
  | .operator _ :: below => openPositions below

theorem popAll_eq_error_iff {stack : List Pending} {position : Nat} :
    popAll stack = .error position ↔ (openPositions stack).head? = some position := by
  induction stack with
  | nil => exact iff_of_false nofun nofun
  | cons top below ih =>
    cases top with
    | openParen place =>
      rw [popAll, openPositions, List.head?_cons, Except.error.injEq, Option.some.injEq]
    | operator op =>
      rw [popAll, openPositions, ← ih]
      cases popAll below <;> simp [Except.map]

theorem openPositions_of_popAll {stack : List Pending} {operators : List Node}
    (popped : popAll stack = .ok operators) : openPositions stack = [] := by
  rw [← List.head?_eq_none_iff, Option.eq_none_iff_forall_ne_some]
  intro position first
  rw [popAll_eq_error_iff.mpr first] at popped
  cases popped

theorem openPositions_of_popToOpen {stack below : List Pending} {operators : List Node}
    (popped : popToOpen stack = some (operators, below)) :
    ∃ position, openPositions stack = position :: openPositions below := by
  induction stack generalizing operators with
  | nil => cases popped
  | cons top rest ih =>
    cases top with
    | openParen position =>
      cases popped
      exact ⟨position, rfl⟩
    | operator op =>
      obtain ⟨⟨others, found⟩, atRest, same⟩ := Option.map_eq_some_iff.mp popped
      cases same
      exact ih atRest

theorem openPositions_of_popToOpen_none {stack : List Pending} (none : popToOpen stack = none) :
    openPositions stack = [] := by
  induction stack with
  | nil => rfl
  | cons top rest ih =>
    cases top with
    | openParen position => cases none
    | operator op => exact ih (Option.map_eq_none_iff.mp none)

theorem openPositions_pushOperator (state : Conversion) (op : Operator) :
    openPositions (state.pushOperator op).stack = openPositions state.stack := by
  obtain ⟨finished, output, stack⟩ := state
  change openPositions (stack.dropWhile (Pending.precedes op)) = openPositions stack
  induction stack with
  | nil => rfl
  | cons top below ih =>
    rw [List.dropWhile_cons]
    split
    · cases top with
      | openParen position => rename_i called; cases called
      | operator other => exact ih
    · rfl

/-- The number of open parentheses on a stack. -/
def opened : List Pending → Nat
  | [] => 0
  | .openParen _ :: below => opened below + 1
  | .operator _ :: below => opened below

theorem opened_eq_length (stack : List Pending) : opened stack = (openPositions stack).length := by
  induction stack with
  | nil => rfl
  | cons top below ih =>
    cases top with
    | openParen position => exact congrArg Nat.succ ih
    | operator op => exact ih

/-- What closing a parenthesis does where it is not refused. -/
theorem closeParen_eq_ok {state next : Conversion} {position : Nat}
    (closed : state.closeParen position = .ok next) : ∃ operators below,
      popToOpen state.stack = some (operators, below) ∧
        next = { state with output := state.output ++ operators, stack := below } := by
  unfold closeParen at closed
  split at closed <;> cases closed
  rename_i operators below popped
  exact ⟨operators, below, popped, rfl⟩

/-- What ending a sequence does where it is not refused. -/
theorem endSequence_eq_ok {state done : Conversion} (ended : state.endSequence = .ok done) :
    ∃ operators, popAll state.stack = .ok operators ∧
      done = { finished := state.finished ++ [state.output ++ operators] } := by
  unfold endSequence at ended
  split at ended <;> cases ended
  rename_i operators popped
  exact ⟨operators, popped, rfl⟩

/-- What one token can do. -/
theorem step_cases (uniform : call.Uniform) {state next : Conversion} {token : Token}
    {position : Nat} (stepped : step call state ⟨token, position⟩ = .ok next) :
    (∃ node, call.operand? token = some node ∧ next = state.emit node) ∨
      (∃ op, token = .operator op ∧ next = state.pushOperator op) ∨
      (token = .leftParen ∧ next = state.openParen position) ∨
      (token = .rightParen ∧ state.closeParen position = .ok next) ∨
      (token = .comma ∧ state.endSequence = .ok next) := by
  cases token with
  | number | identifier =>
    cases stepped
    exact Or.inl ⟨_, rfl, rfl⟩
  | constant name =>
    simp only [step] at stepped
    split at stepped <;> cases stepped
    rename_i value found
    exact Or.inl ⟨_, by rw [CallReader.operand?, found]; rfl, rfl⟩
  | call name arguments =>
    obtain ⟨node, made, rfl⟩ := map_eq_ok_iff.mp stepped
    refine Or.inl ⟨node, ?_, rfl⟩
    rw [CallReader.operand?, uniform _ _ _ 0 _ made]
    rfl
  | operator op =>
    cases stepped
    exact Or.inr (Or.inl ⟨op, rfl, rfl⟩)
  | leftParen =>
    cases stepped
    exact Or.inr (Or.inr (Or.inl ⟨rfl, rfl⟩))
  | rightParen => exact Or.inr (Or.inr (Or.inr (Or.inl ⟨rfl, stepped⟩)))
  | comma => exact Or.inr (Or.inr (Or.inr (Or.inr ⟨rfl, stepped⟩)))

theorem openPositions_of_endSequence {state done : Conversion}
    (ended : state.endSequence = .ok done) :
    openPositions state.stack = [] ∧ done.stack = [] := by
  obtain ⟨operators, popped, rfl⟩ := endSequence_eq_ok ended
  exact ⟨openPositions_of_popAll popped, rfl⟩

theorem openPositions_of_closeParen {state next : Conversion} {position : Nat}
    (closed : state.closeParen position = .ok next) :
    ∃ place, openPositions state.stack = place :: openPositions next.stack := by
  obtain ⟨operators, below, popped, rfl⟩ := closeParen_eq_ok closed
  exact openPositions_of_popToOpen popped

theorem opened_of_endSequence {state done : Conversion} (ended : state.endSequence = .ok done) :
    opened state.stack = 0 ∧ done.stack = [] := by
  obtain ⟨nothing, fresh⟩ := openPositions_of_endSequence ended
  exact ⟨by rw [opened_eq_length, nothing, List.length_nil], fresh⟩

theorem opened_of_closeParen {state next : Conversion} {position : Nat}
    (closed : state.closeParen position = .ok next) :
    opened state.stack = opened next.stack + 1 := by
  obtain ⟨place, one⟩ := openPositions_of_closeParen closed
  rw [opened_eq_length, opened_eq_length, one, List.length_cons]

/-- A conversion that reaches the end has read tokens that close what was open before them. -/
theorem unwound_of_foldlM_step {placed : List Placed} (uniform : call.Uniform)
    {state last done : Conversion} (run : placed.foldlM (step call) state = .ok last)
    (ended : last.endSequence = .ok done) :
    Unwound call.operand? (opened state.stack) (placed.map Placed.token) := by
  induction placed generalizing state with
  | nil =>
    cases run
    rw [(opened_of_endSequence ended).1]
    exact .parted (.last .nil)
  | cons first rest ih =>
    obtain ⟨token, position⟩ := first
    obtain ⟨next, stepped, run⟩ := of_foldlM_step_cons run
    have behind := ih run
    rw [List.map_cons]
    rcases step_cases uniform stepped with ⟨node, isOperand, rfl⟩ | ⟨op, rfl, rfl⟩ |
      ⟨rfl, rfl⟩ | ⟨rfl, closed⟩ | ⟨rfl, closed⟩
    · exact Grouped.append_unwound (.operand isOperand .nil) behind
    · rw [opened_eq_length, openPositions_pushOperator, ← opened_eq_length] at behind
      exact Grouped.append_unwound (.operator op .nil) behind
    · obtain ⟨inner, after, items, split, grouped, unwound⟩ := behind.closes
      have group := Grouped.append_unwound (.group grouped .nil) unwound
      rw [split]
      simpa only [List.cons_append, List.append_assoc, List.nil_append] using group
    · rw [opened_of_closeParen closed]
      exact .close .nil behind
    · obtain ⟨nothing, fresh⟩ := opened_of_endSequence closed
      rw [fresh] at behind
      rw [nothing]
      cases behind with
      | parted parted => exact .parted (.more .nil parted)

theorem run_eq_ok_iff_steps {text : List Char} {sequences : List (List Node)} :
    run call text = .ok sequences ↔ ∃ state done behind,
      (scan text).tokens.foldlM (step call) {} = .ok state ∧ (scan text).ending = .ok behind ∧
        state.endSequence = .ok done ∧ done.finished = sequences := by
  unfold run
  rw [bind_eq_ok_iff]
  constructor
  · rintro ⟨state, folded, rest⟩
    split at rest
    · cases rest
    · rename_i behind ending
      obtain ⟨done, ended, same⟩ := bind_eq_ok_iff.mp rest
      cases same
      exact ⟨state, done, behind, folded, ending, ended, rfl⟩
  · rintro ⟨state, done, behind, folded, ending, ended, same⟩
    refine ⟨state, folded, ?_⟩
    rw [ending]
    exact bind_eq_ok_iff.mpr ⟨done, ended, congrArg Except.ok same⟩

/-- A conversion gives the arrangements of the items between the commas of a text, and gives
nothing where the tokens of the text are not such items. -/
theorem run_eq_ok_iff (uniform : call.Uniform) {text : List Char}
    {sequences : List (List Node)} :
    run call text = .ok sequences ↔ ∃ tokens parts, Lexes text tokens ∧
      Parted call.operand? tokens parts ∧ sequences = parts.map Item.arrange := by
  rw [run_eq_ok_iff_steps]
  constructor
  · rintro ⟨state, done, behind, folded, ending, ended, rfl⟩
    obtain ⟨parts, parted⟩ := (unwound_of_foldlM_step uniform folded ended).parts
    obtain ⟨again, sameFold, sameEnd⟩ := foldlM_step_parted uniform parted rfl []
    cases folded.symm.trans sameFold
    cases ended.symm.trans sameEnd
    exact ⟨_, parts, lexes_of_scanFrom ending, parted, rfl⟩
  · rintro ⟨tokens, parts, lexes, parted, rfl⟩
    obtain ⟨⟨behind, ending⟩, same⟩ := lexes.scanFrom 0
    obtain ⟨state, folded, ended⟩ := foldlM_step_parted uniform parted same []
    exact ⟨state, _, behind, folded, ending, ended, rfl⟩

end Conversion

namespace Node

theorem depthArguments_singleton (nodes : List Node) :
    depthArguments [nodes] = depthSequence nodes := by
  rw [depthArguments, depthArguments, Nat.max_zero]

theorem depth_le_depthSequence {node : Node} {nodes : List Node} (member : node ∈ nodes) :
    depth node ≤ depthSequence nodes := by
  induction nodes with
  | nil => cases member
  | cons first rest ih =>
    rw [depthSequence]
    rcases List.mem_cons.mp member with rfl | inRest
    · exact Nat.le_max_left _ _
    · exact Nat.le_trans (ih inRest) (Nat.le_max_right _ _)

theorem depthSequence_le_depthArguments {nodes : List Node} {sequences : List (List Node)}
    (member : nodes ∈ sequences) : depthSequence nodes ≤ depthArguments sequences := by
  induction sequences with
  | nil => cases member
  | cons first rest ih =>
    rw [depthArguments]
    rcases List.mem_cons.mp member with rfl | inRest
    · exact Nat.le_max_left _ _
    · exact Nat.le_trans (ih inRest) (Nat.le_max_right _ _)

end Node

namespace Limits

/-- Calls may nest this deep. -/
def Allows (limits : Limits) (depth : Nat) : Prop :=
  ∀ limit, limits.maxDepth = some limit → depth ≤ limit

theorem allows_of_le {limits : Limits} {depth less : Nat} (allows : limits.Allows depth)
    (le : less ≤ depth) : limits.Allows less :=
  fun limit atLimit => Nat.le_trans le (allows limit atLimit)

/-- Without a limit, calls are allowed at any depth. -/
theorem unlimited_allows (levels depth : Nat) : ({ levels } : Limits).Allows depth := nofun

theorem admit_eq_ok_iff {limits : Limits} {depth : Nat} {name : String} {position : Nat} :
    limits.admit depth name position = .ok () ↔ limits.Allows depth := by
  unfold Limits.admit Limits.Allows
  cases limits.maxDepth with
  | none => simp
  | some limit =>
    simp only [Option.some.injEq, forall_eq']
    split
    · simp; omega
    · simp; omega

/-- The node of a call inside of `depth` others, where calls may nest `levels` deep. -/
def reader (limits : Limits) : (levels depth : Nat) → CallReader
  | 0, depth => fun name _ position => do
    limits.admit (depth + 1) name position
    .error .nesting
  | levels + 1, depth => fun name arguments position => do
    limits.admit (depth + 1) name position
    callNode (sequences limits levels (depth + 1)) name arguments

theorem sequences_eq_run (limits : Limits) (levels depth : Nat) (text : List Char) :
    sequences limits levels depth text = Conversion.run (limits.reader levels depth) text := by
  cases levels <;> rfl

theorem callNode_eq_ok_iff {read : List Char → Except Failure (List (List Node))} {name : String}
    {arguments : List Char} {node : Node} :
    callNode read name arguments = .ok node ↔ ∃ sequences, node = .call name sequences ∧
      if arguments.all isBlank then sequences = [] else read arguments = .ok sequences := by
  unfold callNode
  split
  · simp [eq_comm]
  · rw [map_eq_ok_iff]
    constructor
    · rintro ⟨sequences, read, rfl⟩
      exact ⟨sequences, rfl, read⟩
    · rintro ⟨sequences, rfl, read⟩
      exact ⟨sequences, read, rfl⟩

/-- A call is read where its depth is allowed and its arguments are read one level further in. -/
theorem reader_eq_ok_iff {limits : Limits} {levels depth : Nat} {name : String}
    {arguments : List Char} {position : Nat} {node : Node} :
    limits.reader levels depth name arguments position = .ok node ↔
      limits.Allows (depth + 1) ∧ ∃ inner sequences, levels = inner + 1 ∧
        node = .call name sequences ∧ if arguments.all isBlank then sequences = []
          else Placement.sequences limits inner (depth + 1) arguments = .ok sequences := by
  cases levels with
  | zero =>
    rw [reader, bind_eq_ok_iff]
    constructor
    · rintro ⟨_, _, stop⟩
      cases stop
    · rintro ⟨_, inner, _, none, _⟩
      omega
  | succ inner =>
    rw [reader, bind_eq_ok_iff]
    constructor
    · rintro ⟨_, admitted, made⟩
      obtain ⟨sequences, same, read⟩ := callNode_eq_ok_iff.mp made
      exact ⟨admit_eq_ok_iff.mp admitted, inner, sequences, rfl, same, read⟩
    · rintro ⟨allows, same, sequences, levels, rfl, read⟩
      obtain rfl := Nat.succ.inj levels
      exact ⟨(), admit_eq_ok_iff.mpr allows, callNode_eq_ok_iff.mpr ⟨sequences, rfl, read⟩⟩

theorem reader_uniform (limits : Limits) (levels depth : Nat) :
    (limits.reader levels depth).Uniform := by
  intro name arguments position other node made
  exact reader_eq_ok_iff.mpr (reader_eq_ok_iff.mp made)

/-- The sequences of a text are the arrangements of its items. -/
theorem sequences_eq_ok_iff {limits : Limits} {levels depth : Nat} {text : List Char}
    {sequences : List (List Node)} :
    Placement.sequences limits levels depth text = .ok sequences ↔ ∃ tokens parts,
      Lexes text tokens ∧ Parted (limits.reader levels depth).operand? tokens parts ∧
        sequences = parts.map Item.arrange := by
  rw [sequences_eq_run]
  exact Conversion.run_eq_ok_iff (limits.reader_uniform levels depth)

theorem operand?_call_iff {call : CallReader} {name : String} {arguments : List Char}
    {node : Node} :
    call.operand? (.call name arguments) = some node ↔ call name arguments 0 = .ok node := by
  rw [CallReader.operand?]
  cases call name arguments 0 with
  | error failure => simp [Except.toOption]
  | ok other => simp [Except.toOption]

/-- Only the depth of what was read decides whether it is read under other limits, inside of
other calls. -/
theorem sequences_transfer {limits others : Limits} {levels more depth around : Nat}
    {text : List Char} {sequences : List (List Node)}
    (read : Placement.sequences limits levels depth text = .ok sequences)
    (within : Node.depthArguments sequences ≤ more)
    (allowed : others.Allows (around + Node.depthArguments sequences)) :
    Placement.sequences others more around text = .ok sequences := by
  induction levels using Nat.strongRecOn generalizing more depth around text sequences with
  | ind levels ih =>
    rw [sequences_eq_ok_iff] at read ⊢
    obtain ⟨tokens, parts, lexes, parted, rfl⟩ := read
    refine ⟨tokens, parts, lexes, parted.mono fun token node items atPart member made => ?_, rfl⟩
    cases token with
    | number | identifier | constant => exact made
    | operator | leftParen | rightParen | comma => cases made
    | call name arguments =>
      rw [operand?_call_iff, reader_eq_ok_iff] at made ⊢
      obtain ⟨_, inner, sequences, rfl, rfl, readInner⟩ := made
      have deep := Nat.le_trans (Node.depth_le_depthSequence (Item.mem_arrange member))
        (Node.depthSequence_le_depthArguments (List.mem_map_of_mem atPart))
      rw [Node.depth] at deep
      obtain ⟨fewer, rfl⟩ : ∃ fewer, more = fewer + 1 := ⟨more - 1, by omega⟩
      refine ⟨allows_of_le allowed (by omega), fewer, sequences, rfl, rfl, ?_⟩
      split
      · rename_i blank
        rwa [if_pos blank] at readInner
      · rename_i written
        rw [if_neg written] at readInner
        exact ih inner (Nat.lt_succ_self inner) readInner (by omega)
          (allows_of_le allowed (by omega))

theorem parse_eq_ok_iff {limits : Limits} {text : List Char} {nodes : List Node} :
    parse limits text = .ok nodes ↔
      text.all isBlank = false ∧ Placement.sequences limits limits.levels 0 text = .ok [nodes] := by
  unfold parse
  split
  · rename_i blank
    simp [blank]
  · rename_i written
    rw [Bool.not_eq_true] at written
    simp only [written, true_and]
    split
    · rename_i read
      simp [read]
    · rename_i read
      simp [read]
    · rename_i several read
      simp [read]
      exact several nodes

end Limits

end Placement
