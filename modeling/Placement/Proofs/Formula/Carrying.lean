import Placement.Proofs.Formula.Occurrence
import Placement.Proofs.Formula.Sentence

namespace Placement

/-- The tokens of a text between its commas. -/
def segments (text : List Char) : List (List Placed) :=
  (scan text).tokens.splitOnP (·.token == .comma)

/-- Tokens in the order of their nodes: operands as in the text, operators in any order, but each
behind the operands that it stands behind in the text. -/
structure Rearranged (tokens order : List Placed) : Prop where
  only : ∀ placed ∈ order, placed.token.isOperand = true ∨ placed.token.isOperator = true
  operands : order.filter (·.token.isOperand) = tokens.filter (·.token.isOperand)
  operators : (order.filter (·.token.isOperator)).Perm (tokens.filter (·.token.isOperator))
  behind : ∀ operand operator : Placed, operand.token.isOperand = true →
    operator.token.isOperator = true → [operand, operator].Sublist tokens →
    [operand, operator].Sublist order

mutual

/-- A token and its node. Blank text holds no arguments, other text one more than commas. -/
inductive Carries : Token → Node → Prop
  | number (digits : List Char) :
      Carries (.number digits) (.number (numeralValue digits).toSingle)
  | constant {name : String} {value : Single} : Builtin.constant? name = some value →
      Carries (.constant name) (.number value)
  | identifier (name : String) : Carries (.identifier name) (.variable name)
  | operator (op : Operator) : Carries (.operator op) (.operator op)
  | blank (name : String) {text : List Char} : text.all isBlank = true →
      Carries (.call name text) (.call name [])
  | call (name : String) {text : List Char} {arguments : List (List Node)} :
      text.all isBlank = false → (scan text).ending = .ok text.length →
      arguments.length = (scan text).tokens.countP (·.token == .comma) + 1 →
      CarriesEach (segments text) arguments → Carries (.call name text) (.call name arguments)

/-- Tokens and their nodes, one for each. -/
inductive CarriesAll : List Placed → List Node → Prop
  | nil : CarriesAll [] []
  | cons {placed : Placed} {rest : List Placed} {node : Node} {nodes : List Node} :
      Carries placed.token node → CarriesAll rest nodes →
      CarriesAll (placed :: rest) (node :: nodes)

/-- The tokens between commas and the sequence of each. -/
inductive CarriesEach : List (List Placed) → List (List Node) → Prop
  | nil : CarriesEach [] []
  | cons {tokens order : List Placed} {rest : List (List Placed)} {nodes : List Node}
      {sequences : List (List Node)} : Rearranged tokens order → CarriesAll order nodes →
      CarriesEach rest sequences → CarriesEach (tokens :: rest) (nodes :: sequences)

end

namespace Node

mutual

/-- The markers in a node, those in the arguments of calls included. -/
def markers : Node → List Marker
  | .marker kind => [kind]
  | .call _ arguments => markersEach arguments
  | _ => []

def markersAll : List Node → List Marker
  | [] => []
  | node :: rest => markers node ++ markersAll rest

def markersEach : List (List Node) → List Marker
  | [] => []
  | argument :: rest => markersAll argument ++ markersEach rest

end

end Node

mutual

theorem Carries.markers {token : Token} {node : Node} : Carries token node → node.markers = []
  | .number _ | .constant _ | .identifier _ | .operator _ => by simp only [Node.markers]
  | .blank _ _ => by rw [Node.markers, Node.markersEach]
  | .call _ _ _ _ each => by rw [Node.markers, each.markers]

theorem CarriesAll.markers {tokens : List Placed} {nodes : List Node} :
    CarriesAll tokens nodes → Node.markersAll nodes = []
  | .nil => by rw [Node.markersAll]
  | .cons first rest => by rw [Node.markersAll, first.markers, rest.markers, List.nil_append]

theorem CarriesEach.markers {parts : List (List Placed)} {sequences : List (List Node)} :
    CarriesEach parts sequences → Node.markersEach sequences = []
  | .nil => by rw [Node.markersEach]
  | .cons _ first rest => by rw [Node.markersEach, first.markers, rest.markers, List.nil_append]

end

/-- The operator that waits, unless it is an open parenthesis that does. -/
def Pending.operator? : Pending → Option Operator
  | operator op => some op
  | openParen _ => none

/-- The operators on a stack. -/
def waitingOperators (stack : List Pending) : List Operator := stack.filterMap Pending.operator?

theorem waitingOperators_cons_operator (op : Operator) (below : List Pending) :
    waitingOperators (.operator op :: below) = op :: waitingOperators below := rfl

theorem waitingOperators_of_popAll {stack : List Pending} {nodes : List Node}
    (popped : popAll stack = .ok nodes) : nodes = (waitingOperators stack).map .operator := by
  induction stack generalizing nodes with
  | nil =>
    cases popped
    rfl
  | cons top below ih =>
    cases top with
    | openParen position => cases popped
    | operator op =>
      obtain ⟨others, atBelow, rfl⟩ := map_eq_ok_iff.mp popped
      rw [waitingOperators_cons_operator, List.map_cons, ih atBelow]

theorem waitingOperators_of_popToOpen {stack below : List Pending} {nodes : List Node}
    (popped : popToOpen stack = some (nodes, below)) : ∃ operators,
      nodes = operators.map .operator ∧
        waitingOperators stack = operators ++ waitingOperators below := by
  induction stack generalizing nodes with
  | nil => cases popped
  | cons top rest ih =>
    cases top with
    | openParen position =>
      cases popped
      exact ⟨[], rfl, rfl⟩
    | operator op =>
      obtain ⟨⟨others, found⟩, atRest, same⟩ := Option.map_eq_some_iff.mp popped
      cases same
      obtain ⟨operators, rfl, split⟩ := ih atRest
      exact ⟨op :: operators, rfl, by rw [waitingOperators_cons_operator, split, List.cons_append]⟩

theorem waitingOperators_precedes (op : Operator) (stack : List Pending) : ∃ operators,
    (stack.takeWhile (Pending.precedes op)).map Pending.node = operators.map .operator ∧
      waitingOperators stack =
        operators ++ waitingOperators (stack.dropWhile (Pending.precedes op)) := by
  induction stack with
  | nil => exact ⟨[], rfl, rfl⟩
  | cons top below ih =>
    rw [List.takeWhile_cons, List.dropWhile_cons]
    split
    · cases top with
      | openParen position => rename_i called; cases called
      | operator other =>
        obtain ⟨operators, nodes, split⟩ := ih
        refine ⟨other :: operators, ?_, ?_⟩
        · rw [List.map_cons, List.map_cons, nodes, Pending.node]
        · rw [waitingOperators_cons_operator, split, List.cons_append]
    · exact ⟨[], rfl, rfl⟩

/-- The node of an operand, given by `operand?`, or of an operator. -/
def StandsFor (operand? : Token → Option Node) (placed : Placed) (node : Node) : Prop :=
  operand? placed.token = some node ∨ ∃ op, placed.token = .operator op ∧ node = .operator op

theorem standsFor_operators {operand? : Token → Option Node} {called : List Placed}
    {operators : List Operator} (same : called.map Placed.token = operators.map .operator) :
    List.Forall₂ (StandsFor operand?) called (operators.map .operator) := by
  induction called generalizing operators with
  | nil =>
    obtain rfl := List.map_eq_nil_iff.mp same.symm
    exact .nil
  | cons first rest ih =>
    obtain ⟨op, others, rfl, atFirst, atRest⟩ := List.map_eq_cons_iff.mp same.symm
    exact .cons (Or.inr ⟨op, atFirst.symm, rfl⟩) (ih atRest.symm)

/-- Of two entries of a list, the one that cannot stand behind the other stands before it. -/
theorem sublist_pair_of_pairwise {α : Type} {R : α → α → Prop} {entries : List α}
    (pairwise : entries.Pairwise R) {first second : α} (atFirst : first ∈ entries)
    (atSecond : second ∈ entries) (different : first ≠ second) (notBehind : ¬ R second first) :
    [first, second].Sublist entries := by
  obtain ⟨before, after, rfl⟩ := List.append_of_mem atFirst
  rcases List.mem_append.mp atSecond with inBefore | atEnd
  · exact absurd ((List.pairwise_append.mp pairwise).2.2 second inBefore first List.mem_cons_self)
      notBehind
  · rcases List.mem_cons.mp atEnd with same | inAfter
    · exact absurd same.symm different
    · exact ((List.singleton_sublist.mpr inAfter).cons_cons first).trans
        (List.sublist_append_right before _)

/-- The tokens that become nodes. -/
def Token.hasNode (token : Token) : Bool := token.isOperand || token.isOperator

/-- How a conversion stands after it took in some tokens without a comma: those in `sent` have
their nodes in the output, those in `waiting` are operators on the stack. -/
structure Taken (operand? : Token → Option Node) (tokens sent waiting : List Placed)
    (output : List Node) (stack : List Pending) : Prop where
  nodes : List.Forall₂ (StandsFor operand?) sent output
  operators : waiting.map Placed.token = (waitingOperators stack).map .operator
  perm : (sent ++ waiting).Perm (tokens.filter (·.token.hasNode))
  behind : sent.Pairwise fun first second =>
    second.token.isOperand = true → first.position < second.position

namespace Taken

variable {operand? : Token → Option Node} {tokens sent waiting : List Placed}
  {output : List Node} {stack : List Pending} {placed : Placed}

theorem start (operand? : Token → Option Node) : Taken operand? [] [] [] [] [] :=
  ⟨.nil, rfl, .refl _, .nil⟩

theorem mem_tokens (taken : Taken operand? tokens sent waiting output stack)
    (member : placed ∈ sent ++ waiting) : placed ∈ tokens :=
  (List.mem_filter.mp (taken.perm.mem_iff.mp member)).1

theorem isOperand_of_waiting (taken : Taken operand? tokens sent waiting output stack)
    (member : placed ∈ waiting) : placed.token.isOperand = false := by
  have inTokens : placed.token ∈ waiting.map Placed.token := List.mem_map_of_mem member
  rw [taken.operators] at inTokens
  obtain ⟨op, _, same⟩ := List.mem_map.mp inTokens
  rw [← same]
  rfl

theorem perm_add (taken : Taken operand? tokens sent waiting output stack)
    (hasNode : placed.token.hasNode = true) {all : List Placed}
    (moved : all.Perm (sent ++ waiting ++ [placed])) :
    all.Perm ((tokens ++ [placed]).filter (·.token.hasNode)) := by
  have one : [placed].filter (·.token.hasNode) = [placed] := by simp [hasNode]
  rw [List.filter_append, one]
  exact moved.trans (taken.perm.append_right [placed])

/-- Operators leave the top of the stack for the output, in the order of the stack. -/
theorem send (taken : Taken operand? tokens sent waiting output stack)
    {operators : List Operator} {below : List Pending}
    (split : waitingOperators stack = operators ++ waitingOperators below) :
    ∃ called kept, Taken operand? tokens (sent ++ called) kept
      (output ++ operators.map .operator) below := by
  have inOrder := taken.operators
  rw [split, List.map_append] at inOrder
  obtain ⟨called, kept, rfl, atCalled, atKept⟩ := List.map_eq_append_iff.mp inOrder
  refine ⟨called, kept, List.rel_append taken.nodes (standsFor_operators atCalled), atKept, ?_, ?_⟩
  · rw [List.append_assoc]
    exact taken.perm
  · -- Only operators wait, so nothing is asked of the places of those that are called.
    have noOperand (first second : Placed) (member : second ∈ called)
        (isOperand : second.token.isOperand = true) : first.position < second.position := by
      rw [taken.isOperand_of_waiting (List.mem_append_left _ member)] at isOperand
      cases isOperand
    refine List.pairwise_append.mpr ⟨taken.behind, ?_, fun first _ second member =>
      noOperand first second member⟩
    exact List.pairwise_of_forall_mem_list fun first _ second member =>
      noOperand first second member

/-- An operand goes to the output at once, so all that is there stands before it in the text. -/
theorem operand (taken : Taken operand? tokens sent waiting output stack) {node : Node}
    (isOperand : operand? placed.token = some node) (hasNode : placed.token.hasNode = true)
    (last : ∀ other ∈ tokens, other.position < placed.position) :
    Taken operand? (tokens ++ [placed]) (sent ++ [placed]) waiting (output ++ [node]) stack := by
  refine ⟨List.rel_append taken.nodes (.cons (Or.inl isOperand) .nil), taken.operators, ?_, ?_⟩
  · have moved : (sent ++ [placed] ++ waiting).Perm (sent ++ waiting ++ [placed]) := by
      rw [List.append_assoc, List.append_assoc]
      exact List.perm_append_comm.append_left sent
    exact taken.perm_add hasNode moved
  · refine List.pairwise_append.mpr ⟨taken.behind, List.pairwise_singleton _ _, ?_⟩
    intro first inSent second atPlaced _
    rw [List.mem_singleton.mp atPlaced]
    exact last first (taken.mem_tokens (List.mem_append_left _ inSent))

theorem operator (taken : Taken operand? tokens sent waiting output stack) {op : Operator}
    (isOperator : placed.token = .operator op) :
    Taken operand? (tokens ++ [placed]) sent (placed :: waiting) output
      (.operator op :: stack) := by
  refine ⟨taken.nodes, ?_, ?_, taken.behind⟩
  · rw [List.map_cons, taken.operators, isOperator, waitingOperators_cons_operator, List.map_cons]
  · have hasNode : placed.token.hasNode = true := by
      rw [isOperator]
      rfl
    have moved : (sent ++ placed :: waiting).Perm (sent ++ waiting ++ [placed]) :=
      List.perm_middle.trans (List.perm_append_singleton _ _).symm
    exact taken.perm_add hasNode moved

theorem paren (taken : Taken operand? tokens sent waiting output stack)
    (noNode : placed.token.hasNode = false) :
    Taken operand? (tokens ++ [placed]) sent waiting output stack := by
  refine ⟨taken.nodes, taken.operators, ?_, taken.behind⟩
  rw [List.filter_append, List.filter_cons_of_neg (by simp [noNode]), List.filter_nil,
    List.append_nil]
  exact taken.perm

theorem mem_iff (taken : Taken operand? tokens sent [] output []) :
    placed ∈ sent ↔ placed ∈ tokens ∧ placed.token.hasNode = true := by
  have perm := taken.perm
  rw [List.append_nil] at perm
  rw [perm.mem_iff, List.mem_filter]

/-- All tokens of a kind that has nodes are sent. -/
theorem perm_filter (taken : Taken operand? tokens sent [] output []) {p : Token → Bool}
    (part : ∀ token, p token = true → token.hasNode = true) :
    (sent.filter fun placed => p placed.token).Perm
      (tokens.filter fun placed => p placed.token) := by
  have both := taken.perm.filter fun placed => p placed.token
  have same (placed : Placed) : (p placed.token && placed.token.hasNode) = p placed.token := by
    cases isPart : p placed.token with
    | false => rfl
    | true => rw [part _ isPart, Bool.and_self]
  rwa [List.append_nil, List.filter_filter, funext same] at both

theorem operands_eq (taken : Taken operand? tokens sent [] output [])
    (ordered : tokens.Pairwise (·.position < ·.position)) :
    sent.filter (·.token.isOperand) = tokens.filter (·.token.isOperand) := by
  have sorted : (sent.filter (·.token.isOperand)).Pairwise (·.position < ·.position) :=
    (taken.behind.filter _).imp_of_mem fun _ atSecond before =>
      before (List.mem_filter.mp atSecond).2
  have perm := taken.perm_filter (p := Token.isOperand) fun token isOperand => by
    rw [Token.hasNode, isOperand, Bool.true_or]
  exact perm.eq_of_pairwise
    (fun first second _ _ (before : first.position < second.position) after => by omega)
    sorted (ordered.filter _)

theorem operator_behind (taken : Taken operand? tokens sent [] output [])
    (ordered : tokens.Pairwise (·.position < ·.position)) {operand operator : Placed}
    (isOperand : operand.token.isOperand = true) (isOperator : operator.token.isOperator = true)
    (inTokens : [operand, operator].Sublist tokens) : [operand, operator].Sublist sent := by
  have before := List.pairwise_iff_forall_sublist.mp ordered inTokens
  have atOperand : operand ∈ sent := taken.mem_iff.mpr
    ⟨inTokens.subset List.mem_cons_self, by rw [Token.hasNode, isOperand, Bool.true_or]⟩
  have atOperator : operator ∈ sent := taken.mem_iff.mpr
    ⟨inTokens.subset (by simp), by rw [Token.hasNode, isOperator, Bool.or_true]⟩
  refine sublist_pair_of_pairwise taken.behind atOperand atOperator ?_ fun after => ?_
  · rintro rfl
    omega
  · have contrary := after isOperand
    omega

/-- All tokens are sent, and rearranged at most. -/
theorem rearranged (taken : Taken operand? tokens sent [] output [])
    (ordered : tokens.Pairwise (·.position < ·.position)) : Rearranged tokens sent where
  only placed member := Bool.or_eq_true_iff.mp (taken.mem_iff.mp member).2
  operands := taken.operands_eq ordered
  operators := taken.perm_filter (p := Token.isOperator) fun token isOperator => by
    rw [Token.hasNode, isOperator, Bool.or_true]
  behind _ _ isOperand isOperator inTokens :=
    taken.operator_behind ordered isOperand isOperator inTokens

end Taken

namespace Conversion

variable {call : CallReader}

/-- What taking in one more token keeps. -/
theorem step_taken (uniform : call.Uniform) {state next : Conversion} {placed : Placed}
    {tokens sent waiting : List Placed}
    (taken : Taken call.operand? tokens sent waiting state.output state.stack)
    (last : ∀ other ∈ tokens, other.position < placed.position)
    (noComma : placed.token ≠ .comma) (stepped : step call state placed = .ok next) :
    next.finished = state.finished ∧ ∃ sent waiting,
      Taken call.operand? (tokens ++ [placed]) sent waiting next.output next.stack := by
  obtain ⟨token, position⟩ := placed
  rcases step_cases uniform stepped with ⟨node, isOperand, rfl⟩ | ⟨op, rfl, rfl⟩ | ⟨rfl, rfl⟩ |
    ⟨rfl, closed⟩ | ⟨comma, _⟩
  · have hasNode : token.hasNode = true := by
      rw [Token.hasNode, (CallReader.isOperand_of_operand? isOperand).1, Bool.true_or]
    exact ⟨rfl, _, _, taken.operand isOperand hasNode last⟩
  · obtain ⟨operators, nodes, split⟩ := waitingOperators_precedes op state.stack
    obtain ⟨called, kept, afterCall⟩ := taken.send split
    refine ⟨rfl, sent ++ called, ⟨.operator op, position⟩ :: kept, ?_⟩
    rw [pushOperator, nodes]
    exact afterCall.operator rfl
  · exact ⟨rfl, sent, waiting, ⟨taken.nodes, taken.operators, (taken.paren rfl).perm, taken.behind⟩⟩
  · obtain ⟨_, below, popped, rfl⟩ := closeParen_eq_ok closed
    obtain ⟨operators, rfl, split⟩ := waitingOperators_of_popToOpen popped
    obtain ⟨called, kept, afterCall⟩ := taken.send split
    exact ⟨rfl, _, _, afterCall.paren rfl⟩
  · exact absurd comma noComma

/-- A sequence of nodes for tokens between commas. -/
def Sequenced (operand? : Token → Option Node) (tokens : List Placed) (nodes : List Node) : Prop :=
  ∃ order, Rearranged tokens order ∧ List.Forall₂ (StandsFor operand?) order nodes

/-- What ending a sequence keeps. -/
theorem endSequence_taken {operand? : Token → Option Node} {state next : Conversion}
    {tokens sent waiting : List Placed}
    (taken : Taken operand? tokens sent waiting state.output state.stack)
    (ordered : tokens.Pairwise (·.position < ·.position))
    (ended : state.endSequence = .ok next) : ∃ nodes, Sequenced operand? tokens nodes ∧
      next = { finished := state.finished ++ [nodes] } := by
  obtain ⟨_, popped, rfl⟩ := endSequence_eq_ok ended
  obtain rfl := waitingOperators_of_popAll popped
  have split : waitingOperators state.stack =
      waitingOperators state.stack ++ waitingOperators [] := (List.append_nil _).symm
  obtain ⟨called, kept, sentAll⟩ := taken.send split
  obtain rfl := List.map_eq_nil_iff.mp sentAll.operators
  exact ⟨_, ⟨_, sentAll.rearranged ordered, sentAll.nodes⟩, rfl⟩

/-- What taking in the rest of a text keeps. -/
theorem foldlM_step_taken (uniform : call.Uniform) {placed : List Placed}
    {state last done : Conversion} {tokens sent waiting : List Placed}
    (taken : Taken call.operand? tokens sent waiting state.output state.stack)
    (noComma : ∀ other ∈ tokens, (other.token == .comma) = false)
    (ordered : (tokens ++ placed).Pairwise (·.position < ·.position))
    (run : placed.foldlM (step call) state = .ok last) (ended : last.endSequence = .ok done) :
    ∃ sequences, done.finished = state.finished ++ sequences ∧
      List.Forall₂ (Sequenced call.operand?)
        ((tokens ++ placed).splitOnP (·.token == .comma)) sequences := by
  induction placed generalizing state tokens sent waiting with
  | nil =>
    cases run
    rw [List.append_nil] at ordered ⊢
    obtain ⟨nodes, sequenced, rfl⟩ := endSequence_taken taken ordered ended
    rw [List.splitOnP_eq_singleton noComma]
    exact ⟨[nodes], rfl, .cons sequenced .nil⟩
  | cons first rest ih =>
    obtain ⟨next, stepped, run⟩ := of_foldlM_step_cons run
    by_cases comma : first.token = .comma
    · have ended : state.endSequence = .ok next := by
        rw [← stepped, step, comma]
      obtain ⟨nodes, sequenced, rfl⟩ :=
        endSequence_taken taken (List.pairwise_append.mp ordered).1 ended
      have after := (List.pairwise_append.mp ordered).2.1
      obtain ⟨sequences, all, behind⟩ := @ih _ [] _ _ (.start _) (by simp)
        (List.pairwise_cons.mp after).2 run
      rw [List.splitOnP_append_cons_of_forall_mem noComma _ (by simp [comma])]
      exact ⟨nodes :: sequences, by rw [all, List.append_assoc]; rfl, .cons sequenced behind⟩
    · have last : ∀ other ∈ tokens, other.position < first.position := fun other member =>
        (List.pairwise_append.mp ordered).2.2 other member first List.mem_cons_self
      obtain ⟨finished, sent, waiting, takenNext⟩ :=
        step_taken uniform taken last comma stepped
      have noCommas : ∀ other ∈ tokens ++ [first], (other.token == .comma) = false := by
        intro other member
        rcases List.mem_append.mp member with before | atFirst
        · exact noComma other before
        · rw [List.mem_singleton.mp atFirst]
          exact beq_false_of_ne comma
      rw [List.append_cons] at ordered ⊢
      rw [← finished]
      exact ih takenNext noCommas ordered run

end Conversion

/-- A scan that comes to the end of the text ends at its length. -/
theorem scanFrom_ending_eq {position ending : Nat} {text : List Char}
    (scanned : (scanFrom position text).ending = .ok ending) : ending = position + text.length := by
  induction position, text using scanFrom.induct with
  | case1 position =>
    rw [scanFrom] at scanned
    cases scanned
    rfl
  | case2 position c rest space ih =>
    rw [scanFrom_space space] at scanned
    rw [ih scanned, List.length_cons]
    omega
  | case3 position c rest noSpace cause offset read =>
    rw [scanFrom_error noSpace read] at scanned
    cases scanned
  | case4 position c rest noSpace token after read ih =>
    obtain ⟨text, valid, ends⟩ := readToken_eq_ok_iff.mp read
    rw [← text, scanFrom_lexeme valid ends] at scanned
    rw [ih scanned, ← text, List.length_append, Nat.add_assoc]

theorem length_segments (text : List Char) :
    (segments text).length = (scan text).tokens.countP (·.token == .comma) + 1 := by
  rw [segments]
  induction (scan text).tokens with
  | nil => rfl
  | cons first rest ih =>
    rw [List.splitOnP_cons_eq_if_modifyHead, List.countP_cons]
    split
    · rw [List.length_cons, ih]
    · rw [List.length_modifyHead, ih]

/-- What a conversion makes of a whole text. -/
theorem Conversion.sequenced_of_run {call : CallReader} (uniform : call.Uniform)
    {text : List Char} {found : List (List Node)} (read : run call text = .ok found) :
    (scan text).ending = .ok text.length ∧
      List.Forall₂ (Sequenced call.operand?) (segments text) found := by
  obtain ⟨state, done, behind, folded, ending, ended, rfl⟩ := run_eq_ok_iff_steps.mp read
  obtain ⟨sequences, all, sequenced⟩ := @foldlM_step_taken _ uniform _ _ _ _ [] _ _ (.start _)
    (by simp) (scan_pairwise_position text) folded ended
  rw [List.nil_append] at all
  rw [all]
  refine ⟨?_, sequenced⟩
  have atEnd := scanFrom_ending_eq ending
  rw [Nat.zero_add] at atEnd
  rw [ending, atEnd]

theorem carriesAll_of_standsFor {operand? : Token → Option Node} {order : List Placed}
    {nodes : List Node} (stand : List.Forall₂ (StandsFor operand?) order nodes)
    (carries : ∀ token node, operand? token = some node → Carries token node) :
    CarriesAll order nodes := by
  induction stand with
  | nil => exact .nil
  | @cons placed node order nodes atFirst _ ih =>
    refine .cons ?_ ih
    rcases atFirst with isOperand | ⟨op, isOperator, rfl⟩
    · exact carries _ _ isOperand
    · rw [isOperator]
      exact .operator op

theorem carriesEach_of_sequenced {operand? : Token → Option Node} {parts : List (List Placed)}
    {found : List (List Node)}
    (sequenced : List.Forall₂ (Conversion.Sequenced operand?) parts found)
    (carries : ∀ token node, operand? token = some node → Carries token node) :
    CarriesEach parts found := by
  induction sequenced with
  | nil => exact .nil
  | cons atFirst _ ih =>
    obtain ⟨order, rearranged, stand⟩ := atFirst
    exact .cons rearranged (carriesAll_of_standsFor stand carries) ih

/-- What is read of a text carries its tokens, on the outside and in the arguments of calls. -/
theorem Limits.carriesEach_of_sequences {limits : Limits} {levels depth : Nat} {text : List Char}
    {found : List (List Node)}
    (read : Placement.sequences limits levels depth text = .ok found) :
    (scan text).ending = .ok text.length ∧
      found.length = (scan text).tokens.countP (·.token == .comma) + 1 ∧
      CarriesEach (segments text) found := by
  induction levels using Nat.strongRecOn generalizing depth text found with
  | ind levels ih =>
    rw [sequences_eq_run] at read
    obtain ⟨ending, sequenced⟩ := Conversion.sequenced_of_run (reader_uniform _ _ _) read
    refine ⟨ending, by rw [← sequenced.length_eq, length_segments],
      carriesEach_of_sequenced sequenced fun token node made => ?_⟩
    cases token with
    | number digits =>
      cases made
      exact .number digits
    | identifier name =>
      cases made
      exact .identifier name
    | constant name =>
      obtain ⟨value, found, rfl⟩ := Option.map_eq_some_iff.mp made
      exact .constant found
    | call name arguments =>
      obtain ⟨_, inner, sequences, rfl, rfl, readInner⟩ :=
        reader_eq_ok_iff.mp (operand?_call_iff.mp made)
      split at readInner
      · rename_i blank
        rw [readInner]
        exact .blank name blank
      · rename_i written
        obtain ⟨endingInner, length, each⟩ := ih inner (Nat.lt_succ_self inner) readInner
        exact .call name (Bool.not_eq_true _ ▸ written) endingInner length each
    | operator | leftParen | rightParen | comma => cases made

/-- Reading a formula loses no token, doubles none and leaves none over. Its sequence and those of
the arguments of its calls hold no marker; on every level the operands are those of the text, one
node for each in the order of the text, and the operators are those of the text, none of them in
front of an operand that it stands behind; and each argument holds what stands between its
commas. -/
theorem parse_carries {limits : Limits} {text : List Char} {nodes : List Node}
    (parsed : parse limits text = .ok nodes) : Node.markersAll nodes = [] ∧
      (scan text).ending = .ok text.length ∧ CarriesEach (segments text) [nodes] := by
  obtain ⟨_, read⟩ := Limits.parse_eq_ok_iff.mp parsed
  obtain ⟨ending, _, each⟩ := Limits.carriesEach_of_sequences read
  have none := each.markers
  rw [Node.markersEach, Node.markersEach, List.append_nil] at none
  exact ⟨none, ending, each⟩

/-- Operands side by side, and an argument without tokens. -/
theorem carries_of_side_by_side :
    parse {} "x max(y, ) + z".toList =
        .ok [.variable "x", .call "max" [[.variable "y"], []], .variable "z", .operator .add] ∧
      (scan "x max(y, ) + z".toList).ending = .ok 14 ∧
      CarriesEach (segments "x max(y, ) + z".toList)
        [[.variable "x", .call "max" [[.variable "y"], []], .variable "z", .operator .add]] := by
  have parsed : parse {} "x max(y, ) + z".toList =
      .ok [.variable "x", .call "max" [[.variable "y"], []], .variable "z", .operator .add] := by
    decide +kernel
  obtain ⟨_, ending, each⟩ := parse_carries parsed
  exact ⟨parsed, ending, each⟩

end Placement
