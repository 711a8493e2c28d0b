import Mathlib.Algebra.Order.BigOperators.Group.List
import Placement.Proofs.Formula.Acceptance
import Placement.Proofs.Formula.Carrying
import Placement.Proofs.Formula.Depth
import Placement.Proofs.Formula.Progress

/-!
How much is read of a text. A conversion makes one node of every operand and operator and none of
anything else, and the arguments of a call are shorter than the text around them. So reading comes
to an end however deep calls nest, and what is read is no larger than the text.
-/

namespace Placement

namespace Node

theorem countSequence_append (first second : List Node) :
    countSequence (first ++ second) = countSequence first + countSequence second := by
  induction first with
  | nil => rw [List.nil_append, countSequence, Nat.zero_add]
  | cons node rest ih => rw [List.cons_append, countSequence, countSequence, ih, Nat.add_assoc]

theorem countArguments_append (first second : List (List Node)) :
    countArguments (first ++ second) = countArguments first + countArguments second := by
  induction first with
  | nil => rw [List.nil_append, countArguments, Nat.zero_add]
  | cons nodes rest ih => rw [List.cons_append, countArguments, countArguments, ih, Nat.add_assoc]

theorem countSequence_singleton (node : Node) : countSequence [node] = node.count := by
  rw [countSequence, countSequence, Nat.add_zero]

theorem countArguments_singleton (nodes : List Node) :
    countArguments [nodes] = countSequence nodes := by
  rw [countArguments, countArguments, Nat.add_zero]

theorem countSequence_operators (operators : List Operator) :
    countSequence (operators.map .operator) = operators.length := by
  induction operators with
  | nil => rw [List.map_nil, countSequence, List.length_nil]
  | cons op rest ih =>
    have one : (operator op).count = 1 := by simp only [count]
    rw [List.map_cons, countSequence, one, ih, List.length_cons, Nat.add_comm]

end Node

/-- The number of nodes that a token makes, those in the arguments of a call included. -/
def CallReader.weight (call : CallReader) : Token → Nat
  | .operator _ => 1
  | token => (call.operand? token).elim 0 Node.count

theorem CallReader.weight_of_operand? {call : CallReader} {token : Token} {node : Node}
    (isOperand : call.operand? token = some node) : call.weight token = node.count := by
  cases token with
  | operator => cases isOperand
  | _ => simp only [weight, isOperand, Option.elim_some]

namespace Conversion

variable {call : CallReader} {state next last done : Conversion}

/-- The number of nodes in a conversion, with those of the operators that wait. -/
def size (state : Conversion) : Nat :=
  Node.countArguments state.finished + Node.countSequence state.output +
    (waitingOperators state.stack).length

/-- Operators that are called from the stack are counted in the output instead. -/
theorem countSequence_send {stack below : List Pending} {operators : List Operator}
    (split : waitingOperators stack = operators ++ waitingOperators below) (output : List Node) :
    Node.countSequence (output ++ operators.map .operator) + (waitingOperators below).length =
      Node.countSequence output + (waitingOperators stack).length := by
  rw [Node.countSequence_append, Node.countSequence_operators, split, List.length_append,
    Nat.add_assoc]

theorem size_pushOperator (state : Conversion) (op : Operator) :
    (state.pushOperator op).size = state.size + 1 := by
  obtain ⟨operators, nodes, split⟩ := waitingOperators_precedes op state.stack
  have sent := countSequence_send split state.output
  have finished : (state.pushOperator op).finished = state.finished := rfl
  have output : (state.pushOperator op).output = state.output ++ operators.map .operator :=
    congrArg (state.output ++ ·) nodes
  have stack : waitingOperators (state.pushOperator op).stack =
      op :: waitingOperators (state.stack.dropWhile (Pending.precedes op)) := rfl
  rw [size, finished, output, stack, List.length_cons, size]
  omega

theorem size_closeParen {position : Nat} (closed : state.closeParen position = .ok next) :
    next.size = state.size := by
  obtain ⟨_, below, popped, rfl⟩ := closeParen_eq_ok closed
  obtain ⟨operators, rfl, split⟩ := waitingOperators_of_popToOpen popped
  have sent := countSequence_send split state.output
  simp only [size]
  omega

/-- All nodes are in finished sequences behind the end of one. -/
theorem size_endSequence (ended : state.endSequence = .ok done) :
    done.size = state.size ∧ Node.countArguments done.finished = done.size := by
  obtain ⟨_, popped, rfl⟩ := endSequence_eq_ok ended
  obtain rfl := waitingOperators_of_popAll popped
  constructor
  · simp only [size, Node.countArguments_append, Node.countArguments_singleton,
      Node.countSequence_append, Node.countSequence_operators, Node.countSequence,
      waitingOperators, List.filterMap_nil, List.length_nil]
    omega
  · rfl

/-- One token makes its own nodes. Those that are there already stay. -/
theorem size_step (uniform : call.Uniform) {placed : Placed}
    (stepped : step call state placed = .ok next) :
    next.size = state.size + call.weight placed.token := by
  obtain ⟨token, position⟩ := placed
  rcases step_cases uniform stepped with ⟨node, isOperand, rfl⟩ | ⟨op, rfl, rfl⟩ | ⟨rfl, rfl⟩ |
    ⟨rfl, closed⟩ | ⟨rfl, ended⟩
  · rw [CallReader.weight_of_operand? isOperand]
    simp only [size, emit, Node.countSequence_append, Node.countSequence_singleton]
    omega
  · exact size_pushOperator state op
  · rfl
  · exact size_closeParen closed
  · exact (size_endSequence ended).1

theorem size_foldlM_step (uniform : call.Uniform) {placed : List Placed}
    (run : placed.foldlM (step call) state = .ok last) :
    last.size = state.size + (placed.map fun one => call.weight one.token).sum := by
  induction placed generalizing state with
  | nil =>
    cases run
    rfl
  | cons first rest ih =>
    obtain ⟨next, stepped, run⟩ := of_foldlM_step_cons run
    rw [ih run, size_step uniform stepped, List.map_cons, List.sum_cons, Nat.add_assoc]

/-- A conversion has as many nodes as its tokens make. -/
theorem count_of_run (uniform : call.Uniform) {text : List Char} {found : List (List Node)}
    (read : run call text = .ok found) : Node.countArguments found =
      ((scan text).tokens.map fun placed => call.weight placed.token).sum := by
  obtain ⟨state, done, behind, folded, _, ended, rfl⟩ := run_eq_ok_iff_steps.mp read
  obtain ⟨same, all⟩ := size_endSequence ended
  rw [all, same, size_foldlM_step uniform folded]
  exact Nat.zero_add _

theorem step_congr {other : CallReader} {placed : Placed}
    (same : ∀ name arguments, placed.token = .call name arguments →
      call name arguments placed.position = other name arguments placed.position)
    (state : Conversion) : step call state placed = step other state placed := by
  obtain ⟨token, position⟩ := placed
  cases token with
  | call name arguments => exact congrArg (Except.map state.emit) (same name arguments rfl)
  | _ => rfl

theorem foldlM_step_congr {other : CallReader} {placed : List Placed}
    (same : ∀ one ∈ placed, ∀ state, step call state one = step other state one)
    (state : Conversion) :
    placed.foldlM (step call) state = placed.foldlM (step other) state := by
  induction placed generalizing state with
  | nil => rfl
  | cons first rest ih =>
    obtain ⟨atFirst, atRest⟩ := List.forall_mem_cons.mp same
    rw [List.foldlM_cons, List.foldlM_cons, atFirst]
    exact congrArg _ (funext fun next => ih atRest next)

/-- Only the calls of a text matter to its conversion. -/
theorem run_congr {other : CallReader} {text : List Char}
    (same : ∀ placed ∈ (scan text).tokens, ∀ name arguments, placed.token = .call name arguments →
      call name arguments placed.position = other name arguments placed.position) :
    run call text = run other text := by
  have folded := foldlM_step_congr (fun placed member => step_congr (same placed member)) {}
  unfold run
  dsimp only
  rw [folded]

end Conversion

theorem Tiles.sum_lexemes_le {behind front : List Char} {position : Nat} {placed : List Placed}
    (tiles : Tiles behind position front placed) :
    (placed.map fun one => one.token.lexeme.length).sum ≤ front.length := by
  induction tiles with
  | last => exact Nat.zero_le _
  | more _ _ _ _ ih =>
    rw [List.map_cons, List.sum_cons, List.length_append, List.length_append]
    exact Nat.le_trans (Nat.add_le_add_left ih _) (Nat.le_add_left _ _)

theorem sum_lexemes_le (text : List Char) :
    ((scan text).tokens.map fun placed => placed.token.lexeme.length).sum ≤ text.length := by
  obtain ⟨front, behind, whole, tiles, _⟩ := exists_tiles 0 text
  have taken := tiles.sum_lexemes_le
  rw [whole, List.length_append, ← whole]
  exact Nat.le_trans taken (Nat.le_add_right _ _)

namespace Limits

variable {limits : Limits} {levels depth : Nat}

/-- A token makes no more nodes than it has characters if the arguments of calls do not either. -/
theorem weight_le {token : Token} (valid : token.Valid)
    (inside : ∀ inner arguments found, levels = inner + 1 →
      Placement.sequences limits inner (depth + 1) arguments = .ok found →
      Node.countArguments found ≤ arguments.length) :
    (limits.reader levels depth).weight token ≤ token.lexeme.length := by
  have written : 1 ≤ token.lexeme.length := List.length_pos_iff.mpr valid.lexeme_ne_nil
  cases made : (limits.reader levels depth).operand? token with
  | none =>
    cases token with
    | operator => exact written
    | _ =>
      simp only [CallReader.weight, made, Option.elim_none]
      exact Nat.zero_le _
  | some node =>
    rw [CallReader.weight_of_operand? made]
    cases token with
    | number | identifier =>
      cases made
      simpa only [Node.count] using written
    | constant name =>
      obtain ⟨value, _, rfl⟩ := Option.map_eq_some_iff.mp made
      simpa only [Node.count] using written
    | call name arguments =>
      obtain ⟨_, inner, sequences, same, rfl, read⟩ :=
        reader_eq_ok_iff.mp (operand?_call_iff.mp made)
      have within : Node.countArguments sequences ≤ arguments.length := by
        split at read
        · rw [read, Node.countArguments]
          exact Nat.zero_le _
        · exact inside inner arguments sequences same read
      rw [Node.count, Token.length_lexeme_call]
      omega
    | operator | leftParen | rightParen | comma => cases made

/-- There are no more nodes in what is read than characters in the text. -/
theorem count_of_sequences {text : List Char} {found : List (List Node)}
    (read : Placement.sequences limits levels depth text = .ok found) :
    Node.countArguments found ≤ text.length := by
  induction levels using Nat.strongRecOn generalizing depth text found with
  | ind levels ih =>
    rw [sequences_eq_run] at read
    have each : ∀ placed ∈ (scan text).tokens,
        (limits.reader levels depth).weight placed.token ≤ placed.token.lexeme.length := by
      intro placed member
      refine weight_le (mem_scanFrom member).1 fun inner arguments found same readInner => ?_
      exact ih inner (by omega) readInner
    calc Node.countArguments found
        = ((scan text).tokens.map fun placed =>
            (limits.reader levels depth).weight placed.token).sum :=
          Conversion.count_of_run (reader_uniform _ _ _) read
      _ ≤ ((scan text).tokens.map fun placed => placed.token.lexeme.length).sum :=
          List.sum_le_sum each
      _ ≤ text.length := sum_lexemes_le text

end Limits

/-- Each level of nested calls takes a name and two parentheses. -/
theorem Nests.three_mul_le {depth : Nat} {text : List Char} (nests : Nests depth text) :
    3 * depth ≤ text.length := by
  induction nests with
  | zero => exact Nat.zero_le _
  | call before after word _ _ ih =>
    have named := List.length_pos_iff.mpr word.ne_nil
    simp only [List.length_append, List.length_cons]
    omega

theorem Failure.not_isReading_nesting : ¬ Failure.nesting.IsReading := by
  rintro (⟨_, _, same⟩ | ⟨_, _, same⟩) <;> cases same

/-- How a call inside of `depth` others is read if `read` reads its arguments. -/
def Limits.follow (limits : Limits) (read : List Char → Except Failure (List (List Node)))
    (depth : Nat) : CallReader := fun name arguments position => do
  limits.admit (depth + 1) name position
  callNode read name arguments

/-- Reading a text inside of `depth` calls comes to a result. The arguments of all its calls are
read in the same way, however deep these nest, and also where the text is refused before. -/
inductive ReadsTo (limits : Limits) : Nat → List Char → Except Failure (List (List Node)) → Prop
  | intro {depth : Nat} {text : List Char}
      (read : List Char → Except Failure (List (List Node))) :
      (∀ placed ∈ (scan text).tokens, ∀ name arguments, placed.token = .call name arguments →
        ReadsTo limits (depth + 1) arguments (read arguments)) →
      ReadsTo limits depth text (Conversion.run (limits.follow read depth) text)

namespace ReadsTo

variable {limits : Limits} {levels depth : Nat} {text : List Char}
  {result other : Except Failure (List (List Node))}

/-- There is one result at most. -/
theorem unique (first : ReadsTo limits depth text result)
    (second : ReadsTo limits depth text other) : result = other := by
  induction first generalizing other with
  | intro read _ ih =>
    cases second with
    | intro again inside =>
      refine Conversion.run_congr fun placed member name arguments isCall => ?_
      have reads := inside placed member name arguments isCall
      have same := ih placed member name arguments isCall reads
      simp only [Limits.follow, callNode, same]

/-- No more levels are needed than a third of the text is long. -/
theorem of_levels (enough : text.length < 3 * (levels + 1)) :
    ReadsTo limits depth text (sequences limits levels depth text) := by
  induction levels generalizing depth text with
  | zero =>
    have none : ∀ placed ∈ (scan text).tokens, ∀ name arguments,
        placed.token ≠ .call name arguments := by
      intro placed member name arguments isCall
      have shorter := arguments_length_add_three_le member isCall
      omega
    have reads := @ReadsTo.intro limits depth text (fun _ => .error .nesting)
      fun placed member name arguments isCall => absurd isCall (none placed member name arguments)
    rw [Limits.sequences_eq_run]
    rwa [Conversion.run_congr fun placed member name arguments isCall =>
      absurd isCall (none placed member name arguments)] at reads
  | succ inner ih =>
    refine ReadsTo.intro (sequences limits inner (depth + 1)) ?_
    intro placed member name arguments isCall
    refine ih ?_
    have shorter := arguments_length_add_three_le member isCall
    omega

/-- What is read is read to where calls are followed however deep. -/
theorem of_sequences (allowed : limits.Allows depth) {found : List (List Node)}
    (read : sequences limits levels depth text = .ok found) :
    ReadsTo limits depth text (.ok found) := by
  obtain ⟨within, allows⟩ := Limits.depth_of_sequences read
  have deep : limits.Allows (depth + Node.depthArguments found) := by
    by_cases some : 0 < Node.depthArguments found
    · exact allows some
    · exact Limits.allows_of_le allowed (by omega)
  have enough : text.length < 3 * (levels + text.length + 1) := by omega
  rw [← Limits.sequences_transfer read (Nat.le_add_right_of_le within) deep]
  exact of_levels enough

theorem eq_sequences (reads : ReadsTo limits depth text result) :
    result = sequences limits (text.length / 3) depth text :=
  reads.unique (of_levels (by omega))

theorem count_le {found : List (List Node)} (reads : ReadsTo limits depth text (.ok found)) :
    Node.countArguments found ≤ text.length :=
  Limits.count_of_sequences reads.eq_sequences.symm

/-- Each level of calls in what is read takes three characters. -/
theorem depth_le {found : List (List Node)} (reads : ReadsTo limits depth text (.ok found)) :
    3 * Node.depthArguments found ≤ text.length := by
  have within := (Limits.depth_of_sequences reads.eq_sequences.symm).1
  omega

/-- No text is given up for how deep its calls nest. -/
theorem ne_nesting (reads : ReadsTo limits depth text result) : result ≠ .error .nesting := by
  rintro rfl
  obtain ⟨_, nests⟩ :=
    (sequences_eq_error reads.eq_sequences.symm).resolve_left Failure.not_isReading_nesting
  have long := nests.three_mul_le
  omega

/-- Every text comes to a result, and to one only. -/
theorem exists_iff_eq (limits : Limits) (depth : Nat) (text : List Char) :
    ∃ result, result ≠ .error .nesting ∧
      ∀ other, ReadsTo limits depth text other ↔ other = result := by
  have reads : ReadsTo limits depth text (sequences limits (text.length / 3) depth text) :=
    of_levels (by omega)
  refine ⟨_, reads.ne_nesting, fun other => ⟨fun again => again.unique reads, ?_⟩⟩
  rintro rfl
  exact reads

end ReadsTo

theorem length_of_parse_nesting {limits : Limits} {text : List Char}
    (failed : parse limits text = .error .nesting) : 3 * (limits.levels + 1) ≤ text.length := by
  obtain ⟨_, nests⟩ := (parse_fails failed).resolve_left Failure.not_isReading_nesting
  exact nests.three_mul_le

/-- Looking for a token fails, finds the end of the text, or moves on, so that a scan gives one
token more than there are characters at most, the end included. The arguments of a call are at
least three characters shorter than the text that it stands in. So reading a text comes to one
result, however deep calls nest, and a third of its characters bounds the levels. A formula has no
more nodes than characters, and no more than a third as many levels of calls. -/
theorem parse_bounded (limits : Limits) (source : List Char) :
    (∀ position, position ≤ source.length →
      (∃ error, nextToken source position = .error error) ∨
      nextToken source position = .ok (none, source.length) ∨
      ∃ placed next, nextToken source position = .ok (some placed, next) ∧
        position < next ∧ next ≤ source.length) ∧
    (∀ produced, Produces source 0 produced ↔ produced <+: (scan source).produced) ∧
    (scan source).produced.length ≤ source.length + 1 ∧
    (∀ placed ∈ (scan source).tokens, ∀ name arguments, placed.token = .call name arguments →
      arguments.length + 3 ≤ source.length) ∧
    (∀ depth, ∃ result, result ≠ .error .nesting ∧
      ∀ other, ReadsTo limits depth source other ↔ other = result) ∧
    (∀ depth levels, source.length < 3 * (levels + 1) →
      ReadsTo limits depth source (sequences limits levels depth source)) ∧
    (parse limits source = .error .nesting → 3 * (limits.levels + 1) ≤ source.length) ∧
    (∀ depth found, ReadsTo limits depth source (.ok found) →
      Node.countArguments found ≤ source.length ∧
        3 * Node.depthArguments found ≤ source.length) ∧
    ∀ nodes, parse limits source = .ok nodes → ReadsTo limits 0 source (.ok [nodes]) ∧
      Node.countSequence nodes ≤ source.length ∧ 3 * Node.depthSequence nodes ≤ source.length := by
  refine ⟨fun position within => ?_, fun _ => produces_scan_iff, length_produced_le source,
    fun placed member name arguments isCall => arguments_length_add_three_le member isCall,
    fun depth => ReadsTo.exists_iff_eq limits depth source,
    fun depth levels enough => ReadsTo.of_levels enough, length_of_parse_nesting,
    fun depth found reads => ⟨reads.count_le, reads.depth_le⟩, fun nodes parsed => ?_⟩
  · rcases nextToken_cases within with ⟨error, failed, _⟩ | ⟨ended, _⟩ |
      ⟨placed, next, found, moved, inText, _⟩
    · exact Or.inl ⟨error, failed⟩
    · exact Or.inr (Or.inl ended)
    · exact Or.inr (Or.inr ⟨placed, next, found, moved, inText⟩)
  · obtain ⟨_, read⟩ := Limits.parse_eq_ok_iff.mp parsed
    have reads := ReadsTo.of_sequences limits.allows_zero read
    have count := reads.count_le
    have depth := reads.depth_le
    rw [Node.countArguments_singleton] at count
    rw [Node.depthArguments_singleton] at depth
    exact ⟨reads, count, depth⟩

/-- Three calls in three characters each. -/
theorem bounded_of_nested_calls :
    let source := "f(f(f()))".toList
    let nodes : List Node := [.call "f" [[.call "f" [[.call "f" []]]]]]
    ⟨.call "f" "f(f())".toList, 0⟩ ∈ (scan source).tokens ∧
      "f(f())".toList.length + 3 ≤ source.length ∧
      ReadsTo {} 0 source (sequences {} 3 0 source) ∧
      parse {} source = .ok nodes ∧ Node.countSequence nodes ≤ source.length ∧
      3 * Node.depthSequence nodes ≤ source.length := by
  intro source nodes
  have valid : (Token.call "f" "f(f())".toList).Valid :=
    ⟨⟨'f', [], rfl, rfl, List.forall_mem_nil _⟩, rfl⟩
  have member : ⟨.call "f" "f(f())".toList, 0⟩ ∈ (scan source).tokens := by
    have scanned : scan source = _ := @scanFrom_lexeme _ [] valid trivial 0
    rw [scanned]
    exact List.mem_cons_self
  have parsed : parse {} "f(f(f()))".toList =
      .ok [.call "f" [[.call "f" [[.call "f" []]]]]] := by decide +kernel
  obtain ⟨_, _, _, shorter, _, reads, _, _, bounds⟩ := parse_bounded {} source
  obtain ⟨_, count, depth⟩ := bounds nodes parsed
  exact ⟨member, shorter _ member "f" _ rfl, reads 0 3 (by decide), parsed, count, depth⟩

end Placement
