import Placement.Proofs.Formula.Conversion
import Placement.Proofs.Formula.Tree

namespace Placement

/-- The rank up to which operators stand bare on the left of an operator. -/
def Operator.leftRank : Operator → Nat
  | power => 0
  | op => op.rank

/-- The rank up to which operators stand bare on the right. Only powers group to the right. -/
def Operator.rightRank : Operator → Nat
  | power => 1
  | op => op.rank - 1

/-- The rank of the loosest operators. -/
def Operator.loosest : Nat := 3

mutual

/-- A text of a tree. Operators up to a rank may stand in it outside of parentheses. -/
inductive Written : Nat → Tree → List Char → Prop
  | number {rank : Nat} {digits : List Char} : (Token.number digits).Valid →
      Written rank (.number (numeralValue digits).toSingle) digits
  | constant {rank : Nat} {name : String} {value : Single} :
      Builtin.constant? name = some value → Written rank (.number value) name.toList
  | variable {rank : Nat} {name : String} : (Token.identifier name).Valid →
      Written rank (.variable name) name.toList
  | call {rank : Nat} {name : String} {arguments : List Tree} {text : List Char} :
      (Token.identifier name).Valid → WrittenEach arguments text →
      Written rank (.call name arguments) (name.toList ++ '(' :: (text ++ [')']))
  | operation {rank : Nat} {op : Operator} {left right : Tree} {before behind : List Char} :
      op.rank ≤ rank → Written op.leftRank left before → Written op.rightRank right behind →
      Written rank (.operation op left right) (before ++ op.symbol :: behind)
  | group {rank : Nat} {tree : Tree} {text : List Char} :
      Written Operator.loosest tree text → Written rank tree ('(' :: (text ++ [')']))
  | spaceBefore {rank : Nat} {tree : Tree} {c : Char} {text : List Char} :
      isSpace c = true → Written rank tree text → Written rank tree (c :: text)
  | spaceBehind {rank : Nat} {tree : Tree} {c : Char} {text : List Char} :
      isSpace c = true → Written rank tree text → Written rank tree (text ++ [c])

/-- The texts of some trees with commas between them. -/
inductive WrittenEach : List Tree → List Char → Prop
  | none {text : List Char} : (∀ c ∈ text, isSpace c = true) → WrittenEach [] text
  | last {tree : Tree} {text : List Char} :
      Written Operator.loosest tree text → WrittenEach [tree] text
  | more {tree next : Tree} {rest : List Tree} {text others : List Char} :
      Written Operator.loosest tree text → WrittenEach (next :: rest) others →
      WrittenEach (tree :: next :: rest) (text ++ ',' :: others)

end

namespace Operator

theorem leftRank_le (op : Operator) : op.leftRank ≤ op.rank := by
  cases op <;> decide

theorem rightRank_le (op : Operator) : op.rightRank ≤ op.rank := by
  cases op <;> decide

/-- What stands bare on the left is called. -/
theorem calls_of_le_leftRank {op top : Operator} (le : top.rank ≤ op.leftRank) :
    op.calls top = true := by
  revert le
  cases op <;> cases top <;> decide

/-- What stands bare on the right does not call the operator. -/
theorem calls_of_le_rightRank {op later : Operator} (le : later.rank ≤ op.rightRank) :
    later.calls op = false := by
  revert le
  cases op <;> cases later <;> decide

end Operator

/-- No operator up to a rank calls the one that waits on top. -/
def Clear (rank : Nat) (waiting : List Operator) : Prop :=
  ∀ op : Operator, op.rank ≤ rank → waiting.takeWhile op.calls = []

theorem Clear.nil (rank : Nat) : Clear rank [] := fun _ _ => rfl

theorem Clear.mono {rank less : Nat} {waiting : List Operator} (clear : Clear rank waiting)
    (le : less ≤ rank) : Clear less waiting :=
  fun op within => clear op (Nat.le_trans within le)

theorem Clear.cons (op : Operator) (waiting : List Operator) :
    Clear op.rightRank (op :: waiting) := by
  intro later within
  rw [List.takeWhile_cons, Operator.calls_of_le_rightRank within]
  rfl

namespace Item

/-- Items that bring a sequence of nodes to the output. Only operators up to a rank wait
behind them, and none that waited before is called. -/
def Shunts (rank : Nat) (items : List Item) (nodes : List Node) : Prop :=
  ∀ waiting, Clear rank waiting → ∃ output added,
    shuntAll items waiting = (output, added ++ waiting) ∧
      output ++ added.map .operator = nodes ∧ ∀ op ∈ added, op.rank ≤ rank

theorem shunts_operand (rank : Nat) (node : Node) : Shunts rank [.operand node] [node] := by
  intro waiting _
  exact ⟨[node], [], by rw [shuntAll_operand, shuntAll_nil]; rfl, rfl, nofun⟩

variable {rank : Nat} {items : List Item} {nodes : List Node}

theorem Shunts.arrange (shunts : Shunts rank items nodes) : arrange items = nodes := by
  obtain ⟨output, added, run, same, _⟩ := shunts [] (.nil rank)
  rw [Item.arrange, run, List.append_nil]
  exact same

theorem Shunts.group (shunts : Shunts rank items nodes) (other : Nat) :
    Shunts other [.group items] nodes := by
  intro waiting _
  refine ⟨nodes, [], ?_, List.append_nil nodes, nofun⟩
  rw [shuntAll_group, shuntAll_nil, shunts.arrange, List.append_nil]
  rfl

theorem takeWhile_calls_append {op : Operator} {added waiting : List Operator}
    (called : ∀ top ∈ added, op.calls top = true) (clear : waiting.takeWhile op.calls = []) :
    (added ++ waiting).takeWhile op.calls = added ∧
      (added ++ waiting).dropWhile op.calls = waiting := by
  have all : waiting.dropWhile op.calls = waiting := by
    have whole := List.takeWhile_append_dropWhile (p := op.calls) (l := waiting)
    rwa [clear, List.nil_append] at whole
  rw [List.takeWhile_append_of_pos called, List.dropWhile_append_of_pos called, clear, all]
  exact ⟨List.append_nil added, rfl⟩

theorem Shunts.operation {op : Operator} {left right : List Item} {first second : List Node}
    (atLeft : Shunts op.leftRank left first) (atRight : Shunts op.rightRank right second)
    (within : op.rank ≤ rank) :
    Shunts rank (left ++ .operator op :: right) (first ++ second ++ [.operator op]) := by
  intro waiting clear
  have leftClear := clear.mono (Nat.le_trans op.leftRank_le within)
  obtain ⟨output, added, run, rfl, bound⟩ := atLeft waiting leftClear
  obtain ⟨more, others, runRight, rfl, boundRight⟩ := atRight (op :: waiting) (.cons op waiting)
  have called : ∀ top ∈ added, op.calls top = true :=
    fun top member => Operator.calls_of_le_leftRank (bound top member)
  obtain ⟨taken, left⟩ := takeWhile_calls_append called (clear op within)
  refine ⟨output ++ (added.map .operator ++ more), others ++ [op], ?_, ?_, ?_⟩
  · rw [shuntAll_append, run, shuntAll_operator, taken, left, runRight, List.append_assoc]
    rfl
  · simp only [List.map_append, List.map_cons, List.map_nil, List.append_assoc]
  · intro other member
    rcases List.mem_append.mp member with earlier | last
    · exact Nat.le_trans (boundRight other earlier) (Nat.le_trans op.rightRank_le within)
    · rw [List.mem_singleton.mp last]
      exact within

end Item

/-- A text read as items that bring the postfix form of a tree to the output. -/
def ReadAs (call : CallReader) (rank : Nat) (tree : Tree) (text : List Char) : Prop :=
  ∃ tokens items, tokens ≠ [] ∧ Lexes text tokens ∧ Grouped call.operand? tokens items ∧
    Item.Shunts rank items tree.nodes

namespace ReadAs

variable {call : CallReader} {rank : Nat} {tree : Tree} {text : List Char}

theorem operand {token : Token} {node : Node} (valid : token.Valid)
    (isOperand : call.operand? token = some node) (same : tree.nodes = [node]) :
    ReadAs call rank tree token.lexeme := by
  have lexes : Lexes (token.lexeme ++ []) [token] :=
    .token valid (.of_headNot .nil) .nil
  rw [List.append_nil] at lexes
  refine ⟨[token], [.operand node], List.cons_ne_nil _ _, lexes, .operand isOperand .nil, ?_⟩
  rw [same]
  exact Item.shunts_operand rank node

theorem operation {op : Operator} {left right : Tree} {before behind : List Char}
    (within : op.rank ≤ rank) (atLeft : ReadAs call op.leftRank left before)
    (atRight : ReadAs call op.rightRank right behind) :
    ReadAs call rank (.operation op left right) (before ++ op.symbol :: behind) := by
  obtain ⟨first, items, _, lexesLeft, groupedLeft, shuntsLeft⟩ := atLeft
  obtain ⟨second, others, _, lexesRight, groupedRight, shuntsRight⟩ := atRight
  have stop : HeadNot continues (op.symbol :: behind) := .cons (by cases op <;> rfl) _
  refine ⟨first ++ .operator op :: second, items ++ .operator op :: others, by simp,
    lexesLeft.append stop (lexesRight.operator op),
    groupedLeft.append (.operator op groupedRight), ?_⟩
  exact shuntsLeft.operation shuntsRight within

theorem group {inside : Nat} (read : ReadAs call inside tree text) :
    ReadAs call rank tree ('(' :: (text ++ [')'])) := by
  obtain ⟨tokens, items, _, lexes, grouped, shunts⟩ := read
  have closed : Lexes (text ++ [')']) (tokens ++ [.rightParen]) :=
    lexes.append (.cons rfl []) (.rightParen .nil)
  exact ⟨_, _, List.cons_ne_nil _ _, closed.leftParen, .group grouped .nil, shunts.group rank⟩

theorem spaceBefore {c : Char} (space : isSpace c = true) (read : ReadAs call rank tree text) :
    ReadAs call rank tree (c :: text) := by
  obtain ⟨tokens, items, some, lexes, rest⟩ := read
  exact ⟨tokens, items, some, .space space lexes, rest⟩

theorem spaceBehind {c : Char} (space : isSpace c = true) (read : ReadAs call rank tree text) :
    ReadAs call rank tree (text ++ [c]) := by
  obtain ⟨tokens, items, some, lexes, rest⟩ := read
  have lexes := lexes.append (.cons (continues_eq_false_of_isSpace space) []) (.space space .nil)
  rw [List.append_nil] at lexes
  exact ⟨tokens, items, some, lexes, rest⟩

end ReadAs

/-- The arguments of a call are blank, or read as the items of their trees. -/
def ReadEach (call : CallReader) (trees : List Tree) (text : List Char) : Prop :=
  (trees = [] ∧ ∀ c ∈ text, isSpace c = true) ∨ ∃ tokens parts, tokens ≠ [] ∧
    Lexes text tokens ∧ Parted call.operand? tokens parts ∧
      parts.map Item.arrange = Tree.nodesEach trees

namespace ReadEach

variable {call : CallReader} {trees : List Tree} {text : List Char}

theorem last {rank : Nat} {tree : Tree} (read : ReadAs call rank tree text) :
    ReadEach call [tree] text := by
  obtain ⟨tokens, items, some, lexes, grouped, shunts⟩ := read
  refine Or.inr ⟨tokens, [items], some, lexes, .last grouped, ?_⟩
  rw [List.map_singleton, shunts.arrange, Tree.nodesEach, Tree.nodesEach]

theorem more {rank : Nat} {tree next : Tree} {rest : List Tree} {others : List Char}
    (read : ReadAs call rank tree text) (behind : ReadEach call (next :: rest) others) :
    ReadEach call (tree :: next :: rest) (text ++ ',' :: others) := by
  obtain ⟨tokens, items, some, lexes, grouped, shunts⟩ := read
  rcases behind with ⟨none, _⟩ | ⟨after, parts, _, lexesRest, parted, same⟩
  · cases none
  · refine Or.inr ⟨tokens ++ .comma :: after, items :: parts, by simp,
      lexes.append (.cons rfl others) lexesRest.comma, .more grouped parted, ?_⟩
    rw [List.map_cons, shunts.arrange, same, Tree.nodesEach.eq_2 tree]

theorem balanced (read : ReadEach call trees text) : Balanced text := by
  rcases read with ⟨_, space⟩ | ⟨tokens, parts, _, lexes, parted, _⟩
  · exact openAfter_of_plain (isPlain_of_class space rfl rfl) 0
  · exact parted.balanced lexes

end ReadEach

theorem Builtin.constant?_isSome_iff {name : String} :
    (∃ value, constant? name = some value) ↔ name = "PI" ∨ name = "EPSILON" := by
  constructor
  · rintro ⟨value, found⟩
    obtain ⟨before, behind, listed, _⟩ := List.lookup_eq_some_iff.mp found
    have member : (name, value) ∈ constants := by simp [listed]
    rcases List.mem_cons.mp member with same | inRest
    · exact Or.inl (congrArg Prod.fst same)
    · exact Or.inr (congrArg Prod.fst (List.mem_singleton.mp inRest))
  · rintro (rfl | rfl)
    · exact ⟨_, rfl⟩
    · exact ⟨_, rfl⟩

theorem Token.valid_of_constant {name : String} {value : Single}
    (found : Builtin.constant? name = some value) : (Token.constant name).Valid := by
  rcases Builtin.constant?_isSome_iff.mp ⟨value, found⟩ with rfl | rfl
  · exact ⟨'P', ['I'], rfl, rfl, by simp [isConstantChar]⟩
  · exact ⟨'E', ['P', 'S', 'I', 'L', 'O', 'N'], rfl, rfl, by simp [isConstantChar]⟩

/-- A call whose arguments are read one level further in is read. -/
theorem ReadEach.reader {limits : Limits} {levels depth : Nat} {trees : List Tree}
    {text : List Char} (read : ReadEach (limits.reader levels (depth + 1)) trees text)
    (allowed : limits.Allows (depth + 1)) (name : String) :
    limits.reader (levels + 1) depth name text 0 = .ok (.call name (Tree.nodesEach trees)) := by
  refine Limits.reader_eq_ok_iff.mpr ⟨allowed, levels, Tree.nodesEach trees, rfl, rfl, ?_⟩
  rcases read with ⟨rfl, space⟩ | ⟨tokens, parts, some, lexes, parted, same⟩
  · have blank : text.all isBlank = true :=
      List.all_eq_true.mpr fun c member => isBlank_of_isSpace (space c member)
    rw [if_pos blank, Tree.nodesEach]
  · have written := lexes.not_blank some
    rw [if_neg (by simp [written]), Limits.sequences_eq_ok_iff]
    exact ⟨tokens, parts, lexes, parted, same.symm⟩

mutual

/-- The texts of a tree are read as its postfix form, wherever its calls may nest deep enough. -/
theorem Written.readAs {limits : Limits} :
    ∀ {rank : Nat} {tree : Tree} {text : List Char}, Written rank tree text →
      ∀ levels depth, tree.depth ≤ levels → limits.Allows (depth + tree.depth) →
        ReadAs (limits.reader levels depth) rank tree text
  | _, _, _, @Written.number _ digits valid, _, _, _, _ =>
    @ReadAs.operand _ _ _ (.number digits) _ valid rfl (by rw [Tree.nodes])
  | _, _, _, @Written.constant _ name value found, levels, depth, _, _ => by
    have isOperand : (limits.reader levels depth).operand? (.constant name) =
        some (.number value) := by
      rw [CallReader.operand?, found]
      rfl
    exact .operand (Token.valid_of_constant found) isOperand (by rw [Tree.nodes])
  | _, _, _, @Written.variable _ name valid, _, _, _, _ =>
    @ReadAs.operand _ _ _ (.identifier name) _ valid rfl (by rw [Tree.nodes])
  | _, _, _, @Written.call rank name trees text valid written, levels, depth, within, allowed => by
    rw [Tree.depth] at within allowed
    obtain ⟨inner, rfl⟩ : ∃ inner, levels = inner + 1 := ⟨levels - 1, by omega⟩
    have read := written.readEach inner (depth + 1) (by omega)
      (Limits.allows_of_le allowed (by omega))
    have isOperand : (limits.reader (inner + 1) depth).operand? (.call name text) =
        some (.call name (Tree.nodesEach trees)) :=
      Limits.operand?_call_iff.mpr (read.reader (Limits.allows_of_le allowed (by omega)) name)
    have asToken : ReadAs (limits.reader (inner + 1) depth) rank (.call name trees)
        (Token.call name text).lexeme :=
      .operand ⟨valid, read.balanced⟩ isOperand (by rw [Tree.nodes])
    simpa only [Token.lexeme, List.append_assoc, List.cons_append, List.nil_append] using asToken
  | _, _, _, .operation bound left right, levels, depth, within, allowed => by
    rw [Tree.depth] at within allowed
    have atLeft := left.readAs levels depth (by omega) (Limits.allows_of_le allowed (by omega))
    have atRight := right.readAs levels depth (by omega) (Limits.allows_of_le allowed (by omega))
    exact .operation bound atLeft atRight
  | _, _, _, .group inside, levels, depth, within, allowed =>
    (inside.readAs levels depth within allowed).group
  | _, _, _, .spaceBefore space written, levels, depth, within, allowed =>
    (written.readAs levels depth within allowed).spaceBefore space
  | _, _, _, .spaceBehind space written, levels, depth, within, allowed =>
    (written.readAs levels depth within allowed).spaceBehind space

theorem WrittenEach.readEach {limits : Limits} :
    ∀ {trees : List Tree} {text : List Char}, WrittenEach trees text →
      ∀ levels depth, Tree.depthEach trees ≤ levels →
        limits.Allows (depth + Tree.depthEach trees) →
          ReadEach (limits.reader levels depth) trees text
  | _, _, .none space, _, _, _, _ => Or.inl ⟨rfl, space⟩
  | _, _, .last written, levels, depth, within, allowed => by
    rw [Tree.depthEach, Tree.depthEach, Nat.max_zero] at within allowed
    exact .last (written.readAs levels depth within allowed)
  | _, _, @WrittenEach.more tree _ _ _ _ written rest, levels, depth, within, allowed => by
    rw [Tree.depthEach.eq_2 tree] at within allowed
    have atTree := written.readAs levels depth (by omega) (Limits.allows_of_le allowed (by omega))
    have atRest := rest.readEach levels depth (by omega) (Limits.allows_of_le allowed (by omega))
    exact .more atTree atRest

end

/-- What a tree evaluates to, and the calls of supplied functions made on the way. -/
def Tree.outcome (tree : Tree) (given : List (String × Given))
    (functions : List SuppliedFunction) : Outcome :=
  match Bindings.ofPairs given with
  | .error cause => { result := .error (.formula (.evaluation cause)) }
  | .ok bindings => .ofTraced (tree.value ⟨bindings, functions⟩)

theorem Written.parse {limits : Limits} {tree : Tree} {text : List Char}
    (written : Written Operator.loosest tree text) (nested : tree.depth ≤ limits.levels)
    (allowed : limits.Allows tree.depth) : parse limits text = .ok tree.nodes := by
  have atTop : limits.Allows (0 + tree.depth) := by rwa [Nat.zero_add]
  obtain ⟨tokens, items, some, lexes, grouped, shunts⟩ :=
    written.readAs limits.levels 0 nested atTop
  refine Limits.parse_eq_ok_iff.mpr ⟨lexes.not_blank some, Limits.sequences_eq_ok_iff.mpr ?_⟩
  exact ⟨tokens, [items], lexes, .last grouped, by rw [List.map_singleton, shunts.arrange]⟩

theorem evaluateText_of_parse {limits : Limits} {tree : Tree} {text : List Char}
    (parsed : parse limits text = .ok tree.nodes) (given : List (String × Given))
    (functions : List SuppliedFunction) :
    evaluateText (some (String.ofList text)) given functions limits =
      tree.outcome given functions := by
  have read : parse limits (String.ofList text).toList = .ok tree.nodes := by
    rwa [String.toList_ofList]
  rw [Tree.outcome]
  cases bound : Bindings.ofPairs given with
  | error cause => simp only [evaluateText, Option.getD_some, read, bound]
  | ok bindings => rw [evaluateText_eq_ofTraced read bound, Tree.evaluate_nodes]

/-- Every text of a tree is parsed to its postfix form, evaluates to what the tree evaluates to,
and fails only where a part of the tree is at fault. No error of the stack is among these
faults but one that the body of a supplied function raises itself. -/
theorem evaluate_written {limits : Limits} {tree : Tree} {text : List Char}
    (written : Written Operator.loosest tree text) (nested : tree.depth ≤ limits.levels)
    (allowed : limits.Allows tree.depth) :
    parse limits text = .ok tree.nodes ∧
      ∀ (given : List (String × Given)) (functions : List SuppliedFunction),
        evaluateText (some (String.ofList text)) given functions limits =
            tree.outcome given functions ∧
          ∀ bindings failure, Bindings.ofPairs given = .ok bindings →
            (evaluateText (some (String.ofList text)) given functions limits).result =
              .error failure →
            ∃ error, failure = .raised error ∧ tree.Fault ⟨bindings, functions⟩ error ∧
              (error.OfStack → ∃ f ∈ functions, ∃ arguments,
                f.body arguments bindings = .error (.formula error)) := by
  have parsed := written.parse nested allowed
  refine ⟨parsed, fun given functions => ⟨evaluateText_of_parse parsed given functions, ?_⟩⟩
  intro bindings failure bound failed
  rw [evaluateText_of_parse parsed, Tree.outcome, bound] at failed
  obtain ⟨error, stopped, rfl⟩ := Outcome.result_ofTraced_error_iff.mp failed
  have fault := Tree.fault_of_value tree stopped
  exact ⟨error, rfl, fault, fault.body_of_stack⟩

/-- A group that is not needed, a power in a product, and space before the end of a call. -/
theorem evaluate_power_times_max :
    ∃ tree : Tree, parse {} "2^ (x)*max(PI, x - 1 )".toList = .ok tree.nodes ∧ tree.nodes =
        [.number (numeralValue ['2']).toSingle, .variable "x", .operator .power,
          .call "max" [[.number Builtin.pi],
            [.variable "x", .number (numeralValue ['1']).toSingle, .operator .subtract]],
          .operator .multiply] ∧
      (evaluateText (some "2^ (x)*max(PI, x - 1 )") [] [] {}).result =
        .error (.formula (.evaluation (.unknownVariable "x"))) ∧
      tree.Fault ⟨{}, []⟩ (.evaluation (.unknownVariable "x")) := by
  have two : (Token.number ['2']).Valid := ⟨⟨'2', [], rfl, rfl, by simp⟩, by decide⟩
  have one : (Token.number ['1']).Valid := ⟨⟨'1', [], rfl, rfl, by simp⟩, by decide⟩
  have x : (Token.identifier "x").Valid := ⟨'x', [], rfl, rfl, by simp⟩
  have max : (Token.identifier "max").Valid := ⟨'m', ['a', 'x'], rfl, rfl, by simp [isNameChar]⟩
  have pi : Builtin.constant? "PI" = some Builtin.pi := rfl
  have power := @Written.operation 2 .power _ _ _ _ (by decide) (.number two)
    (.spaceBefore (c := ' ') rfl (.group (.variable x)))
  have less := @Written.operation 3 .subtract _ _ _ _ (by decide)
    (.spaceBehind (c := ' ') rfl (.variable x))
    (.spaceBefore (c := ' ') rfl (.spaceBehind (c := ' ') rfl (.number one)))
  have call := @Written.call 1 _ _ _ max
    (.more (.constant pi) (.last (.spaceBefore (c := ' ') rfl less)))
  have whole := @Written.operation 3 .multiply _ _ _ _ (by decide) power call
  obtain ⟨parsed, evaluated⟩ := @evaluate_written {} _ _ whole (by decide)
    (by rintro _ ⟨⟩)
  obtain ⟨outcome, faults⟩ := evaluated [] []
  have failed := (congrArg Outcome.result outcome).trans rfl
  obtain ⟨error, met, fault, _⟩ := faults {} _ rfl failed
  obtain ⟨rfl, _⟩ := Failure.raised_eq_formula_iff.mp met.symm
  exact ⟨_, parsed, rfl, failed, fault⟩

end Placement
