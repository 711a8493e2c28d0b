import Placement.Proofs.Formula.Running

namespace Placement

/-- A formula by its structure. Literals and constants are known by their values. -/
inductive Tree where
  | number (value : Single)
  | variable (name : String)
  | operation (op : Operator) (left right : Tree)
  | call (name : String) (arguments : List Tree)

namespace Tree

mutual

/-- Postfix order: both operands, then their operator. A call is one node. -/
def nodes : Tree → List Node
  | .number value => [.number value]
  | .variable name => [.variable name]
  | .operation op left right => nodes left ++ nodes right ++ [.operator op]
  | .call name arguments => [.call name (nodesEach arguments)]

def nodesEach : List Tree → List (List Node)
  | [] => []
  | tree :: rest => nodes tree :: nodesEach rest

end

mutual

/-- How deep calls are nested. -/
def depth : Tree → Nat
  | .number _ => 0
  | .variable _ => 0
  | .operation _ left right => max (depth left) (depth right)
  | .call _ arguments => depthEach arguments + 1

def depthEach : List Tree → Nat
  | [] => 0
  | tree :: rest => max (depth tree) (depthEach rest)

end

mutual

/-- The value of a tree from the values of its parts, from left to right. -/
def value (context : Context) : Tree → Traced Single
  | .number value => pure value
  | .variable name => Traced.ofExcept (context.bindings.number name)
  | .operation op left right => do
    let first ← value context left
    let second ← value context right
    return op.apply first second
  | .call name arguments => do
    let given ← values context arguments
    context.call name given

def values (context : Context) : List Tree → Traced (List Single)
  | [] => pure []
  | tree :: rest => do
    let first ← value context tree
    let others ← values context rest
    return first :: others

end

/-- Where a tree can be at fault: a variable without a number, a call of no known function, a
call with too few arguments, or the body of a supplied function. -/
inductive Fault (context : Context) : Tree → FormulaError → Prop
  | variable {name : String} {cause : EvaluationError} :
      context.bindings.number name = .error cause →
      Fault context (.variable name) (.evaluation cause)
  | left {op : Operator} {left right : Tree} {error : FormulaError} :
      Fault context left error → Fault context (.operation op left right) error
  | right {op : Operator} {left right : Tree} {error : FormulaError} :
      Fault context right error → Fault context (.operation op left right) error
  | argument {name : String} {arguments : List Tree} {tree : Tree} {error : FormulaError} :
      tree ∈ arguments → Fault context tree error → Fault context (.call name arguments) error
  | function {name : String} (arguments : List Tree) :
      Builtin.registry.find? name = none → findFunction? context.functions name = none →
      Fault context (.call name arguments) (.evaluation (.unknownFunction name))
  | arity {name : String} {arguments : List Tree} {f : Definition Single} :
      Builtin.registry.find? name = some f → arguments.length < f.minArguments →
      Fault context (.call name arguments)
        (.evaluation (.fewArguments f.name f.minArguments arguments.length))
  | body {name : String} {arguments : List Tree} {given : List Double} {f : SuppliedFunction}
      {error : FormulaError} :
      Builtin.registry.find? name = none → findFunction? context.functions name = some f →
      given.length = arguments.length → f.result (f.body given context.bindings) = .error error →
      Fault context (.call name arguments) error

mutual

/-- Running the postfix form puts the value of the tree on the stack. -/
theorem runSequence_nodes (context : Context) : ∀ (tree : Tree) (stack : List Single),
    context.runSequence tree.nodes stack = do
      let value ← tree.value context
      return value :: stack
  | .number value, stack => by
    rw [nodes, Context.runSequence_cons, Context.runNode]
    rfl
  | .variable name, stack => by
    rw [nodes, Context.runSequence_cons, Context.runNode, Traced.bind_assoc, value]
    rfl
  | .operation op left right, stack => by
    rw [nodes, Context.runSequence_append, Context.runSequence_append,
      runSequence_nodes context left, value]
    simp only [Traced.bind_assoc]
    refine congrArg _ (funext fun first => ?_)
    rw [Traced.pure_bind, runSequence_nodes context right]
    simp only [Traced.bind_assoc]
    rfl
  | .call name arguments, stack => by
    rw [nodes, Context.runSequence_cons, Context.runNode, evaluateArguments_nodesEach, value]
    simp only [Traced.bind_assoc]
    rfl

theorem evaluateArguments_nodesEach (context : Context) : ∀ trees : List Tree,
    context.evaluateArguments (nodesEach trees) = values context trees
  | [] => by
    rw [nodesEach, Context.evaluateArguments, values]
    rfl
  | tree :: rest => by
    have atTree := Context.evaluate_of_pushes (runSequence_nodes context tree [])
    rw [nodesEach, Context.evaluateArguments_cons, atTree, values,
      evaluateArguments_nodesEach context rest]

end

theorem evaluate_nodes (context : Context) (tree : Tree) :
    context.evaluate tree.nodes = tree.value context :=
  Context.evaluate_of_pushes (runSequence_nodes context tree [])

theorem values_length {context : Context} {trees : List Tree} {given : List Single}
    (evaluated : (values context trees).result = .ok given) : given.length = trees.length := by
  induction trees generalizing given with
  | nil =>
    rw [values] at evaluated
    cases evaluated
    rfl
  | cons tree rest ih =>
    rw [values, Traced.result_bind, bind_eq_ok_iff] at evaluated
    obtain ⟨first, _, evaluated⟩ := evaluated
    rw [Traced.result_bind, bind_eq_ok_iff] at evaluated
    obtain ⟨others, atRest, evaluated⟩ := evaluated
    cases evaluated
    rw [List.length_cons, List.length_cons, ih atRest]

theorem Fault.of_call {context : Context} {name : String} {arguments : List Tree}
    {given : List Single} {error : FormulaError} (length : given.length = arguments.length)
    (failed : (context.call name given).result = .error error) :
    Fault context (.call name arguments) error := by
  cases builtin : Builtin.registry.find? name with
  | some f =>
    rw [Context.call_builtin builtin] at failed
    unfold Definition.call at failed
    split at failed
    · rename_i few
      cases failed
      rw [length] at few ⊢
      exact .arity builtin few
    · cases failed
  | none =>
    cases found : findFunction? context.functions name with
    | some f =>
      rw [Context.call_supplied builtin found] at failed
      exact .body builtin found (by rw [List.length_map, length]) failed
    | none =>
      rw [Context.call_unknown builtin found] at failed
      cases failed
      exact .function arguments builtin found

mutual

/-- A tree without a value has a part at fault. -/
theorem fault_of_value {context : Context} {error : FormulaError} : ∀ tree : Tree,
    (tree.value context).result = .error error → Fault context tree error
  | .number value, failed => by
    rw [Tree.value] at failed
    cases failed
  | .variable name, failed => by
    rw [Tree.value] at failed
    cases found : context.bindings.number name with
    | error cause =>
      rw [found] at failed
      cases failed
      exact .variable found
    | ok value =>
      rw [found] at failed
      cases failed
  | .operation op left right, failed => by
    rw [Tree.value, Traced.result_bind, bind_eq_error_iff] at failed
    rcases failed with atLeft | ⟨first, _, failed⟩
    · exact .left (fault_of_value left atLeft)
    · rw [Traced.result_bind, bind_eq_error_iff] at failed
      rcases failed with atRight | ⟨second, _, failed⟩
      · exact .right (fault_of_value right atRight)
      · cases failed
  | .call name arguments, failed => by
    rw [Tree.value, Traced.result_bind, bind_eq_error_iff] at failed
    rcases failed with atArguments | ⟨given, evaluated, failed⟩
    · obtain ⟨tree, member, fault⟩ := fault_of_values arguments atArguments
      exact .argument member fault
    · exact .of_call (values_length evaluated) failed

theorem fault_of_values {context : Context} {error : FormulaError} : ∀ trees : List Tree,
    (values context trees).result = .error error → ∃ tree ∈ trees, Fault context tree error
  | [], failed => by
    rw [values] at failed
    cases failed
  | tree :: rest, failed => by
    rw [values, Traced.result_bind, bind_eq_error_iff] at failed
    rcases failed with atFirst | ⟨first, _, failed⟩
    · exact ⟨tree, List.mem_cons_self, fault_of_value tree atFirst⟩
    · rw [Traced.result_bind, bind_eq_error_iff] at failed
      rcases failed with atRest | ⟨others, _, failed⟩
      · obtain ⟨other, member, fault⟩ := fault_of_values rest atRest
        exact ⟨other, List.mem_cons_of_mem _ member, fault⟩
      · cases failed

end

end Tree

/-- Errors of the stack: too few operands, or not one value at the end. -/
def FormulaError.OfStack : FormulaError → Prop
  | .evaluation (.fewOperands _) => True
  | .evaluation (.leftover _) => True
  | _ => False

theorem Bindings.not_ofStack_of_number {bindings : Bindings} {name : String}
    {cause : EvaluationError} (failed : bindings.number name = .error cause) :
    ¬ (FormulaError.evaluation cause).OfStack := by
  unfold Bindings.number Bindings.lookup at failed
  intro stack
  split at failed
  · cases failed
  · cases failed
    cases stack
  · rename_i found
    split at found <;> cases found
    cases failed
    cases stack

theorem SuppliedFunction.not_ofStack_of_inRange {f : SuppliedFunction}
    {value : Option Single} {error : FormulaError}
    (failed : f.inRange value = .error error) : ¬ error.OfStack := by
  cases value with
  | none =>
    cases failed
    exact id
  | some value => cases failed

theorem SuppliedFunction.raised_of_stack {f : SuppliedFunction}
    {returned : Except BodyFailure Datum} {error : FormulaError}
    (failed : f.result returned = .error error) (stack : error.OfStack) :
    returned = .error (.formula error) := by
  cases returned with
  | error failure =>
    cases failure with
    | formula other =>
      rw [result, Except.error.injEq, passOn] at failed
      split at failed
      · rw [failed]
      · cases failed
        exact stack.elim
    | other reason =>
      cases failed
      exact stack.elim
  | ok value =>
    cases value with
    | float x => cases failed
    | int n => exact absurd stack (not_ofStack_of_inRange failed)
    | rational q => exact absurd stack (not_ofStack_of_inRange failed)
    | _ =>
      cases failed
      exact stack.elim

/-- A tree has no errors of the stack but those that a body raises itself. -/
theorem Tree.Fault.body_of_stack {context : Context} {tree : Tree} {error : FormulaError}
    (fault : Fault context tree error) (stack : error.OfStack) :
    ∃ f ∈ context.functions, ∃ given,
      f.body given context.bindings = .error (.formula error) := by
  induction fault with
  | «variable» failed => exact absurd stack (Bindings.not_ofStack_of_number failed)
  | left _ ih | right _ ih | argument _ _ ih => exact ih stack
  | function | arity => cases stack
  | @body name arguments given f error _ found _ failed =>
    exact ⟨f, List.mem_of_find?_eq_some found, given, f.raised_of_stack failed stack⟩

end Placement
