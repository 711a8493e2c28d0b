import Placement.Proofs.Binary.Exact
import Placement.Proofs.Formula.Conversion
import Placement.Proofs.Formula.Running

namespace Placement

namespace Node

mutual

/-- What stands in the place of a node once a sequence stands in the place of a variable. -/
def substitute (name : String) (inner : List Node) : Node → List Node
  | .variable other => if other = name then inner else [.variable other]
  | .call function arguments => [.call function (substituteEach name inner arguments)]
  | .number value => [.number value]
  | .operator op => [.operator op]
  | .marker kind => [.marker kind]

def substituteAll (name : String) (inner : List Node) : List Node → List Node
  | [] => []
  | node :: rest => substitute name inner node ++ substituteAll name inner rest

def substituteEach (name : String) (inner : List Node) : List (List Node) → List (List Node)
  | [] => []
  | argument :: rest => substituteAll name inner argument :: substituteEach name inner rest

end

variable {name : String} {inner : List Node}

theorem substituteAll_append (first second : List Node) :
    substituteAll name inner (first ++ second) =
      substituteAll name inner first ++ substituteAll name inner second := by
  induction first with
  | nil => rw [List.nil_append, substituteAll, List.nil_append]
  | cons node rest ih => rw [List.cons_append, substituteAll, substituteAll, ih, List.append_assoc]

theorem substituteAll_operators (operators : List Operator) :
    substituteAll name inner (operators.map .operator) = operators.map .operator := by
  induction operators with
  | nil => rw [List.map_nil, substituteAll]
  | cons op rest ih => rw [List.map_cons, substituteAll, substitute, ih, List.singleton_append]

theorem substituteEach_eq_map (sequences : List (List Node)) :
    substituteEach name inner sequences = sequences.map (substituteAll name inner) := by
  induction sequences with
  | nil => rw [substituteEach, List.map_nil]
  | cons argument rest ih => rw [substituteEach, List.map_cons, ih]

theorem depthSequence_append (first second : List Node) :
    depthSequence (first ++ second) = max (depthSequence first) (depthSequence second) := by
  induction first with
  | nil => rw [List.nil_append, depthSequence, Nat.zero_max]
  | cons node rest ih => rw [List.cons_append, depthSequence, depthSequence, ih, Nat.max_assoc]

theorem depthSequence_substitute_le {node : Node} {nodes : List Node} (member : node ∈ nodes) :
    depthSequence (substitute name inner node) ≤ depthSequence (substituteAll name inner nodes) := by
  induction nodes with
  | nil => cases member
  | cons first rest ih =>
    rw [substituteAll, depthSequence_append]
    rcases List.mem_cons.mp member with rfl | inRest
    · exact Nat.le_max_left _ _
    · exact Nat.le_trans (ih inRest) (Nat.le_max_right _ _)

theorem depthSequence_substituteAll_le {nodes : List Node} {sequences : List (List Node)}
    (member : nodes ∈ sequences) : depthSequence (substituteAll name inner nodes) ≤
      depthArguments (substituteEach name inner sequences) := by
  rw [substituteEach_eq_map]
  exact depthSequence_le_depthArguments (List.mem_map_of_mem member)

end Node

/-- The result of the body depends on the arguments only. -/
def SuppliedFunction.IgnoresBindings (f : SuppliedFunction) : Prop :=
  ∀ arguments bindings others, f.body arguments bindings = f.body arguments others

/-- A context in which a name is bound to a number, and all else is as in another context. -/
structure Context.Binds (bound context : Context) (name : String) (value : Single) : Prop where
  functions : bound.functions = context.functions
  ignore : ∀ f ∈ context.functions, f.IgnoresBindings
  here : bound.bindings.number name = .ok value
  others : ∀ other, other ≠ name → bound.bindings.number other = context.bindings.number other

namespace Context

variable {bound context : Context} {name : String} {value : Single} {inner : List Node}

theorem Binds.call (binds : bound.Binds context name value) (function : String)
    (arguments : List Single) :
    (context.call function arguments).result = (bound.call function arguments).result := by
  cases builtin : Builtin.registry.find? function with
  | some f => rw [call_builtin builtin, call_builtin builtin]
  | none =>
    cases found : findFunction? context.functions function with
    | some f =>
      have ignores := binds.ignore f (List.mem_of_find?_eq_some found)
      rw [call_supplied builtin found, call_supplied builtin (binds.functions ▸ found)]
      exact congrArg f.result (ignores _ _ _)
    | none => rw [call_unknown builtin found, call_unknown builtin (binds.functions ▸ found)]

mutual

/-- A sequence that has a value does in the place of a variable what the variable does. -/
theorem runSequence_substitute (binds : bound.Binds context name value)
    (evaluated : (context.evaluate inner).result = .ok value) : ∀ (node : Node)
      (stack : List Single), (context.runSequence (node.substitute name inner) stack).result =
        (bound.runNode node stack).result
  | .number _, stack => by
    rw [Node.substitute, runSequence_singleton, runNode, runNode]
  | .variable other, stack => by
    rw [Node.substitute]
    split
    · rename_i same
      rw [runSequence_of_evaluate evaluated, runNode, same, binds.here]
      rfl
    · rename_i different
      rw [runSequence_singleton, runNode, runNode, binds.others other different]
  | .operator op, stack => by
    rw [Node.substitute, runSequence_singleton]
    unfold runNode
    rfl
  | .call function arguments, stack => by
    rw [Node.substitute, runSequence_singleton, runNode, runNode, Traced.result_bind,
      Traced.result_bind, evaluateArguments_substituteEach binds evaluated arguments]
    refine congrArg _ (funext fun values => ?_)
    rw [Traced.result_bind, Traced.result_bind, binds.call]
  | .marker kind, stack => by
    rw [Node.substitute, runSequence_singleton, runNode, runNode]

theorem runSequence_substituteAll (binds : bound.Binds context name value)
    (evaluated : (context.evaluate inner).result = .ok value) : ∀ (nodes : List Node)
      (stack : List Single), (context.runSequence (Node.substituteAll name inner nodes) stack).result =
        (bound.runSequence nodes stack).result
  | [], stack => by
    rw [Node.substituteAll, runSequence, runSequence]
  | node :: rest, stack => by
    rw [Node.substituteAll, runSequence_append, runSequence_cons, Traced.result_bind,
      Traced.result_bind, runSequence_substitute binds evaluated node]
    exact congrArg _ (funext fun after => runSequence_substituteAll binds evaluated rest after)

theorem evaluateArguments_substituteEach (binds : bound.Binds context name value)
    (evaluated : (context.evaluate inner).result = .ok value) : ∀ arguments : List (List Node),
      (context.evaluateArguments (Node.substituteEach name inner arguments)).result =
        (bound.evaluateArguments arguments).result
  | [] => by
    rw [Node.substituteEach, evaluateArguments, evaluateArguments]
  | argument :: rest => by
    have atArgument := evaluate_congr (runSequence_substituteAll binds evaluated argument [])
    rw [Node.substituteEach, evaluateArguments_cons, evaluateArguments_cons, Traced.result_bind,
      Traced.result_bind, atArgument]
    refine congrArg _ (funext fun first => ?_)
    rw [Traced.result_bind, Traced.result_bind,
      evaluateArguments_substituteEach binds evaluated rest]

end

theorem evaluate_substituteAll (binds : bound.Binds context name value)
    (evaluated : (context.evaluate inner).result = .ok value) (nodes : List Node) :
    (context.evaluate (Node.substituteAll name inner nodes)).result =
      (bound.evaluate nodes).result :=
  evaluate_congr (runSequence_substituteAll binds evaluated nodes [])

end Context

end Placement
