import Mathlib.Data.List.Forall2
import Placement.Proofs.Sequencing

namespace Placement

def Node.isOperator : Node → Bool
  | operator _ => true
  | _ => false

namespace Bindings

theorem ofPairs_cons {given : Given} {value : Bound} (bound : given.bind? = some value)
    (name : String) (rest : List (String × Given)) :
    ofPairs ((name, given) :: rest) =
      (ofPairs rest).map fun behind => ⟨(name, value) :: behind.entries⟩ := by
  rw [ofPairs, bound]

theorem of_ofPairs_eq_error {given : List (String × Given)} {cause : EvaluationError}
    (unbound : ofPairs given = .error cause) :
    cause = .bindingRange ∧ ∃ entry ∈ given, entry.2.bind? = none := by
  induction given with
  | nil => cases unbound
  | cons entry rest ih =>
    obtain ⟨name, value⟩ := entry
    cases found : value.bind? with
    | none =>
      rw [ofPairs, found] at unbound
      cases unbound
      exact ⟨rfl, _, List.mem_cons_self, found⟩
    | some bound =>
      rw [ofPairs_cons found] at unbound
      cases behind : ofPairs rest with
      | ok bindings =>
        rw [behind] at unbound
        cases unbound
      | error other =>
        rw [behind] at unbound
        cases unbound
        obtain ⟨same, entry, member, free⟩ := ih behind
        exact ⟨same, entry, List.mem_cons_of_mem _ member, free⟩

theorem number_cons_self (name : String) (value : Single) (entries : List (String × Bound)) :
    number ⟨(name, .number value) :: entries⟩ name = .ok value := by
  rw [number, lookup, List.lookup_cons_self]

theorem number_cons_of_ne {name other : String} (different : other ≠ name) (value : Bound)
    (entries : List (String × Bound)) :
    number ⟨(name, value) :: entries⟩ other = number ⟨entries⟩ other := by
  have noMatch : (other == name) = false := beq_false_of_ne different
  rw [number, lookup, List.lookup_cons, noMatch, number, lookup]

theorem number_cons_object (name : String) (value : Datum) (entries : List (String × Bound)) :
    number ⟨(name, .object value) :: entries⟩ name = .error (.numberExpected (.object value)) := by
  rw [number, lookup, List.lookup_cons_self]

end Bindings

namespace Context

variable {context : Context}

theorem call_builtin {name : String} {f : Definition Single}
    (found : Builtin.registry.find? name = some f) (given : List Single) :
    context.call name given = .ofExcept (f.call given) := by
  simp only [call, found]

theorem call_supplied {name : String} {f : SuppliedFunction}
    (noBuiltin : Builtin.registry.find? name = none)
    (found : findFunction? context.functions name = some f) (given : List Single) :
    context.call name given = f.call given context.bindings := by
  simp only [call, noBuiltin, found]

theorem call_unknown {name : String} (noBuiltin : Builtin.registry.find? name = none)
    (noFunction : findFunction? context.functions name = none) (given : List Single) :
    context.call name given = .fail (.unknownFunction name) := by
  simp only [call, noBuiltin, noFunction]

theorem runSequence_cons (node : Node) (rest : List Node) (stack : List Single) :
    context.runSequence (node :: rest) stack =
      context.runNode node stack >>= context.runSequence rest := by
  rw [runSequence]

theorem runSequence_singleton (node : Node) (stack : List Single) :
    context.runSequence [node] stack = context.runNode node stack := by
  rw [runSequence_cons, funext (runSequence.eq_1 context)]
  exact Traced.bind_pure _

theorem runSequence_append (first second : List Node) (stack : List Single) :
    context.runSequence (first ++ second) stack =
      context.runSequence first stack >>= context.runSequence second := by
  induction first generalizing stack with
  | nil =>
    rw [List.nil_append, runSequence]
    exact (Traced.pure_bind _ _).symm
  | cons node rest ih =>
    rw [List.cons_append, runSequence_cons, runSequence_cons, Traced.bind_assoc]
    exact congrArg _ (funext ih)

theorem runNode_variable_eq_ok_iff {name : String} {stack after : List Single} :
    (context.runNode (.variable name) stack).result = .ok after ↔
      ∃ value, context.bindings.number name = .ok value ∧ value :: stack = after := by
  rw [runNode, Traced.result_bind, bind_eq_ok_iff]
  constructor
  · rintro ⟨value, found, pushed⟩
    exact ⟨value, Traced.result_ofExcept_ok_iff.mp found, Except.ok.inj pushed⟩
  · rintro ⟨value, found, rfl⟩
    exact ⟨value, Traced.result_ofExcept_ok_iff.mpr found, rfl⟩

theorem runNode_operator_eq_ok_iff {op : Operator} {stack after : List Single} :
    (context.runNode (.operator op) stack).result = .ok after ↔
      ∃ left right below, stack = right :: left :: below ∧
        op.apply left right :: below = after := by
  constructor
  · intro ran
    match stack, ran with
    | right :: left :: below, ran => exact ⟨left, right, below, rfl, Except.ok.inj ran⟩
  · rintro ⟨left, right, below, rfl, rfl⟩
    rfl

theorem runNode_call_eq_ok_iff {name : String} {arguments : List (List Node)}
    {stack after : List Single} :
    (context.runNode (.call name arguments) stack).result = .ok after ↔
      ∃ given value, (context.evaluateArguments arguments).result = .ok given ∧
        (context.call name given).result = .ok value ∧ value :: stack = after := by
  rw [runNode, Traced.result_bind, bind_eq_ok_iff]
  constructor
  · rintro ⟨given, evaluated, ran⟩
    rw [Traced.result_bind, bind_eq_ok_iff] at ran
    obtain ⟨value, called, pushed⟩ := ran
    exact ⟨given, value, evaluated, called, Except.ok.inj pushed⟩
  · rintro ⟨given, value, evaluated, called, rfl⟩
    refine ⟨given, evaluated, ?_⟩
    rw [Traced.result_bind, called]
    rfl

theorem runSequence_cons_eq_ok_iff {node : Node} {rest : List Node} {stack after : List Single} :
    (context.runSequence (node :: rest) stack).result = .ok after ↔
      ∃ middle, (context.runNode node stack).result = .ok middle ∧
        (context.runSequence rest middle).result = .ok after := by
  rw [runSequence_cons, Traced.result_bind, bind_eq_ok_iff]

/-- Where a sequence runs, the variables in it are numbers. -/
theorem number_of_runSequence {nodes : List Node} {stack after : List Single}
    (ran : (context.runSequence nodes stack).result = .ok after) {name : String}
    (among : .variable name ∈ nodes) : ∃ value, context.bindings.number name = .ok value := by
  induction nodes generalizing stack with
  | nil => cases among
  | cons node rest ih =>
    obtain ⟨middle, first, behind⟩ := runSequence_cons_eq_ok_iff.mp ran
    rcases List.mem_cons.mp among with rfl | later
    · obtain ⟨value, found, _⟩ := runNode_variable_eq_ok_iff.mp first
      exact ⟨value, found⟩
    · exact ih behind later

theorem evaluateArguments_cons (argument : List Node) (rest : List (List Node)) :
    context.evaluateArguments (argument :: rest) = do
      let value ← context.evaluate argument
      let others ← context.evaluateArguments rest
      return value :: others := by
  rw [evaluateArguments, evaluate, Traced.bind_assoc]

theorem evaluateArguments_cons_eq_ok_iff {argument : List Node} {rest : List (List Node)}
    {given : List Single} :
    (context.evaluateArguments (argument :: rest)).result = .ok given ↔
      ∃ value others, (context.evaluate argument).result = .ok value ∧
        (context.evaluateArguments rest).result = .ok others ∧ value :: others = given := by
  rw [evaluateArguments_cons, Traced.result_bind, bind_eq_ok_iff]
  constructor
  · rintro ⟨value, evaluated, ran⟩
    rw [Traced.result_bind, bind_eq_ok_iff] at ran
    obtain ⟨others, atRest, pushed⟩ := ran
    exact ⟨value, others, evaluated, atRest, Except.ok.inj pushed⟩
  · rintro ⟨value, others, evaluated, atRest, rfl⟩
    refine ⟨value, evaluated, ?_⟩
    rw [Traced.result_bind, atRest]
    rfl

/-- A step does the same on top of other values. -/
theorem runNode_frame {node : Node} {stack after : List Single}
    (ran : (context.runNode node stack).result = .ok after) (below : List Single) :
    (context.runNode node (stack ++ below)).result = .ok (after ++ below) := by
  cases node with
  | number value =>
    cases ran
    rfl
  | «variable» name =>
    obtain ⟨value, found, rfl⟩ := runNode_variable_eq_ok_iff.mp ran
    exact runNode_variable_eq_ok_iff.mpr ⟨value, found, rfl⟩
  | operator op =>
    obtain ⟨left, right, rest, rfl, rfl⟩ := runNode_operator_eq_ok_iff.mp ran
    rfl
  | call name arguments =>
    obtain ⟨given, value, evaluated, called, rfl⟩ := runNode_call_eq_ok_iff.mp ran
    exact runNode_call_eq_ok_iff.mpr ⟨given, value, evaluated, called, rfl⟩
  | marker kind => cases ran

theorem runSequence_frame {nodes : List Node} {stack after : List Single}
    (ran : (context.runSequence nodes stack).result = .ok after) (below : List Single) :
    (context.runSequence nodes (stack ++ below)).result = .ok (after ++ below) := by
  induction nodes generalizing stack with
  | nil =>
    rw [runSequence] at ran ⊢
    cases ran
    rfl
  | cons node rest ih =>
    obtain ⟨middle, atNode, atRest⟩ := runSequence_cons_eq_ok_iff.mp ran
    exact runSequence_cons_eq_ok_iff.mpr ⟨middle ++ below, runNode_frame atNode below, ih atRest⟩

/-- How a step changes the number of values. -/
theorem runNode_length {node : Node} {stack after : List Single}
    (ran : (context.runNode node stack).result = .ok after) :
    after.length + (if node.isOperator then 2 else 0) = stack.length + 1 := by
  cases node with
  | number value =>
    cases ran
    rfl
  | «variable» name =>
    obtain ⟨value, _, rfl⟩ := runNode_variable_eq_ok_iff.mp ran
    rfl
  | operator op =>
    obtain ⟨left, right, rest, rfl, rfl⟩ := runNode_operator_eq_ok_iff.mp ran
    rfl
  | call name arguments =>
    obtain ⟨given, value, _, _, rfl⟩ := runNode_call_eq_ok_iff.mp ran
    rfl
  | marker kind => cases ran

/-- Operators take one value off the stack, all other nodes put one on it. -/
theorem runSequence_length {nodes : List Node} {stack after : List Single}
    (ran : (context.runSequence nodes stack).result = .ok after) :
    after.length + 2 * nodes.countP Node.isOperator = stack.length + nodes.length := by
  induction nodes generalizing stack with
  | nil =>
    rw [runSequence] at ran
    cases ran
    rfl
  | cons node rest ih =>
    obtain ⟨middle, atNode, atRest⟩ := runSequence_cons_eq_ok_iff.mp ran
    have step := runNode_length atNode
    have behind := ih atRest
    rw [List.countP_cons, List.length_cons]
    by_cases isOperator : node.isOperator = true
    · rw [if_pos isOperator] at step ⊢
      omega
    · rw [if_neg isOperator] at step ⊢
      omega

/-- The values of arguments are their own values, in order. -/
theorem forall₂_of_evaluateArguments {arguments : List (List Node)} {values : List Single}
    (evaluated : (context.evaluateArguments arguments).result = .ok values) :
    List.Forall₂ (fun argument value => (context.evaluate argument).result = .ok value)
      arguments values := by
  induction arguments generalizing values with
  | nil =>
    rw [evaluateArguments] at evaluated
    cases evaluated
    exact .nil
  | cons argument rest ih =>
    obtain ⟨value, others, atFirst, atRest, rfl⟩ :=
      evaluateArguments_cons_eq_ok_iff.mp evaluated
    exact .cons atFirst (ih atRest)

theorem evaluate_of_evaluateArguments {arguments : List (List Node)} {values : List Single}
    (evaluated : (context.evaluateArguments arguments).result = .ok values) {place : Nat}
    {argument : List Node} (atPlace : arguments[place]? = some argument) :
    ∃ value, values[place]? = some value ∧ (context.evaluate argument).result = .ok value := by
  obtain ⟨length, each⟩ := List.forall₂_iff_get.mp (forall₂_of_evaluateArguments evaluated)
  obtain ⟨within, rfl⟩ := List.getElem?_eq_some_iff.mp atPlace
  exact ⟨_, List.getElem?_eq_getElem (length ▸ within), each place within _⟩

/-- Where a sequence runs, every argument of its calls has a value. -/
theorem evaluate_of_call_mem {nodes : List Node} {stack after : List Single}
    (ran : (context.runSequence nodes stack).result = .ok after) {name : String}
    {arguments : List (List Node)} (call : .call name arguments ∈ nodes) {argument : List Node}
    (member : argument ∈ arguments) : ∃ value, (context.evaluate argument).result = .ok value := by
  induction nodes generalizing stack with
  | nil => cases call
  | cons node rest ih =>
    obtain ⟨middle, atNode, atRest⟩ := runSequence_cons_eq_ok_iff.mp ran
    rcases List.mem_cons.mp call with rfl | inRest
    · obtain ⟨given, _, evaluated, _⟩ := runNode_call_eq_ok_iff.mp atNode
      obtain ⟨place, atPlace⟩ := List.mem_iff_getElem?.mp member
      obtain ⟨value, _, atArgument⟩ := evaluate_of_evaluateArguments evaluated atPlace
      exact ⟨value, atArgument⟩
    · exact ih atRest inRest

theorem onlyValue_eq_ok_iff {stack : List Single} {value : Single} :
    (onlyValue stack).result = .ok value ↔ stack = [value] := by
  match stack with
  | [] => simp [onlyValue]
  | [other] => simp [onlyValue, Traced.pure]
  | first :: second :: rest => simp [onlyValue]

/-- A sequence has a value where it leaves just this value. -/
theorem evaluate_eq_ok_iff {nodes : List Node} {value : Single} :
    (context.evaluate nodes).result = .ok value ↔
      (context.runSequence nodes []).result = .ok [value] := by
  rw [evaluate, Traced.result_bind, bind_eq_ok_iff]
  simp only [onlyValue_eq_ok_iff, exists_eq_right]

theorem evaluate_congr {other : Context} {nodes others : List Node}
    (same : (context.runSequence nodes []).result = (other.runSequence others []).result) :
    (context.evaluate nodes).result = (other.evaluate others).result := by
  rw [evaluate, evaluate, Traced.result_bind, Traced.result_bind, same]

/-- A sequence that always puts one value on the stack has this value. -/
theorem evaluate_of_pushes {nodes : List Node} {value : Traced Single}
    (pushes : context.runSequence nodes [] = value >>= fun x => pure [x]) :
    context.evaluate nodes = value := by
  rw [evaluate, pushes, Traced.bind_assoc]
  exact Traced.bind_pure _

theorem evaluate_variable {name : String} {value : Single}
    (evaluated : (context.evaluate [.variable name]).result = .ok value) :
    context.bindings.number name = .ok value := by
  rw [evaluate_eq_ok_iff, runSequence_singleton] at evaluated
  obtain ⟨other, found, pushed⟩ := runNode_variable_eq_ok_iff.mp evaluated
  cases pushed
  exact found

/-- A sequence with a value puts it on top of any stack, and does nothing else. -/
theorem runSequence_of_evaluate {nodes : List Node} {value : Single}
    (evaluated : (context.evaluate nodes).result = .ok value) (stack : List Single) :
    (context.runSequence nodes stack).result = .ok (value :: stack) :=
  runSequence_frame (evaluate_eq_ok_iff.mp evaluated) stack

end Context

theorem evaluateText_eq_ofTraced {limits : Limits} {source : String} {nodes : List Node}
    {given : List (String × Given)} {bindings : Bindings}
    (parsed : parse limits source.toList = .ok nodes)
    (bound : Bindings.ofPairs given = .ok bindings) (functions : List SuppliedFunction) :
    evaluateText (some source) given functions limits =
      .ofTraced (Context.evaluate ⟨bindings, functions⟩ nodes) := by
  simp only [evaluateText, Option.getD_some, parsed, bound]

/-- A text has a value where it is read, its variables are bound and its sequence has a value. -/
theorem evaluateText_eq_ok_iff {limits : Limits} {source : String}
    {given : List (String × Given)} {functions : List SuppliedFunction} {x : Double} :
    (evaluateText (some source) given functions limits).result = .ok x ↔
      ∃ nodes bindings value, parse limits source.toList = .ok nodes ∧
        Bindings.ofPairs given = .ok bindings ∧
        (Context.evaluate ⟨bindings, functions⟩ nodes).result = .ok value ∧
          value.toDouble = x := by
  cases parsed : parse limits source.toList with
  | error failure => simp [evaluateText, parsed]
  | ok nodes =>
    cases bound : Bindings.ofPairs given with
    | error cause => simp [evaluateText, parsed, bound]
    | ok bindings =>
      rw [evaluateText_eq_ofTraced parsed bound, Outcome.result_ofTraced_ok_iff]
      simp

theorem evaluateText_of_blank {limits : Limits} {expression : Option String}
    (blank : (expression.getD "").toList.all isBlank = true) (given : List (String × Given))
    (functions : List SuppliedFunction) :
    (evaluateText expression given functions limits).result =
      .error (Conversion.fail .empty 0) := by
  have parsed : parse limits (expression.getD "").toList = .error (Conversion.fail .empty 0) := by
    rw [parse, if_pos blank]
  simp only [evaluateText, parsed]

section

variable {limits : Limits} {expression : Option String} {given : List (String × Given)}
  {functions : List SuppliedFunction}

/-- An attempt gives the value that the evaluation gives. Blank formulas have none. -/
theorem attempt_eq_value_iff {x : Double} :
    attempt expression given functions limits = .ok (.value x) ↔
      (evaluateText expression given functions limits).result = .ok x := by
  cases expression with
  | none =>
    rw [evaluateText_of_blank rfl]
    exact ⟨nofun, nofun⟩
  | some source =>
    by_cases blank : source.toList.all isBlank = true
    · rw [evaluateText_of_blank (by exact blank)]
      simp [attempt, blank]
    · simp only [attempt, if_neg blank]
      split <;> simp_all

theorem attempt_isValue_iff :
    (∃ tried, attempt expression given functions limits = .ok tried ∧ tried.isValue = true) ↔
      ∃ x, (evaluateText expression given functions limits).result = .ok x := by
  simp only [← attempt_eq_value_iff]
  constructor
  · rintro ⟨tried, became, isValue⟩
    cases tried with
    | value x => exact ⟨x, became⟩
    | blank | failed _ => cases isValue
  · rintro ⟨x, became⟩
    exact ⟨.value x, became, rfl⟩

/-- An attempt passes on the foreign error of the evaluation. -/
theorem attempt_eq_error_iff {error : ForeignError} :
    attempt expression given functions limits = .error error ↔
      (evaluateText expression given functions limits).result = .error (.foreign error) := by
  cases expression with
  | none =>
    rw [evaluateText_of_blank rfl]
    exact ⟨nofun, nofun⟩
  | some source =>
    by_cases blank : source.toList.all isBlank = true
    · rw [evaluateText_of_blank (by exact blank)]
      simp [attempt, blank, Conversion.fail]
    · simp only [attempt, if_neg blank]
      split <;> simp_all

end

end Placement
