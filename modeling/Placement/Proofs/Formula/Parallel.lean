import Placement.Proofs.Formula.Running

namespace Placement

/-- Two results that are the same value, or errors that stand for each other. -/
inductive Parallel {ε α : Type} (related : ε → ε → Prop) : Except ε α → Except ε α → Prop
  | ok (value : α) : Parallel related (.ok value) (.ok value)
  | error {first second : ε} : related first second →
      Parallel related (.error first) (.error second)

namespace Parallel

variable {ε α β : Type} {related : ε → ε → Prop}

theorem bind {first second : Except ε α} {next other : α → Except ε β}
    (parallel : Parallel related first second)
    (behind : ∀ value, Parallel related (next value) (other value)) :
    Parallel related (first >>= next) (second >>= other) := by
  cases parallel with
  | ok value => exact behind value
  | error stands => exact .error stands

theorem exists_left {first second : Except ε α} {error : ε}
    (parallel : Parallel related first second) (failed : second = .error error) :
    ∃ other, first = .error other ∧ related other error := by
  cases parallel with
  | ok value => cases failed
  | error stands =>
    cases failed
    exact ⟨_, rfl, stands⟩

theorem exists_right {first second : Except ε α} {error : ε}
    (parallel : Parallel related first second) (failed : first = .error error) :
    ∃ other, second = .error other ∧ related error other := by
  cases parallel with
  | ok value => cases failed
  | error stands =>
    cases failed
    exact ⟨_, rfl, stands⟩

end Parallel

/-- Errors of the stack, whatever the names stand for. -/
inductive EvaluationError.OfStack : EvaluationError → Prop
  | fewOperands (op : Operator) : OfStack (.fewOperands op)
  | strayMarker (kind : Marker) : OfStack (.strayMarker kind)
  | leftover (count : Nat) : OfStack (.leftover count)

/-- Contexts with the same numbers and the same values of calls. Where there is none, the errors
stand for each other, as those of the stack do for themselves. -/
structure Context.Mirrors (first second : Context) (related : FormulaError → FormulaError → Prop) :
    Prop where
  numbers : ∀ name, Parallel related (Traced.ofExcept (first.bindings.number name)).result
    (Traced.ofExcept (second.bindings.number name)).result
  calls : ∀ name given, Parallel related (first.call name given).result
    (second.call name given).result
  stack : ∀ cause : EvaluationError, cause.OfStack →
    related (.evaluation cause) (.evaluation cause)

namespace Context.Mirrors

variable {first second : Context} {related : FormulaError → FormulaError → Prop}

theorem onlyValue (mirrors : first.Mirrors second related) (stack : List Single) :
    Parallel related (Context.onlyValue stack).result (Context.onlyValue stack).result := by
  match stack with
  | [value] => exact .ok value
  | [] | _ :: _ :: _ => exact .error (mirrors.stack _ (.leftover _))

mutual

theorem runNode (mirrors : first.Mirrors second related) : ∀ (node : Node) (stack : List Single),
    Parallel related (first.runNode node stack).result (second.runNode node stack).result
  | .number value, stack => by
    rw [Context.runNode, Context.runNode]
    exact .ok _
  | .variable name, stack => by
    rw [Context.runNode, Context.runNode, Traced.result_bind, Traced.result_bind]
    exact (mirrors.numbers name).bind fun value => .ok _
  | .operator op, stack => by
    match stack with
    | right :: left :: below => exact .ok _
    | [] | [_] => exact .error (mirrors.stack _ (.fewOperands op))
  | .call name arguments, stack => by
    rw [Context.runNode, Context.runNode, Traced.result_bind, Traced.result_bind]
    refine (evaluateArguments mirrors arguments).bind fun given => ?_
    rw [Traced.result_bind, Traced.result_bind]
    exact (mirrors.calls name given).bind fun value => .ok _
  | .marker kind, stack => .error (mirrors.stack _ (.strayMarker kind))

theorem runSequence (mirrors : first.Mirrors second related) :
    ∀ (nodes : List Node) (stack : List Single),
      Parallel related (first.runSequence nodes stack).result (second.runSequence nodes stack).result
  | [], stack => by
    rw [Context.runSequence, Context.runSequence]
    exact .ok stack
  | node :: rest, stack => by
    rw [runSequence_cons, runSequence_cons, Traced.result_bind, Traced.result_bind]
    exact (runNode mirrors node stack).bind fun after => runSequence mirrors rest after

theorem evaluateArguments (mirrors : first.Mirrors second related) :
    ∀ arguments : List (List Node), Parallel related (first.evaluateArguments arguments).result
      (second.evaluateArguments arguments).result
  | [] => by
    rw [Context.evaluateArguments, Context.evaluateArguments]
    exact .ok []
  | argument :: rest => by
    rw [Context.evaluateArguments, Context.evaluateArguments, Traced.result_bind,
      Traced.result_bind]
    refine (runSequence mirrors argument []).bind fun stack => ?_
    rw [Traced.result_bind, Traced.result_bind]
    refine (mirrors.onlyValue stack).bind fun value => ?_
    rw [Traced.result_bind, Traced.result_bind]
    exact (evaluateArguments mirrors rest).bind fun values => .ok _

end

/-- A sequence has the same value in both contexts, or errors that stand for each other. -/
theorem evaluate (mirrors : first.Mirrors second related) (nodes : List Node) :
    Parallel related (first.evaluate nodes).result (second.evaluate nodes).result := by
  rw [Context.evaluate, Context.evaluate, Traced.result_bind, Traced.result_bind]
  exact (mirrors.runSequence nodes []).bind mirrors.onlyValue

end Context.Mirrors

end Placement
