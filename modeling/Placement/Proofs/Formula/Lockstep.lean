import Placement.Proofs.Formula.Running

/-!
Two evaluations of the same nodes with other numbers. The stacks have the same height all the
way, so one evaluation gets as far as the other unless a call stops it.
-/

namespace Placement

/-- A computation that gives a value with a property, or stops with a tolerated error. -/
def Gives {ε α : Type} (tolerated : ε → Prop) (result : Except ε α) (property : α → Prop) : Prop :=
  (∃ value, result = .ok value ∧ property value) ∨ ∃ error, result = .error error ∧ tolerated error

namespace Gives

variable {ε α β : Type} {tolerated : ε → Prop}

theorem ok {property : α → Prop} {value : α} (has : property value) :
    Gives tolerated (.ok value) property := Or.inl ⟨value, rfl, has⟩

theorem mono {first second : α → Prop} {result : Except ε α}
    (gives : Gives tolerated result first) (weaker : ∀ value, first value → second value) :
    Gives tolerated result second := by
  rcases gives with ⟨value, same, has⟩ | stopped
  · exact Or.inl ⟨value, same, weaker value has⟩
  · exact Or.inr stopped

theorem tolerate {others : ε → Prop} {property : α → Prop} {result : Except ε α}
    (gives : Gives tolerated result property) (weaker : ∀ error, tolerated error → others error) :
    Gives others result property := by
  rcases gives with value | ⟨error, same, tolerates⟩
  · exact Or.inl value
  · exact Or.inr ⟨error, same, weaker error tolerates⟩

theorem bind {first : α → Prop} {second : β → Prop} {result : Except ε α}
    {next : α → Except ε β} (gives : Gives tolerated result first)
    (behind : ∀ value, result = .ok value → first value → Gives tolerated (next value) second) :
    Gives tolerated (result >>= next) second := by
  rcases gives with ⟨value, rfl, has⟩ | ⟨error, rfl, stops⟩
  · exact behind value rfl has
  · exact Or.inr ⟨error, rfl, stops⟩

/-- Where nothing is tolerated there is a value. -/
theorem exists_ok {property : α → Prop} {result : Except ε α}
    (gives : Gives (fun _ => False) result property) : ∃ value, result = .ok value := by
  rcases gives with ⟨value, same, _⟩ | ⟨_, _, impossible⟩
  · exact ⟨value, same⟩
  · exact impossible.elim

end Gives

theorem Outcome.gives_ofTraced {traced : Traced Single} {tolerated : FormulaError → Prop}
    (gives : Gives tolerated traced.result fun _ => True) :
    Gives (fun failure => ∃ error, failure = .raised error ∧ tolerated error)
      (ofTraced traced).result fun _ => True := by
  rcases gives with ⟨value, same, _⟩ | ⟨error, same, tolerates⟩
  · exact Or.inl ⟨_, result_ofTraced_ok_iff.mpr ⟨value, same, rfl⟩, trivial⟩
  · exact Or.inr ⟨_, result_ofTraced_error_iff.mpr ⟨error, same, rfl⟩, error, rfl, tolerates⟩

namespace Node

mutual

/-- The calls in a node, those in the arguments of calls included. -/
def calls : Node → List (String × List (List Node))
  | .call name arguments => (name, arguments) :: callsEach arguments
  | _ => []

def callsAll : List Node → List (String × List (List Node))
  | [] => []
  | node :: rest => calls node ++ callsAll rest

def callsEach : List (List Node) → List (String × List (List Node))
  | [] => []
  | argument :: rest => callsAll argument ++ callsEach rest

end

end Node

/-- Whether a built-in function has a value is decided by the number of its arguments. -/
theorem Definition.exists_call_of_length_eq {f : Definition Single} {given others : List Single}
    {value : Single} (called : f.call given = .ok value) (length : others.length = given.length) :
    ∃ other, f.call others = .ok other := by
  unfold Definition.call at called ⊢
  rw [length]
  split at called
  · cases called
  · rename_i enough
    exact ⟨_, if_neg enough⟩

theorem Context.call_gives {first second : Context} {tolerated : FormulaError → Prop}
    {name : String} {given others : List Single} {value : Single}
    (called : (first.call name given).result = .ok value) (length : others.length = given.length)
    (supplied : ∀ f, findFunction? first.functions name = some f →
      ∃ g, findFunction? second.functions name = some g ∧
        Gives tolerated (g.call others second.bindings).result fun _ => True) :
    Gives tolerated (second.call name others).result fun _ => True := by
  cases builtin : Builtin.registry.find? name with
  | some f =>
    rw [call_builtin builtin, Traced.result_ofExcept_ok_iff] at called
    obtain ⟨other, same⟩ := Definition.exists_call_of_length_eq called length
    rw [call_builtin builtin, Traced.result_ofExcept_ok_iff.mpr same]
    exact .ok trivial
  | none =>
    cases found : findFunction? first.functions name with
    | some f =>
      obtain ⟨g, atSecond, gives⟩ := supplied f found
      rw [call_supplied builtin atSecond]
      exact gives
    | none =>
      rw [call_unknown builtin found] at called
      cases called

/-- A context in which nodes get as far as in another one: the same names are numbers, and calls
that are usable have a value, or stop with a tolerated error. -/
structure Context.Follows (second first : Context) (usable : String → List (List Node) → Prop)
    (tolerated : FormulaError → Prop) : Prop where
  numbers : ∀ name value, first.bindings.number name = .ok value →
    ∃ other, second.bindings.number name = .ok other
  calls : ∀ name arguments given others value, usable name arguments →
    (second.evaluateArguments arguments).result = .ok others → others.length = given.length →
    (first.call name given).result = .ok value →
    Gives tolerated (second.call name others).result fun _ => True

namespace Context

variable {first second : Context} {usable : String → List (List Node) → Prop}
  {tolerated : FormulaError → Prop}

theorem evaluate_gives {context : Context} {nodes : List Node}
    (run : Gives tolerated (context.runSequence nodes []).result fun result => result.length = 1) :
    Gives tolerated (context.evaluate nodes).result fun _ => True := by
  rw [Context.evaluate, Traced.result_bind]
  refine run.bind fun found _ length => ?_
  obtain ⟨other, rfl⟩ := List.length_eq_one_iff.mp length
  rw [onlyValue_eq_ok_iff.mpr rfl]
  exact .ok trivial

mutual

theorem Follows.runNode (follows : second.Follows first usable tolerated) : ∀ (node : Node)
    (stack others after : List Single), (∀ call ∈ node.calls, usable call.1 call.2) →
    (first.runNode node stack).result = .ok after → others.length = stack.length →
    Gives tolerated (second.runNode node others).result fun result => result.length = after.length
  | .number value, stack, others, after, _, ran, same => by
    rw [Context.runNode] at ran ⊢
    cases ran
    exact .ok (by rw [List.length_cons, List.length_cons, same])
  | .variable name, stack, others, after, _, ran, same => by
    obtain ⟨value, found, rfl⟩ := runNode_variable_eq_ok_iff.mp ran
    obtain ⟨other, atOther⟩ := follows.numbers name value found
    rw [runNode_variable_eq_ok_iff.mpr ⟨other, atOther, rfl⟩]
    exact .ok (by rw [List.length_cons, List.length_cons, same])
  | .operator op, stack, others, after, _, ran, same => by
    obtain ⟨left, right, below, rfl, rfl⟩ := runNode_operator_eq_ok_iff.mp ran
    match others, same with
    | high :: low :: rest, same =>
      simp only [List.length_cons] at same
      refine .ok ?_
      simp only [List.length_cons]
      omega
  | .call name arguments, stack, others, after, usables, ran, same => by
    obtain ⟨given, value, evaluated, atCall, rfl⟩ := runNode_call_eq_ok_iff.mp ran
    rw [Node.calls] at usables
    have arguments' := follows.evaluateArguments arguments given
      (fun call member => usables call (List.mem_cons_of_mem _ member)) evaluated
    rw [Context.runNode, Traced.result_bind]
    refine arguments'.bind fun found atArguments length => ?_
    rw [Traced.result_bind]
    refine (follows.calls name arguments given found value (usables _ List.mem_cons_self)
      atArguments length atCall).bind fun other _ _ => ?_
    exact .ok (by rw [List.length_cons, List.length_cons, same])
  | .marker kind, stack, others, after, _, ran, same => by cases ran

theorem Follows.runSequence (follows : second.Follows first usable tolerated) :
    ∀ (nodes : List Node) (stack others after : List Single),
    (∀ call ∈ Node.callsAll nodes, usable call.1 call.2) →
    (first.runSequence nodes stack).result = .ok after → others.length = stack.length →
    Gives tolerated (second.runSequence nodes others).result
      fun result => result.length = after.length
  | [], stack, others, after, _, ran, same => by
    rw [Context.runSequence] at ran ⊢
    cases ran
    exact .ok same
  | node :: rest, stack, others, after, usables, ran, same => by
    obtain ⟨middle, atNode, atRest⟩ := runSequence_cons_eq_ok_iff.mp ran
    rw [Node.callsAll] at usables
    have step := follows.runNode node stack others middle
      (fun call member => usables call (List.mem_append_left _ member)) atNode same
    rw [runSequence_cons, Traced.result_bind]
    exact step.bind fun found _ length => follows.runSequence rest middle found after
      (fun call member => usables call (List.mem_append_right _ member)) atRest length

theorem Follows.evaluateArguments (follows : second.Follows first usable tolerated) :
    ∀ (arguments : List (List Node)) (given : List Single),
    (∀ call ∈ Node.callsEach arguments, usable call.1 call.2) →
    (first.evaluateArguments arguments).result = .ok given →
    Gives tolerated (second.evaluateArguments arguments).result
      fun result => result.length = given.length
  | [], given, _, evaluated => by
    rw [Context.evaluateArguments] at evaluated ⊢
    cases evaluated
    exact .ok rfl
  | argument :: rest, given, usables, evaluated => by
    obtain ⟨value, values, atFirst, atRest, rfl⟩ := evaluateArguments_cons_eq_ok_iff.mp evaluated
    rw [Node.callsEach] at usables
    have step := follows.runSequence argument [] [] [value]
      (fun call member => usables call (List.mem_append_left _ member))
      (evaluate_eq_ok_iff.mp atFirst) rfl
    have behind := follows.evaluateArguments rest values
      (fun call member => usables call (List.mem_append_right _ member)) atRest
    rw [evaluateArguments_cons, Traced.result_bind]
    refine (evaluate_gives step).bind fun other _ _ => ?_
    rw [Traced.result_bind]
    refine behind.bind fun others _ length => ?_
    exact .ok (by rw [List.length_cons, List.length_cons, length])

end

/-- A sequence that has a value in one context has one in a context that follows it. -/
theorem Follows.evaluate (follows : second.Follows first usable tolerated) {nodes : List Node}
    {value : Single} (usables : ∀ call ∈ Node.callsAll nodes, usable call.1 call.2)
    (evaluated : (first.evaluate nodes).result = .ok value) :
    Gives tolerated (second.evaluate nodes).result fun _ => True := by
  have run := follows.runSequence nodes [] [] [value] usables (evaluate_eq_ok_iff.mp evaluated) rfl
  exact evaluate_gives run

end Context

end Placement
