import Mathlib.Data.List.Nodup
import Placement.Proofs.Formula.Reading

namespace Placement

/-- Whether a reference is to a function that is supplied, under a name no built-in function has. -/
def isSupplied (functions : List SuppliedFunction) : Option Reference → Bool
  | some (.function name) =>
    (Builtin.registry.find? name).isNone && (findFunction? functions name).isSome
  | _ => false

/-- The calls of supplied functions in a text, in the order of their closing parentheses. -/
def suppliedCalls (functions : List SuppliedFunction) (text : List Char) : List Occurrence :=
  ((occurrences text).filter fun o => isSupplied functions o.token.reference?).mergeSort
    fun first second => first.last ≤ second.last

theorem suppliedCalls_eq (functions : List SuppliedFunction) (text : List Char) :
    suppliedCalls functions text =
      (closingOrder 0 0 text).filter fun o => isSupplied functions o.token.reference? := by
  have strict := (closingOrder_pairwise 0 0 text).filter
    fun o => isSupplied functions o.token.reference?
  have same : (suppliedCalls functions text).Perm
      ((closingOrder 0 0 text).filter fun o => isSupplied functions o.token.reference?) :=
    (List.mergeSort_perm _ _).trans ((closingOrder_perm text).symm.filter _)
  have sorted : (suppliedCalls functions text).Pairwise (·.last ≤ ·.last) := by
    have ordered := @List.pairwise_mergeSort Occurrence (fun a b => a.last ≤ b.last)
      (fun _ _ _ => by simpa using Nat.le_trans) (fun _ _ => by simpa using Nat.le_total _ _)
      ((occurrences text).filter fun o => isSupplied functions o.token.reference?)
    simpa only [suppliedCalls, decide_eq_true_eq] using ordered
  -- No two tokens end at one place, so there is only one list in this order.
  have distinct := List.pairwise_map.mpr (strict.imp Nat.ne_of_lt)
  refine same.eq_of_pairwise (fun first second atFirst atSecond le ge => ?_) sorted
    (strict.imp Nat.le_of_lt)
  exact List.inj_on_of_nodup_map distinct (same.mem_iff.mp atFirst) atSecond
    (Nat.le_antisymm le ge)

namespace Context

/-- The calls of supplied functions among some nodes. -/
def supplied (context : Context) (nodes : List Node) : List Node :=
  nodes.filter fun node => isSupplied context.functions node.reference?

theorem supplied_append (context : Context) (first second : List Node) :
    context.supplied (first ++ second) = context.supplied first ++ context.supplied second :=
  List.filter_append ..

/-- A node that calls a function, and the call of it: the values of its arguments are those that
the function is called with. -/
def Makes (context : Context) (node : Node) (call : Call) : Prop :=
  ∃ arguments values, node = .call call.name arguments ∧
    List.Forall₂ (fun argument value => (context.evaluate argument).result = .ok value)
      arguments values ∧ call.arguments = values.map Binary.toDouble

/-- Of the calls in some nodes, those of supplied functions are made in order: all of them if
there is a result, else the first ones. -/
def Performs {α : Type} (context : Context) (nodes : List Node) (traced : Traced α) : Prop :=
  ∃ made left, context.supplied nodes = made ++ left ∧
    List.Forall₂ context.Makes made traced.calls ∧ ∀ value, traced.result = .ok value → left = []

variable {context : Context} {α β : Type}

namespace Performs

theorem pure (value : α) : context.Performs [] (Pure.pure value : Traced α) :=
  ⟨[], [], rfl, .nil, fun _ _ => rfl⟩

theorem fail (nodes : List Node) (cause : EvaluationError) :
    context.Performs nodes (Traced.fail cause : Traced α) :=
  ⟨[], _, rfl, .nil, nofun⟩

theorem ofExcept (result : Except EvaluationError α) :
    context.Performs [] (Traced.ofExcept result) := by
  cases result with
  | ok value => exact .pure value
  | error cause => exact .fail [] cause

/-- Nodes that call nothing that is supplied do not count. -/
theorem of_supplied_eq_nil {nodes : List Node} {traced : Traced α}
    (none : context.supplied nodes = []) (performs : context.Performs [] traced) :
    context.Performs nodes traced := by
  obtain ⟨made, left, split, rest⟩ := performs
  exact ⟨made, left, none.trans split, rest⟩

theorem bind {nodes more : List Node} {first : Traced α} {next : α → Traced β}
    (performs : context.Performs nodes first)
    (behind : ∀ value, first.result = .ok value → context.Performs more (next value)) :
    context.Performs (nodes ++ more) (first >>= next) := by
  obtain ⟨calls, result⟩ := first
  obtain ⟨made, left, split, makes, complete⟩ := performs
  rw [Performs, supplied_append, split]
  cases result with
  | error error =>
    -- The second part does not run: all that it has to call is left.
    exact ⟨made, left ++ _, List.append_assoc _ _ _, makes, nofun⟩
  | ok value =>
    obtain ⟨others, rest, splitMore, makesMore, completeMore⟩ := behind value rfl
    rw [complete value rfl, List.append_nil, splitMore]
    exact ⟨made ++ others, rest, (List.append_assoc _ _ _).symm,
      List.rel_append makes makesMore, completeMore⟩

theorem followed {nodes : List Node} {first : Traced α} {next : α → Traced β}
    (performs : context.Performs nodes first)
    (behind : ∀ value, context.Performs [] (next value)) :
    context.Performs nodes (first >>= next) := by
  have both := performs.bind fun value _ => behind value
  rwa [List.append_nil] at both

end Performs

theorem call_performs {name : String} {arguments : List (List Node)} {values : List Single}
    (evaluated : (context.evaluateArguments arguments).result = .ok values) :
    context.Performs [.call name arguments] (context.call name values) := by
  cases builtin : Builtin.registry.find? name with
  | some f =>
    have none : context.supplied [.call name arguments] = [] :=
      List.filter_cons_of_neg (by simp [isSupplied, Node.reference?, builtin])
    rw [call_builtin builtin]
    exact .of_supplied_eq_nil none (.ofExcept _)
  | none =>
    cases found : findFunction? context.functions name with
    | some f =>
      have one : context.supplied [.call name arguments] = [.call name arguments] :=
        List.filter_cons_of_pos (by simp [isSupplied, Node.reference?, builtin, found])
      have named : f.name = name := by simpa using List.find?_some found
      have makes : context.Makes (.call name arguments) ⟨f.name, values.map Binary.toDouble⟩ :=
        ⟨arguments, values, by rw [named], forall₂_of_evaluateArguments evaluated, rfl⟩
      rw [call_supplied builtin found]
      exact ⟨_, [], one, .cons makes .nil, fun _ _ => rfl⟩
    | none =>
      rw [call_unknown builtin found]
      exact .fail _ _

theorem onlyValue_performs (stack : List Single) : context.Performs [] (onlyValue stack) := by
  match stack with
  | [value] => exact .pure value
  | [] | _ :: _ :: _ => exact .fail _ _

mutual

/-- What one node does. -/
theorem runNode_performs (context : Context) : ∀ (node : Node) (stack : List Single),
    context.Performs node.operands (context.runNode node stack)
  | .number value, stack => by
    rw [Node.operands, runNode]
    exact .of_supplied_eq_nil rfl (.pure _)
  | .variable name, stack => by
    have performs : context.Performs [.variable name] (.ofExcept (context.bindings.number name)) :=
      .of_supplied_eq_nil rfl (.ofExcept _)
    rw [Node.operands, runNode]
    exact performs.followed fun value => .pure _
  | .operator op, stack => by
    rw [Node.operands]
    match stack with
    | right :: left :: below => exact .pure _
    | [] | [_] => exact .fail _ _
  | .call name arguments, stack => by
    rw [Node.operands, runNode]
    refine (evaluateArguments_performs context arguments).bind fun values evaluated => ?_
    exact (call_performs evaluated).followed fun value => .pure _
  | .marker kind, stack => .fail _ _

theorem runSequence_performs (context : Context) : ∀ (nodes : List Node) (stack : List Single),
    context.Performs (Node.operandsAll nodes) (context.runSequence nodes stack)
  | [], stack => by
    rw [Node.operandsAll, runSequence]
    exact .pure _
  | node :: rest, stack => by
    rw [Node.operandsAll, runSequence_cons]
    exact (runNode_performs context node stack).bind fun after _ =>
      runSequence_performs context rest after

theorem evaluateArguments_performs (context : Context) : ∀ arguments : List (List Node),
    context.Performs (Node.operandsEach arguments) (context.evaluateArguments arguments)
  | [] => by
    rw [Node.operandsEach, evaluateArguments]
    exact .pure _
  | argument :: rest => by
    have value : context.Performs (Node.operandsAll argument) (context.evaluate argument) :=
      (runSequence_performs context argument []).followed onlyValue_performs
    rw [Node.operandsEach, evaluateArguments_cons]
    exact value.bind fun value _ =>
      (evaluateArguments_performs context rest).followed fun values => .pure _

end

theorem evaluate_performs (context : Context) (nodes : List Node) :
    context.Performs (Node.operandsAll nodes) (context.evaluate nodes) :=
  (runSequence_performs context nodes []).followed onlyValue_performs

end Context

/-- The evaluation's call of a function, where it stands in the text: its arguments are read from
the text of the call alone, all of them have values, and it is called with these. -/
def Occurrence.Invokes (context : Context) (levels : Nat) (o : Occurrence) (call : Call) : Prop :=
  ∃ text arguments values, o.token = .call call.name text ∧
    parse { levels } o.token.lexeme = .ok [.call call.name arguments] ∧
    List.Forall₂ (fun argument value => (context.evaluate argument).result = .ok value)
      arguments values ∧ call.arguments = values.map Binary.toDouble

theorem Occurrence.ReadsAs.invokes {context : Context} {levels : Nat} {o : Occurrence} {node : Node}
    {call : Call} (reads : o.ReadsAs levels node) (makes : context.Makes node call) :
    o.Invokes context levels call := by
  obtain ⟨arguments, values, rfl, evaluated, same⟩ := makes
  obtain ⟨named, parsed⟩ := reads
  cases isToken : o.token with
  | call name text =>
    rw [isToken] at named
    cases named
    exact ⟨text, arguments, values, isToken, parsed, evaluated, same⟩
  | _ =>
    rw [isToken] at named
    cases named

theorem invokes_of_makes {context : Context} {levels : Nat} {found : List Occurrence}
    {nodes : List Node} {calls : List Call}
    (reads : List.Forall₂ (Occurrence.ReadsAs levels) found nodes)
    (makes : List.Forall₂ context.Makes nodes calls) :
    List.Forall₂ (Occurrence.Invokes context levels) found calls := by
  induction reads generalizing calls with
  | nil =>
    cases makes
    exact .nil
  | cons atFirst _ ih =>
    cases makes with
    | cons made behind => exact .cons (atFirst.invokes made) (ih behind)

/-- The calls of supplied functions in a text are those in its nodes, in the same order. -/
theorem suppliedCalls_of_parse {limits : Limits} {text : List Char} {nodes : List Node}
    (parsed : parse limits text = .ok nodes) (context : Context) :
    List.Forall₂ (Occurrence.ReadsAs limits.levels) (suppliedCalls context.functions text)
      (context.supplied (Node.operandsAll nodes)) := by
  have among : suppliedCalls context.functions text =
      ((closingOrder 0 0 text).filter (·.token.isOperand)).filter
        fun o => isSupplied context.functions o.token.reference? := by
    rw [suppliedCalls_eq, List.filter_filter]
    refine List.filter_congr fun o _ => ?_
    cases o.token <;> simp [isSupplied, Token.reference?, Token.isOperand]
  rw [among]
  exact List.rel_filter (fun {o node} reads => by simp only [reads.1]) (readsAs_of_parse parsed)

/-- An evaluation calls supplied functions in the order in which their calls close in the text,
once each and with the values of their own arguments. One that fails has made the first of these
calls. -/
theorem evaluateText_calls {limits : Limits} {source : String} {nodes : List Node}
    (parsed : parse limits source.toList = .ok nodes) (given : List (String × Given))
    (functions : List SuppliedFunction) :
    (∀ cause, Bindings.ofPairs given = .error cause →
      (evaluateText (some source) given functions limits).calls = []) ∧
    ∀ bindings, Bindings.ofPairs given = .ok bindings →
      ∃ made left, suppliedCalls functions source.toList = made ++ left ∧
        List.Forall₂ (Occurrence.Invokes ⟨bindings, functions⟩ limits.levels) made
          (evaluateText (some source) given functions limits).calls ∧
        ∀ x, (evaluateText (some source) given functions limits).result = .ok x → left = [] := by
  constructor
  · intro cause unbound
    simp only [evaluateText, Option.getD_some, parsed, unbound]
  · intro bindings bound
    obtain ⟨made, left, split, makes, complete⟩ :=
      Context.evaluate_performs ⟨bindings, functions⟩ nodes
    have reads := suppliedCalls_of_parse parsed ⟨bindings, functions⟩
    rw [split] at reads
    have first := List.forall₂_take_append _ made left reads
    have others := List.forall₂_drop_append _ made left reads
    rw [evaluateText_eq_ofTraced parsed bound]
    refine ⟨_, _, (List.take_append_drop made.length _).symm, invokes_of_makes first makes, ?_⟩
    intro x evaluated
    obtain ⟨value, result, _⟩ := Outcome.result_ofTraced_ok_iff.mp evaluated
    rw [complete value result] at others
    exact List.forall₂_nil_right_iff.mp others

/-- The first function fails when the two calls inside of it are made: the call behind it is not
made. -/
theorem calls_before_failure :
    let functions : List SuppliedFunction := [⟨"f", fun _ _ => .error (.other (.ok ""))⟩,
      ⟨"g", fun _ _ => .ok (.int 1)⟩, ⟨"h", fun _ _ => .ok (.int 2)⟩]
    parse {} "f(g(), h()) + g()".toList =
        .ok [.call "f" [[.call "g" []], [.call "h" []]], .call "g" [], .operator .add] ∧
      Bindings.ofPairs [] = .ok {} ∧
      ∃ made left, suppliedCalls functions "f(g(), h()) + g()".toList = made ++ left ∧
        List.Forall₂ (Occurrence.Invokes ⟨{}, functions⟩ usualLevels) made
          [⟨"g", []⟩, ⟨"h", []⟩, ⟨"f", [.ofNat 1, .ofNat 2]⟩] := by
  intro functions
  have parsed : parse {} "f(g(), h()) + g()".toList =
      .ok [.call "f" [[.call "g" []], [.call "h" []]], .call "g" [], .operator .add] := by decide +kernel
  have called : (evaluateText (some "f(g(), h()) + g()") [] functions {}).calls =
      [⟨"g", []⟩, ⟨"h", []⟩, ⟨"f", [.ofNat 1, .ofNat 2]⟩] := by
    decide +kernel
  obtain ⟨made, left, split, invokes, _⟩ := (evaluateText_calls parsed [] functions).2 {} rfl
  rw [called] at invokes
  exact ⟨parsed, rfl, made, left, split, invokes⟩

end Placement
