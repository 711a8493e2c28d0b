import Placement.Proofs.Formula.CallOrder
import Placement.Proofs.Formula.Substitution

namespace Placement

/-- The names in a text and in the arguments of its calls, at any depth. -/
def references (text : List Char) : List Reference :=
  (occurrences text).filterMap (·.token.reference?)

theorem filterMap_of_readsAs {levels : Nat} {found : List Occurrence} {nodes : List Node}
    (reads : List.Forall₂ (Occurrence.ReadsAs levels) found nodes) :
    found.filterMap (·.token.reference?) = nodes.filterMap Node.reference? := by
  induction reads with
  | nil => rfl
  | cons atFirst _ ih => rw [List.filterMap_cons, List.filterMap_cons, atFirst.1, ih]

/-- The names in a text are those in the nodes that are read of it. -/
theorem references_of_parse {limits : Limits} {text : List Char} {nodes : List Node}
    (parsed : parse limits text = .ok nodes) :
    (references text).Perm ((Node.operandsAll nodes).filterMap Node.reference?) := by
  have operands : (closingOrder 0 0 text).filterMap (·.token.reference?) =
      ((closingOrder 0 0 text).filter (·.token.isOperand)).filterMap (·.token.reference?) := by
    rw [List.filterMap_filter]
    refine List.filterMap_congr fun o _ => ?_
    cases o.token <;> rfl
  rw [← filterMap_of_readsAs (readsAs_of_parse parsed), ← operands]
  exact (closingOrder_perm text).symm.filterMap _

/-- A name that stands for the same in two lists of bindings stands for the same number. -/
theorem Bindings.number_congr {first second : Bindings} {name : String}
    (same : first.entries.lookup name = second.entries.lookup name) :
    first.number name = second.number name := by
  rw [number, number, lookup, lookup, same]

namespace Context

/-- The names stand for the same in two contexts. -/
structure Matches (first second : Context) (names : List Reference) : Prop where
  bindings : ∀ name, .variable name ∈ names →
    first.bindings.entries.lookup name = second.bindings.entries.lookup name
  functions : ∀ name, .function name ∈ names → Builtin.registry.find? name = none →
    findFunction? first.functions name = findFunction? second.functions name

/-- Supplied functions cannot tell in which of two contexts they are called. -/
def Blind (first second : Context) : Prop :=
  first.bindings = second.bindings ∨ ∀ f ∈ first.functions, f.IgnoresBindings

variable {first second : Context}

theorem Matches.mono {names fewer : List Reference} (matched : first.Matches second names)
    (among : ∀ name ∈ fewer, name ∈ names) : first.Matches second fewer where
  bindings name member := matched.bindings name (among _ member)
  functions name member := matched.functions name (among _ member)

theorem Matches.append_left {names more : List Reference}
    (matched : first.Matches second (names ++ more)) : first.Matches second names :=
  matched.mono fun _ => List.mem_append_left _

theorem Matches.append_right {names more : List Reference}
    (matched : first.Matches second (names ++ more)) : first.Matches second more :=
  matched.mono fun _ => List.mem_append_right _

theorem call_local (blind : first.Blind second) {name : String}
    (matched : first.Matches second [.function name]) (given : List Single) :
    first.call name given = second.call name given := by
  cases builtin : Builtin.registry.find? name with
  | some f =>
    -- The built-in function hides whatever is supplied under its name.
    rw [call_builtin builtin, call_builtin builtin]
  | none =>
    have same := matched.functions name List.mem_cons_self builtin
    cases found : findFunction? first.functions name with
    | some f =>
      have body : f.body (given.map Binary.toDouble) first.bindings =
          f.body (given.map Binary.toDouble) second.bindings := by
        rcases blind with bindings | ignore
        · rw [bindings]
        · exact ignore f (List.mem_of_find?_eq_some found) _ _ _
      rw [call_supplied builtin found, call_supplied builtin (same ▸ found),
        SuppliedFunction.call, SuppliedFunction.call, body]
    | none => rw [call_unknown builtin found, call_unknown builtin (same ▸ found)]

mutual

theorem runNode_local (blind : first.Blind second) : ∀ (node : Node) (stack : List Single),
    first.Matches second (node.operands.filterMap Node.reference?) →
      first.runNode node stack = second.runNode node stack
  | .number _, stack, _ => by rw [runNode, runNode]
  | .variable name, stack, matched => by
    rw [Node.operands] at matched
    have same := matched.bindings name List.mem_cons_self
    rw [runNode, runNode, Bindings.number_congr same]
  | .operator op, stack, _ => by
    unfold runNode
    rfl
  | .call name arguments, stack, matched => by
    rw [Node.operands, List.filterMap_append] at matched
    have called : first.Matches second [.function name] := matched.append_right
    rw [runNode, runNode, evaluateArguments_local blind arguments matched.append_left,
      funext (call_local blind called)]
  | .marker kind, stack, _ => by rw [runNode, runNode]

theorem runSequence_local (blind : first.Blind second) :
    ∀ (nodes : List Node) (stack : List Single),
      first.Matches second ((Node.operandsAll nodes).filterMap Node.reference?) →
      first.runSequence nodes stack = second.runSequence nodes stack
  | [], stack, _ => by rw [runSequence, runSequence]
  | node :: rest, stack, matched => by
    rw [Node.operandsAll, List.filterMap_append] at matched
    rw [runSequence_cons, runSequence_cons, runNode_local blind node stack matched.append_left]
    exact congrArg _ (funext fun after =>
      runSequence_local blind rest after matched.append_right)

theorem evaluateArguments_local (blind : first.Blind second) : ∀ arguments : List (List Node),
    first.Matches second ((Node.operandsEach arguments).filterMap Node.reference?) →
      first.evaluateArguments arguments = second.evaluateArguments arguments
  | [], _ => by rw [evaluateArguments, evaluateArguments]
  | argument :: rest, matched => by
    rw [Node.operandsEach, List.filterMap_append] at matched
    rw [evaluateArguments_cons, evaluateArguments_cons, evaluate, evaluate,
      runSequence_local blind argument [] matched.append_left,
      evaluateArguments_local blind rest matched.append_right]

end

theorem evaluate_local (blind : first.Blind second) {nodes : List Node}
    (matched : first.Matches second ((Node.operandsAll nodes).filterMap Node.reference?)) :
    first.evaluate nodes = second.evaluate nodes := by
  rw [evaluate, evaluate, runSequence_local blind nodes [] matched]

mutual

/-- Where a node runs, the variables in it are numbers, also those in the arguments of calls. -/
theorem number_of_runNode {context : Context} {name : String} :
    ∀ (node : Node) {stack after : List Single},
    (context.runNode node stack).result = .ok after → .variable name ∈ node.operands →
      ∃ value, context.bindings.number name = .ok value
  | .number _, _, _, _, among => by
    rw [Node.operands, List.mem_singleton] at among
    cases among
  | .variable other, _, _, ran, among => by
    rw [Node.operands, List.mem_singleton] at among
    cases among
    obtain ⟨value, found, _⟩ := runNode_variable_eq_ok_iff.mp ran
    exact ⟨value, found⟩
  | .operator _, _, _, _, among => by
    rw [Node.operands] at among
    cases among
  | .call _ arguments, _, _, ran, among => by
    obtain ⟨given, _, evaluated, _⟩ := runNode_call_eq_ok_iff.mp ran
    rw [Node.operands, List.mem_append, List.mem_singleton] at among
    exact number_of_evaluateArguments arguments evaluated (among.resolve_right nofun)
  | .marker _, _, _, _, among => by
    rw [Node.operands] at among
    cases among

theorem number_of_operandsAll {context : Context} {name : String} :
    ∀ (nodes : List Node) {stack after : List Single},
    (context.runSequence nodes stack).result = .ok after →
      .variable name ∈ Node.operandsAll nodes →
      ∃ value, context.bindings.number name = .ok value
  | [], _, _, _, among => by
    rw [Node.operandsAll] at among
    cases among
  | node :: rest, _, _, ran, among => by
    obtain ⟨middle, first, behind⟩ := runSequence_cons_eq_ok_iff.mp ran
    rw [Node.operandsAll, List.mem_append] at among
    rcases among with here | later
    · exact number_of_runNode node first here
    · exact number_of_operandsAll rest behind later

theorem number_of_evaluateArguments {context : Context} {name : String} :
    ∀ (arguments : List (List Node)) {values : List Single},
    (context.evaluateArguments arguments).result = .ok values →
      .variable name ∈ Node.operandsEach arguments →
      ∃ value, context.bindings.number name = .ok value
  | [], _, _, among => by
    rw [Node.operandsEach] at among
    cases among
  | argument :: rest, _, evaluated, among => by
    obtain ⟨value, others, atFirst, atRest, _⟩ :=
      evaluateArguments_cons_eq_ok_iff.mp evaluated
    rw [Node.operandsEach, List.mem_append] at among
    rcases among with here | later
    · exact number_of_operandsAll argument (evaluate_eq_ok_iff.mp atFirst) here
    · exact number_of_evaluateArguments rest atRest later

end

theorem exists_makes {context : Context} {made : List Node} {calls : List Call}
    (makes : List.Forall₂ context.Makes made calls) {call : Call} (member : call ∈ calls) :
    ∃ node ∈ made, context.Makes node call := by
  induction makes with
  | nil => cases member
  | @cons node first nodes rest atFirst _ ih =>
    rcases List.mem_cons.mp member with rfl | inRest
    · exact ⟨node, List.mem_cons_self, atFirst⟩
    · obtain ⟨other, inNodes, made⟩ := ih inRest
      exact ⟨other, List.mem_cons_of_mem _ inNodes, made⟩

/-- Only supplied functions of names that no built-in function has are called. -/
theorem isSupplied_of_mem_calls {context : Context} {nodes : List Node} {call : Call}
    (member : call ∈ (context.evaluate nodes).calls) :
    isSupplied context.functions (some (.function call.name)) = true := by
  obtain ⟨made, left, split, makes, _⟩ := context.evaluate_performs nodes
  obtain ⟨node, inMade, _, _, rfl, _⟩ := exists_makes makes member
  have isMade := split ▸ List.mem_append_left left inMade
  exact (List.mem_filter.mp isMade).2

end Context

/-- One more binding does not decide whether names can be bound. -/
theorem Bindings.ofPairs_insert {name : String} {value : Given} {bound : Bound}
    (binds : value.bind? = some bound) (before after : List (String × Given)) :
    (∃ cause, ofPairs (before ++ after) = .error cause ∧
      ofPairs (before ++ (name, value) :: after) = .error cause) ∨
    ∃ front back, front.map Prod.fst = before.map Prod.fst ∧
      ofPairs (before ++ after) = .ok ⟨front ++ back⟩ ∧
      ofPairs (before ++ (name, value) :: after) = .ok ⟨front ++ (name, bound) :: back⟩ := by
  induction before with
  | nil =>
    rw [List.nil_append, List.nil_append, ofPairs_cons binds]
    cases ofPairs after with
    | error cause => exact Or.inl ⟨cause, rfl, rfl⟩
    | ok bindings => exact Or.inr ⟨[], bindings.entries, rfl, rfl, rfl⟩
  | cons entry rest ih =>
    obtain ⟨other, given⟩ := entry
    rw [List.cons_append, List.cons_append]
    cases found : given.bind? with
    | none =>
      rw [ofPairs, ofPairs, found]
      exact Or.inl ⟨_, rfl, rfl⟩
    | some value =>
      rw [ofPairs_cons found, ofPairs_cons found]
      rcases ih with ⟨cause, without, also⟩ | ⟨front, back, names, without, also⟩
      · rw [without, also]
        exact Or.inl ⟨cause, rfl, rfl⟩
      · rw [without, also]
        exact Or.inr ⟨(other, value) :: front, back, by rw [List.map_cons, names]; rfl, rfl, rfl⟩

theorem Bindings.lookup_insert {front : List (String × Bound)} {name other : String}
    (hidden : name ∈ front.map Prod.fst ∨ other ≠ name) (bound : Bound)
    (back : List (String × Bound)) :
    (front ++ (name, bound) :: back).lookup other = (front ++ back).lookup other := by
  rw [List.lookup_append, List.lookup_append]
  by_cases same : other = name
  · obtain ⟨entry, inFront, named⟩ := List.mem_map.mp (hidden.resolve_right (not_not_intro same))
    have found : (front.lookup other).isSome = true :=
      List.lookup_isSome_iff.mpr ⟨entry, inFront, beq_iff_eq.mpr (same.trans named.symm)⟩
    rw [Option.or_of_isSome found, Option.or_of_isSome found]
  · rw [List.lookup_cons, beq_false_of_ne same]

theorem findFunction?_insert {before : List SuppliedFunction} {f : SuppliedFunction}
    {name : String} (hidden : f.name ∈ before.map SuppliedFunction.name ∨ name ≠ f.name)
    (after : List SuppliedFunction) :
    findFunction? (before ++ f :: after) name = findFunction? (before ++ after) name := by
  unfold findFunction?
  rw [List.find?_append, List.find?_append]
  by_cases same : name = f.name
  · obtain ⟨g, inBefore, named⟩ := List.mem_map.mp (hidden.resolve_right (not_not_intro same))
    have found : (before.find? (·.name == name)).isSome = true :=
      List.find?_isSome.mpr ⟨g, inBefore, beq_iff_eq.mpr (named.trans same.symm)⟩
    rw [Option.or_of_isSome found, Option.or_of_isSome found]
  · rw [List.find?_cons, beq_false_of_ne (Ne.symm same)]

/-- Where names cannot be bound, functions do not matter. -/
theorem evaluateText_unbound {given others : List (String × Given)} {cause : EvaluationError}
    (unbound : Bindings.ofPairs given = .error cause)
    (again : Bindings.ofPairs others = .error cause) (expression : Option String)
    (functions replaced : List SuppliedFunction) (limits : Limits) :
    evaluateText expression given functions limits =
      evaluateText expression others replaced limits := by
  simp only [evaluateText, unbound, again]

theorem evaluateText_of_matches {expression : Option String} {limits : Limits}
    {given others : List (String × Given)} {functions replaced : List SuppliedFunction}
    {bindings rebound : Bindings} (bound : Bindings.ofPairs given = .ok bindings)
    (again : Bindings.ofPairs others = .ok rebound)
    (blind : Context.Blind ⟨bindings, functions⟩ ⟨rebound, replaced⟩)
    (matched : Context.Matches ⟨bindings, functions⟩ ⟨rebound, replaced⟩
      (references (expression.getD "").toList)) :
    evaluateText expression given functions limits =
      evaluateText expression others replaced limits := by
  cases parsed : parse limits (expression.getD "").toList with
  | error failure => simp only [evaluateText, parsed]
  | ok nodes =>
    have names := references_of_parse parsed
    have atNodes := matched.mono fun name member => names.mem_iff.mpr member
    simp only [evaluateText, parsed, bound, again, Context.evaluate_local blind atNodes]

theorem isSupplied_of_evaluateText {expression : Option String} {given : List (String × Given)}
    {functions : List SuppliedFunction} {limits : Limits} {call : Call}
    (member : call ∈ (evaluateText expression given functions limits).calls) :
    isSupplied functions (some (.function call.name)) = true := by
  cases parsed : parse limits (expression.getD "").toList with
  | error failure =>
    simp only [evaluateText, parsed] at member
    cases member
  | ok nodes =>
    cases bound : Bindings.ofPairs given with
    | error cause =>
      simp only [evaluateText, parsed, bound] at member
      cases member
    | ok bindings =>
      simp only [evaluateText, parsed, bound] at member
      exact Context.isSupplied_of_mem_calls member

theorem evaluateText_insert_binding {expression : Option String} {limits : Limits} {name : String}
    {value : Given} {bound : Bound} (binds : value.bind? = some bound)
    {before : List (String × Given)} (hidden : name ∈ before.map Prod.fst ∨
      .variable name ∉ references (expression.getD "").toList)
    {functions : List SuppliedFunction} (ignore : ∀ f ∈ functions, f.IgnoresBindings)
    (after : List (String × Given)) :
    evaluateText expression (before ++ (name, value) :: after) functions limits =
      evaluateText expression (before ++ after) functions limits := by
  rcases Bindings.ofPairs_insert binds before after with
    ⟨cause, without, also⟩ | ⟨front, back, names, without, also⟩
  · exact evaluateText_unbound also without _ _ _ _
  · refine evaluateText_of_matches also without (Or.inr ignore) ⟨fun other mentioned => ?_,
      fun _ _ _ => rfl⟩
    refine Bindings.lookup_insert ?_ bound back
    rw [names]
    exact hidden.imp_right fun unmentioned same => unmentioned (same ▸ mentioned)

theorem evaluateText_insert_function {expression : Option String} {limits : Limits}
    {f : SuppliedFunction} {before : List SuppliedFunction}
    (hidden : f.name ∈ before.map SuppliedFunction.name ∨
      .function f.name ∉ references (expression.getD "").toList ∨
      (Builtin.registry.find? f.name).isSome = true)
    (given : List (String × Given)) (after : List SuppliedFunction) :
    evaluateText expression given (before ++ f :: after) limits =
      evaluateText expression given (before ++ after) limits := by
  cases bound : Bindings.ofPairs given with
  | error cause => exact evaluateText_unbound bound bound _ _ _ _
  | ok bindings =>
    refine evaluateText_of_matches bound bound (Or.inl rfl) ⟨fun _ _ => rfl,
      fun name mentioned noBuiltin => ?_⟩
    refine findFunction?_insert (hidden.imp_right fun unused same => ?_) after
    rcases unused with unmentioned | builtin
    · exact unmentioned (same ▸ mentioned)
    · rw [← same, noBuiltin] at builtin
      cases builtin

/-- An evaluation depends on the first bindings of the variables in a text and on the first supplied
functions of the names that are called in it and that no built-in function has, and on nothing
else. Functions named like a built-in one are not called, and bindings and functions that come
later or whose names are not in the text change nothing. -/
theorem evaluateText_local (expression : Option String) (limits : Limits) :
    (∀ given others functions replaced bindings rebound,
      Bindings.ofPairs given = .ok bindings → Bindings.ofPairs others = .ok rebound →
      (∀ f ∈ functions, f.IgnoresBindings) →
      Context.Matches ⟨bindings, functions⟩ ⟨rebound, replaced⟩
        (references (expression.getD "").toList) →
      evaluateText expression given functions limits =
        evaluateText expression others replaced limits) ∧
    (∀ given functions, ∀ call ∈ (evaluateText expression given functions limits).calls,
      Builtin.registry.find? call.name = none) ∧
    (∀ name value before after functions, value.bind? ≠ none →
      (∀ f ∈ functions, f.IgnoresBindings) →
      name ∈ before.map Prod.fst ∨ .variable name ∉ references (expression.getD "").toList →
      evaluateText expression (before ++ (name, value) :: after) functions limits =
        evaluateText expression (before ++ after) functions limits) ∧
    ∀ (f : SuppliedFunction) given before after,
      f.name ∈ before.map SuppliedFunction.name ∨
        .function f.name ∉ references (expression.getD "").toList ∨
        (Builtin.registry.find? f.name).isSome = true →
      evaluateText expression given (before ++ f :: after) limits =
        evaluateText expression given (before ++ after) limits := by
  refine ⟨fun given others functions replaced bindings rebound bound again ignore matched =>
      evaluateText_of_matches bound again (Or.inr ignore) matched,
    fun given functions call member => ?_,
    fun name value before after functions binds ignore hidden => ?_,
    fun f given before after hidden => evaluateText_insert_function hidden given after⟩
  · have supplied := isSupplied_of_evaluateText member
    exact Option.isNone_iff_eq_none.mp (Bool.and_eq_true_iff.mp supplied).1
  · obtain ⟨bound, found⟩ := Option.ne_none_iff_exists'.mp binds
    exact evaluateText_insert_binding found hidden ignore after

/-- Other bindings in another order, and a function named like a built-in one. -/
theorem local_of_max :
    let f : SuppliedFunction := ⟨"f", fun arguments _ => .ok (.float (arguments.headD .nan))⟩
    let g : SuppliedFunction := ⟨"max", fun _ _ => .error (.other (.ok ""))⟩
    let x : Given := .datum (.float .half)
    let y : Given := .datum (.float .nan)
    evaluateText (some "f(x) + max(y, x)") [("x", x), ("y", y), ("x", y)] [f] {} =
      evaluateText (some "f(x) + max(y, x)") [("y", y), ("z", x), ("x", x)] [g, f] {} := by
  intro f g x y
  have parsed : parse {} "f(x) + max(y, x)".toList = .ok [.call "f" [[.variable "x"]],
      .call "max" [[.variable "y"], [.variable "x"]], .operator .add] := by decide +kernel
  have names := references_of_parse parsed
  refine (evaluateText_local (some "f(x) + max(y, x)") {}).1 _ _ _ _ _ _ rfl rfl ?_ ?_
  · intro other member
    rw [List.mem_singleton.mp member]
    exact fun _ _ _ => rfl
  · constructor
    · intro name mentioned
      have among := names.mem_iff.mp mentioned
      have either : name = "x" ∨ name = "y" ∨ name = "x" := by
        simpa [Node.operandsAll, Node.operandsEach, Node.operands, Node.reference?] using among
      rcases either with rfl | rfl | rfl <;> rfl
    · intro name mentioned noBuiltin
      have among := names.mem_iff.mp mentioned
      have either : name = "f" ∨ name = "max" := by
        simpa [Node.operandsAll, Node.operandsEach, Node.operands, Node.reference?] using among
      rcases either with rfl | rfl
      · rfl
      · cases noBuiltin

end Placement
