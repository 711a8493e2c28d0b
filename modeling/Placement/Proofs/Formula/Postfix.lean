import Placement.Proofs.Formula.Tree

/-!
Postfix sequences with a value are the postfix forms of trees with this value. The tree is read
off the sequence by the same steps that run it, on a stack of trees.
-/

namespace Placement

/-- The first entry with a name. -/
def IsFirst {α : Type} (nameOf : α → String) (name : String) (entries : List α) (entry : α) :
    Prop :=
  ∃ before after, entries = before ++ entry :: after ∧ nameOf entry = name ∧
    ∀ other ∈ before, nameOf other ≠ name

theorem find?_eq_some_iff_isFirst {α : Type} {nameOf : α → String} {name : String}
    {entries : List α} {entry : α} :
    entries.find? (nameOf · == name) = some entry ↔ IsFirst nameOf name entries entry := by
  rw [List.find?_eq_some_iff_append]
  constructor
  · rintro ⟨named, before, after, split, others⟩
    exact ⟨before, after, split, eq_of_beq named, fun other member => by simpa using others other member⟩
  · rintro ⟨before, after, split, named, others⟩
    exact ⟨beq_iff_eq.mpr named, before, after, split,
      fun other member => by simpa using others other member⟩

theorem find?_eq_none_iff_ne {α : Type} {nameOf : α → String} {name : String} {entries : List α} :
    entries.find? (nameOf · == name) = none ↔ ∀ entry ∈ entries, nameOf entry ≠ name := by
  simp only [List.find?_eq_none, beq_iff_eq]

theorem lookup_eq_some_iff_isFirst {α : Type} {entries : List (String × α)} {name : String}
    {value : α} :
    entries.lookup name = some value ↔ IsFirst Prod.fst name entries (name, value) := by
  rw [List.lookup_eq_some_iff]
  constructor
  · rintro ⟨before, after, split, others⟩
    exact ⟨before, after, split, rfl, fun other member same => by
      simpa [same] using others other member⟩
  · rintro ⟨before, after, split, _, others⟩
    exact ⟨before, after, split, fun other member => by
      simpa using (others other member).symm⟩

/-- The number of a variable is what its first binding holds. -/
theorem Bindings.number_eq_ok_iff {bindings : Bindings} {name : String} {value : Single} :
    bindings.number name = .ok value ↔
      IsFirst Prod.fst name bindings.entries (name, .number value) := by
  rw [← lookup_eq_some_iff_isFirst, number, lookup]
  cases bindings.entries.lookup name with
  | none => simp
  | some bound => cases bound <;> simp

namespace Tree

mutual

/-- What a node makes of the trees before it, the last of which stands first. -/
def ofNode? : Node → List Tree → Option (List Tree)
  | .number value, stack => some (.number value :: stack)
  | .variable name, stack => some (.variable name :: stack)
  | .operator op, stack =>
    match stack with
    | right :: left :: below => some (.operation op left right :: below)
    | _ => none
  | .call name arguments, stack =>
    (ofArguments? arguments).map fun trees => .call name trees :: stack
  | .marker _, _ => none

def ofSequence? : List Node → List Tree → Option (List Tree)
  | [], stack => some stack
  | node :: rest, stack => (ofNode? node stack).bind (ofSequence? rest)

def ofArguments? : List (List Node) → Option (List Tree)
  | [] => some []
  | argument :: rest =>
    match ofSequence? argument [] with
    | some [tree] => (ofArguments? rest).map (tree :: ·)
    | _ => none

end

/-- The tree with a postfix form. -/
def ofNodes? (nodes : List Node) : Option Tree :=
  match ofSequence? nodes [] with
  | some [tree] => some tree
  | _ => none

theorem ofSequence?_append (first second : List Node) (stack : List Tree) :
    ofSequence? (first ++ second) stack = (ofSequence? first stack).bind (ofSequence? second) := by
  induction first generalizing stack with
  | nil => simp only [List.nil_append, ofSequence?, Option.bind_some]
  | cons node rest ih =>
    simp only [List.cons_append, ofSequence?, Option.bind_assoc]
    exact congrArg _ (funext ih)

theorem ofSequence?_singleton (node : Node) (stack : List Tree) :
    ofSequence? [node] stack = ofNode? node stack := by
  rw [ofSequence?, funext (ofSequence?.eq_1)]
  exact Option.bind_fun_some _

mutual

/-- The postfix form of a tree puts the tree on the stack. -/
theorem ofSequence?_nodes : ∀ (tree : Tree) (stack : List Tree),
    ofSequence? tree.nodes stack = some (tree :: stack)
  | .number value, stack => by rw [nodes, ofSequence?_singleton, ofNode?]
  | .variable name, stack => by rw [nodes, ofSequence?_singleton, ofNode?]
  | .operation op left right, stack => by
    rw [nodes, ofSequence?_append, ofSequence?_append, ofSequence?_nodes left, Option.bind_some,
      ofSequence?_nodes right, Option.bind_some, ofSequence?_singleton, ofNode?]
  | .call name arguments, stack => by
    rw [nodes, ofSequence?_singleton, ofNode?, ofArguments?_nodesEach, Option.map_some]

theorem ofArguments?_nodesEach : ∀ trees : List Tree, ofArguments? (nodesEach trees) = some trees
  | [] => by rw [nodesEach, ofArguments?]
  | tree :: rest => by
    rw [nodesEach, ofArguments?, ofSequence?_nodes, ofArguments?_nodesEach rest]
    rfl

end

/-- The postfix forms of the trees on a stack, one behind the other. -/
def forest (stack : List Tree) : List Node := stack.reverse.flatMap nodes

theorem forest_cons (tree : Tree) (stack : List Tree) :
    forest (tree :: stack) = forest stack ++ tree.nodes := by
  simp [forest]

mutual

theorem forest_ofNode? : ∀ (node : Node) (stack after : List Tree),
    ofNode? node stack = some after → forest stack ++ [node] = forest after
  | .number value, stack, after, grown => by
    rw [ofNode?] at grown
    cases grown
    rw [forest_cons, nodes]
  | .variable name, stack, after, grown => by
    rw [ofNode?] at grown
    cases grown
    rw [forest_cons, nodes]
  | .operator op, right :: left :: below, after, grown => by
    rw [ofNode?] at grown
    cases grown
    simp only [forest_cons, nodes, List.append_assoc]
  | .call name arguments, stack, after, grown => by
    rw [ofNode?] at grown
    obtain ⟨trees, made, rfl⟩ := Option.map_eq_some_iff.mp grown
    rw [forest_cons, nodes, nodesEach_ofArguments? arguments trees made]
  | .marker kind, stack, after, grown => by
    rw [ofNode?] at grown
    cases grown

/-- The trees made of a sequence have this sequence as their postfix forms. -/
theorem forest_ofSequence? : ∀ (sequence : List Node) (stack after : List Tree),
    ofSequence? sequence stack = some after → forest stack ++ sequence = forest after
  | [], stack, after, grown => by
    rw [ofSequence?] at grown
    cases grown
    exact List.append_nil _
  | node :: rest, stack, after, grown => by
    rw [ofSequence?] at grown
    obtain ⟨middle, atNode, atRest⟩ := Option.bind_eq_some_iff.mp grown
    rw [← forest_ofSequence? rest middle after atRest, ← forest_ofNode? node stack middle atNode,
      List.append_assoc, List.singleton_append]

theorem nodesEach_ofArguments? : ∀ (arguments : List (List Node)) (trees : List Tree),
    ofArguments? arguments = some trees → nodesEach trees = arguments
  | [], trees, made => by
    rw [ofArguments?] at made
    cases made
    rw [nodesEach]
  | argument :: rest, trees, made => by
    rw [ofArguments?] at made
    split at made
    · rename_i tree atArgument
      obtain ⟨others, atRest, rfl⟩ := Option.map_eq_some_iff.mp made
      have same := forest_ofSequence? argument [] [tree] atArgument
      rw [nodesEach, nodesEach_ofArguments? rest others atRest]
      simpa [forest] using same.symm
    · cases made

end

/-- The tree of a sequence is the only one with this postfix form. -/
theorem ofNodes?_eq_some_iff {sequence : List Node} {tree : Tree} :
    ofNodes? sequence = some tree ↔ tree.nodes = sequence := by
  constructor
  · intro made
    unfold ofNodes? at made
    split at made <;> cases made
    rename_i grown
    have same := forest_ofSequence? sequence [] [tree] grown
    simpa [forest] using same.symm
  · rintro rfl
    rw [ofNodes?, ofSequence?_nodes]

theorem nodes_injective : Function.Injective nodes := by
  intro tree other same
  exact Option.some.inj
    ((ofNodes?_eq_some_iff.mpr same).symm.trans (ofNodes?_eq_some_iff.mpr rfl))

mutual

/-- Where a node runs on values, it makes as many trees of as many trees. -/
theorem ofNode?_of_runNode {context : Context} : ∀ (node : Node) (stack after : List Single)
    (trees : List Tree), (context.runNode node stack).result = .ok after →
    trees.length = stack.length → ∃ grown, ofNode? node trees = some grown ∧
      grown.length = after.length
  | .number value, stack, after, trees, ran, same => by
    rw [Context.runNode] at ran
    cases ran
    exact ⟨_, by rw [ofNode?], congrArg (· + 1) same⟩
  | .variable name, stack, after, trees, ran, same => by
    obtain ⟨value, _, rfl⟩ := Context.runNode_variable_eq_ok_iff.mp ran
    exact ⟨_, by rw [ofNode?], congrArg (· + 1) same⟩
  | .operator op, stack, after, trees, ran, same => by
    obtain ⟨left, right, below, rfl, rfl⟩ := Context.runNode_operator_eq_ok_iff.mp ran
    match trees, same with
    | second :: first :: others, same =>
      refine ⟨.operation op first second :: others, by rw [ofNode?], ?_⟩
      simpa only [List.length_cons, Nat.add_right_cancel_iff] using same
  | .call name arguments, stack, after, trees, ran, same => by
    obtain ⟨given, value, evaluated, _, rfl⟩ := Context.runNode_call_eq_ok_iff.mp ran
    obtain ⟨made, atArguments⟩ := ofArguments?_of_evaluateArguments arguments given evaluated
    exact ⟨.call name made :: trees, by rw [ofNode?, atArguments]; rfl, congrArg (· + 1) same⟩
  | .marker kind, stack, after, trees, ran, _ => by
    rw [Context.runNode] at ran
    cases ran

theorem ofSequence?_of_runSequence {context : Context} : ∀ (sequence : List Node)
    (stack after : List Single) (trees : List Tree),
    (context.runSequence sequence stack).result = .ok after → trees.length = stack.length →
    ∃ grown, ofSequence? sequence trees = some grown ∧ grown.length = after.length
  | [], stack, after, trees, ran, same => by
    rw [Context.runSequence] at ran
    cases ran
    exact ⟨trees, by rw [ofSequence?], same⟩
  | node :: rest, stack, after, trees, ran, same => by
    obtain ⟨middle, atNode, atRest⟩ := Context.runSequence_cons_eq_ok_iff.mp ran
    obtain ⟨grown, atTrees, length⟩ := ofNode?_of_runNode node stack middle trees atNode same
    obtain ⟨last, behind, lengthLast⟩ :=
      ofSequence?_of_runSequence rest middle after grown atRest length
    exact ⟨last, by rw [ofSequence?, atTrees, Option.bind_some, behind], lengthLast⟩

theorem ofArguments?_of_evaluateArguments {context : Context} : ∀ (arguments : List (List Node))
    (given : List Single), (context.evaluateArguments arguments).result = .ok given →
    ∃ trees, ofArguments? arguments = some trees
  | [], _, _ => ⟨[], by rw [ofArguments?]⟩
  | argument :: rest, given, evaluated => by
    obtain ⟨value, others, atArgument, atRest, rfl⟩ :=
      Context.evaluateArguments_cons_eq_ok_iff.mp evaluated
    obtain ⟨grown, made, length⟩ := ofSequence?_of_runSequence argument [] [value] []
      (Context.evaluate_eq_ok_iff.mp atArgument) rfl
    obtain ⟨tree, rfl⟩ := List.length_eq_one_iff.mp length
    obtain ⟨trees, behind⟩ := ofArguments?_of_evaluateArguments rest others atRest
    exact ⟨tree :: trees, by rw [ofArguments?, made, behind]; rfl⟩

end

/-- A sequence with a value is the postfix form of a tree. -/
theorem exists_nodes_eq {context : Context} {sequence : List Node} {value : Single}
    (evaluated : (context.evaluate sequence).result = .ok value) :
    ∃ tree : Tree, tree.nodes = sequence := by
  obtain ⟨grown, made, length⟩ := ofSequence?_of_runSequence sequence [] [value] []
    (Context.evaluate_eq_ok_iff.mp evaluated) rfl
  obtain ⟨tree, rfl⟩ := List.length_eq_one_iff.mp length
  exact ⟨tree, ofNodes?_eq_some_iff.mp (by rw [ofNodes?, made])⟩

mutual

/-- The value of a tree by its structure. A call of a built-in function drops surplus arguments
once they have values, and has no value if arguments are missing, whichever functions are
supplied. Other calls take the first function supplied under their name. -/
inductive HasValue (context : Context) : Tree → Single → Prop
  | number (value : Single) : HasValue context (.number value) value
  | variable {name : String} {value : Single} :
      IsFirst Prod.fst name context.bindings.entries (name, .number value) →
      HasValue context (.variable name) value
  | operation {left right : Tree} {first second : Single} (op : Operator) :
      HasValue context left first → HasValue context right second →
      HasValue context (.operation op left right) (op.apply first second)
  | builtin {name : String} {arguments : List Tree} {given : List Single}
      {f : Definition Single} :
      HasValues context arguments given → IsFirst Definition.name name Builtin.definitions f →
      f.minArguments ≤ given.length →
      HasValue context (.call name arguments) (f.implementation (f.relevant given))
  | supplied {name : String} {arguments : List Tree} {given : List Single} {value : Single}
      {f : SuppliedFunction} :
      HasValues context arguments given → (∀ g ∈ Builtin.definitions, g.name ≠ name) →
      IsFirst SuppliedFunction.name name context.functions f →
      f.result (f.body (given.map Binary.toDouble) context.bindings) = .ok value →
      HasValue context (.call name arguments) value

/-- The values of trees, one for each. -/
inductive HasValues (context : Context) : List Tree → List Single → Prop
  | nil : HasValues context [] []
  | cons {tree : Tree} {rest : List Tree} {value : Single} {others : List Single} :
      HasValue context tree value → HasValues context rest others →
      HasValues context (tree :: rest) (value :: others)

end

theorem hasValue_call_iff {context : Context} {name : String} {arguments : List Tree}
    {value : Single} : HasValue context (.call name arguments) value ↔ ∃ given,
      HasValues context arguments given ∧ (context.call name given).result = .ok value := by
  constructor
  · intro has
    cases has with
    | builtin values first enough =>
      refine ⟨_, values, ?_⟩
      rw [Context.call_builtin (find?_eq_some_iff_isFirst.mpr first), Definition.call,
        if_neg (Nat.not_lt.mpr enough)]
      rfl
    | supplied values none first returned =>
      refine ⟨_, values, ?_⟩
      rw [Context.call_supplied (find?_eq_none_iff_ne.mpr none)
        (find?_eq_some_iff_isFirst.mpr first)]
      exact returned
  · rintro ⟨given, values, called⟩
    cases builtin : Builtin.registry.find? name with
    | some f =>
      rw [Context.call_builtin builtin, Definition.call] at called
      split at called
      · cases called
      · rename_i enough
        cases called
        exact .builtin values (find?_eq_some_iff_isFirst.mp builtin) (Nat.not_lt.mp enough)
    | none =>
      cases found : findFunction? context.functions name with
      | some f =>
        rw [Context.call_supplied builtin found] at called
        exact .supplied values (find?_eq_none_iff_ne.mp builtin)
          (find?_eq_some_iff_isFirst.mp found) called
      | none =>
        rw [Context.call_unknown builtin found] at called
        cases called

mutual

theorem value_eq_ok_iff {context : Context} : ∀ (tree : Tree) (result : Single),
    (tree.value context).result = .ok result ↔ HasValue context tree result
  | .number value, result => by
    rw [Tree.value]
    constructor
    · rintro ⟨⟩
      exact .number value
    · rintro ⟨⟩
      rfl
  | .variable name, result => by
    rw [Tree.value, Traced.result_ofExcept_ok_iff, Bindings.number_eq_ok_iff]
    constructor
    · exact .variable
    · intro has
      cases has with
      | «variable» first => exact first
  | .operation op left right, result => by
    rw [Tree.value, Traced.result_bind, bind_eq_ok_iff]
    constructor
    · rintro ⟨first, atLeft, rest⟩
      rw [Traced.result_bind, bind_eq_ok_iff] at rest
      obtain ⟨second, atRight, same⟩ := rest
      cases same
      exact .operation op ((value_eq_ok_iff left first).mp atLeft)
        ((value_eq_ok_iff right second).mp atRight)
    · intro has
      cases has with
      | operation _ atLeft atRight =>
        refine ⟨_, (value_eq_ok_iff left _).mpr atLeft, ?_⟩
        rw [Traced.result_bind, (value_eq_ok_iff right _).mpr atRight]
        rfl
  | .call name arguments, result => by
    rw [Tree.value, Traced.result_bind, bind_eq_ok_iff, hasValue_call_iff]
    simp only [values_eq_ok_iff arguments]

theorem values_eq_ok_iff {context : Context} : ∀ (trees : List Tree) (results : List Single),
    (values context trees).result = .ok results ↔ HasValues context trees results
  | [], results => by
    rw [values]
    constructor
    · rintro ⟨⟩
      exact .nil
    · rintro ⟨⟩
      rfl
  | tree :: rest, results => by
    rw [values, Traced.result_bind, bind_eq_ok_iff]
    constructor
    · rintro ⟨first, atTree, behind⟩
      rw [Traced.result_bind, bind_eq_ok_iff] at behind
      obtain ⟨others, atRest, same⟩ := behind
      cases same
      exact .cons ((value_eq_ok_iff tree first).mp atTree) ((values_eq_ok_iff rest others).mp atRest)
    · intro has
      cases has with
      | cons atTree atRest =>
        refine ⟨_, (value_eq_ok_iff tree _).mpr atTree, ?_⟩
        rw [Traced.result_bind, (values_eq_ok_iff rest _).mpr atRest]
        rfl

end

end Tree

/-- A sequence of any nodes has a value exactly if it is the postfix form of a tree with this
value. There is only one such tree. -/
theorem evaluate_eq_ok_iff_tree (context : Context) (sequence : List Node) :
    (∀ value, (context.evaluate sequence).result = .ok value ↔
        ∃ tree : Tree, tree.nodes = sequence ∧ tree.HasValue context value) ∧
      ∀ tree other : Tree, tree.nodes = sequence → other.nodes = sequence → tree = other := by
  refine ⟨fun value => ?_, fun tree other same again => Tree.nodes_injective (same.trans again.symm)⟩
  constructor
  · intro evaluated
    obtain ⟨tree, rfl⟩ := Tree.exists_nodes_eq evaluated
    rw [Tree.evaluate_nodes] at evaluated
    exact ⟨tree, rfl, (tree.value_eq_ok_iff value).mp evaluated⟩
  · rintro ⟨tree, rfl, has⟩
    rw [Tree.evaluate_nodes]
    exact (tree.value_eq_ok_iff value).mpr has

/-- A function that returns seven, whatever it is given. -/
def seven (name : String) : SuppliedFunction where
  name := name
  body := fun _ _ => .ok (.float (.ofNat 7))

/-- A supplied function does not step in for a built-in function of its name that is given too
few arguments. -/
theorem seven_not_called :
    (Tree.call "sqrt" []).nodes = [.call "sqrt" []] ∧
      (∃ f, IsFirst Definition.name "sqrt" Builtin.definitions f ∧ ¬ f.minArguments ≤ 0) ∧
      IsFirst SuppliedFunction.name "sqrt" [seven "sqrt"] (seven "sqrt") ∧
      (seven "sqrt").result ((seven "sqrt").body [] {}) = .ok (Binary.ofNat 7) ∧
      (Context.evaluate ⟨{}, [seven "sqrt"]⟩ [.call "sqrt" []]).result =
        .error (.evaluation (.fewArguments "sqrt" 1 0)) := by
  have needed : (Builtin.registry.find? "sqrt").map Definition.minArguments = some 1 := rfl
  have exact : (Binary.ofNat 7 : Double).toSingle = Binary.ofNat 7 := by decide +kernel
  obtain ⟨f, found, one⟩ := Option.map_eq_some_iff.mp needed
  have tooFew : ¬ f.minArguments ≤ 0 := by
    rw [one]
    decide
  exact ⟨rfl, ⟨f, find?_eq_some_iff_isFirst.mp found, tooFew⟩, ⟨[], [], rfl, rfl, nofun⟩,
    congrArg _ exact, rfl⟩

end Placement
