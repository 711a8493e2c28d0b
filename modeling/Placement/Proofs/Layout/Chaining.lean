import Placement.Proofs.Formula.Arguments
import Placement.Proofs.Layout.Isolation
import Placement.Proofs.Layout.SiblingOrder

namespace Placement

/-- A formula that names nothing but the index and functions of the registry. -/
def OfIndex (source : String) : Prop :=
  ∀ name ∈ references source.toList, name = .variable "index" ∨
    ∃ word f, name = .function word ∧ Builtin.registry.find? word = some f

namespace Batch

/-- A formula that places its target behind the one before, with a gap that another formula
says. -/
def Chains (source gap : String) : Prop :=
  ∃ nodes, parse {} gap.toList = .ok nodes ∧
    parse {} source.toList = .ok [.call "space_between" [nodes, [.variable "index"]]]

/-- The gap before the target at an index. -/
def gapAt (gap : String) (index : Nat) : Except Failure Double :=
  (evaluateText (some gap) [("index", .datum (.int index))] [] {}).result

/-- The positions on an axis follow from one another: the first target is at half its size, and
every other one is behind the target before it. -/
structure Chained (axis : Axis) (gap : String) (ordered placed : List Target) : Prop where
  length : placed.length = ordered.length
  first : ∀ target result, ordered[0]? = some target → placed[0]? = some result →
    result.position.get axis = (target.size.get axis * .half).toSingle.toDouble
  behind : ∀ (i : Nat) (before target previous result : Target), ordered[i]? = some before →
    ordered[i + 1]? = some target → placed[i]? = some previous → placed[i + 1]? = some result →
    ∃ s, gapAt gap (i + 1) = .ok s ∧ result.position.get axis =
      (previous.position.get axis + before.size.get axis + target.size.get axis +
        s).toSingle.toDouble

/-- A call is read where its arguments are read one level further in. -/
theorem parse_call {name : String} {arguments : List Char} {found : List (List Node)}
    (word : (Token.identifier name).Valid) (written : arguments.all isBlank = false)
    (read : sequences {} (usualLevels - 1) 1 arguments = .ok found) :
    parse {} (Token.call name arguments).lexeme = .ok [.call name found] := by
  rw [parse_lexeme_call (valid_call_of_sequences word read), callNode, if_neg (by simp [written]),
    read]
  rfl

/-- The index can be added to a single argument. -/
theorem sequences_append_index {limits : Limits} {levels depth : Nat} {text : List Char}
    {nodes : List Node} (read : sequences limits levels depth text = .ok [nodes]) :
    sequences limits levels depth (text ++ ", index".toList) =
      .ok [nodes, [.variable "index"]] := by
  have index : (Token.identifier "index").Valid :=
    ⟨'i', ['n', 'd', 'e', 'x'], rfl, rfl, by simp [isNameChar]⟩
  have atIndex : Lexes " index".toList [.identifier "index"] :=
    .space rfl (@Lexes.token (.identifier "index") [] [] index (.of_headNot .nil) .nil)
  obtain ⟨tokens, parts, lexes, parted, same⟩ := Limits.sequences_eq_ok_iff.mp read
  obtain ⟨items, rfl, rfl⟩ := List.map_eq_singleton_iff.mp same.symm
  cases parted with
  | more _ rest => cases rest
  | last grouped =>
    have second : Grouped (limits.reader levels depth).operand? [.identifier "index"]
        [.operand (.variable "index")] := .operand rfl .nil
    exact Limits.sequences_eq_ok_iff.mpr ⟨_, _, lexes.append (.cons rfl _) atIndex.comma,
      .more grouped (.last second), rfl⟩

/-- The plainest text that chains with a gap. -/
theorem chains_of_text {gap : String} {nodes : List Node} (read : parse {} gap.toList = .ok nodes)
    (nested : Node.depthSequence nodes < usualLevels) :
    Chains ("space_between(" ++ gap ++ ", index)") gap := by
  have word : (Token.identifier "space_between").Valid :=
    ⟨'s', "pace_between".toList, rfl, rfl, by simp [isNameChar]⟩
  obtain ⟨written, atTop⟩ := Limits.parse_eq_ok_iff.mp read
  have inside : sequences {} (usualLevels - 1) 1 gap.toList = .ok [nodes] := by
    refine Limits.sequences_transfer atTop ?_ (Limits.unlimited_allows _ _)
    rw [Node.depthArguments_singleton]
    exact Nat.le_of_lt_succ nested
  have whole := parse_call word (by rw [List.all_append, written, Bool.false_and])
    (sequences_append_index inside)
  have text : ("space_between(" ++ gap ++ ", index)").toList =
      (Token.call "space_between" (gap.toList ++ ", index".toList)).lexeme := by
    simp [Token.lexeme]
  exact ⟨nodes, read, text ▸ whole⟩

variable {expressions : Expressions} {targets placed : List Target} {limits : Limits}
  {index : Nat} {target : Target} {axis : Axis} {stage : Stage} {gap : String}

theorem ofPairs_index {n : Nat} {number : Single} (whole : singleOfInt? n = some number) :
    Bindings.ofPairs [("index", .datum (.int n))] = .ok ⟨[("index", .number number)]⟩ := by
  have bound : (Given.datum (.int n)).bind? = some (.number number) :=
    congrArg (Option.map Bound.number) whole
  rw [Bindings.ofPairs_cons bound]
  rfl

/-- In a batch, a formula of the index has the value that it has by itself. -/
theorem evaluate_ofIndex {nodes : List Node} (ofIndex : OfIndex gap)
    (read : parse {} gap.toList = .ok nodes) (stage : Stage) (this number : Single) (axis : Axis) :
    (field stage this number axis).evaluate nodes =
      Context.evaluate ⟨⟨[("index", .number number)]⟩, []⟩ nodes := by
  have names {name : Reference}
      (among : name ∈ (Node.operandsAll nodes).filterMap Node.reference?) :
      name = .variable "index" ∨
        ∃ word f, name = .function word ∧ Builtin.registry.find? word = some f :=
    ofIndex name ((references_of_parse read).mem_iff.mpr among)
  have withoutFunctions : (field stage this number axis).evaluate nodes =
      Context.evaluate ⟨bindingsOf this number (fieldObjects axis), []⟩ nodes := by
    have blind : (field stage this number axis).Blind
        ⟨bindingsOf this number (fieldObjects axis), []⟩ := Or.inl rfl
    refine Context.evaluate_local blind ⟨fun _ _ => rfl, fun name among noBuiltin => ?_⟩
    rcases names among with same | ⟨word, f, same, found⟩
    · cases same
    · cases same
      rw [noBuiltin] at found
      cases found
  rw [withoutFunctions]
  have blind : Context.Blind ⟨bindingsOf this number (fieldObjects axis), []⟩
      ⟨⟨[("index", .number number)]⟩, []⟩ := Or.inr (List.forall_mem_nil _)
  refine Context.evaluate_local blind ⟨fun name among => ?_, fun _ _ _ => rfl⟩
  rcases names among with same | ⟨word, f, same, _⟩
  · cases same
    rfl
  · cases same

/-- A position that chains is computed by one call, from the gap at the index of the target and
from the index itself. -/
theorem Moment.spaced_of_chains
    (moment : Moment expressions targets limits index target .position axis stage)
    (chains : Chains (expressions.position.get axis) gap) (ofIndex : OfIndex gap)
    (few : targets.length ≤ 2 ^ 24) {x : Double}
    (value : fieldValue expressions limits stage index target .position axis = .ok x) :
    ∃ s k result : Single, gapAt gap index = .ok s.toDouble ∧
      k.toDouble.toInt? = some (index : Int) ∧ result.toDouble = x ∧
      Spaced expressions limits (inSiblingOrder targets) index .position axis s k result := by
  obtain ⟨within, _⟩ := List.getElem?_eq_some_iff.mp moment.atIndex
  rw [length_inSiblingOrder] at within
  obtain ⟨k, single, whole⟩ := singleOfInt?_of_small (within.trans_le few)
  obtain ⟨nodes, readGap, read⟩ := chains
  obtain ⟨found, bindings, result, parsed, bound, evaluated, same⟩ :=
    evaluateText_eq_ok_iff.mp value
  obtain rfl := Limits.parse_unique read parsed
  have again := ofPairs_fieldVariables single ((target.get .position).get axis) axis
  obtain rfl := Except.ok.inj (again.symm.trans bound)
  rw [Context.evaluate_eq_ok_iff, Context.runSequence_singleton,
    Context.runNode_call_eq_ok_iff] at evaluated
  obtain ⟨given, _, arguments, called, pushed⟩ := evaluated
  cases pushed
  obtain ⟨s, others, atGap, rest, rfl⟩ := Context.evaluateArguments_cons_eq_ok_iff.mp arguments
  obtain ⟨number, none, atIndex, done, rfl⟩ := Context.evaluateArguments_cons_eq_ok_iff.mp rest
  rw [Context.evaluateArguments] at done
  cases done
  have isIndex := Context.evaluate_variable atIndex
  rw [number_index] at isIndex
  obtain rfl := Except.ok.inj isIndex
  refine ⟨s, k, result, ?_, whole, same, (moment.sees.call_iff moment.atIndex bound []).mp called⟩
  change ((field stage _ k axis).evaluate nodes).result = .ok s at atGap
  rw [evaluate_ofIndex ofIndex readGap] at atGap
  exact evaluateText_eq_ok_iff.mpr ⟨nodes, _, s, readGap, ofPairs_index single, atGap, rfl⟩

theorem chained_of_apply (applied : apply expressions targets limits = .ok placed)
    (chains : Chains (expressions.position.get axis) gap) (ofIndex : OfIndex gap)
    (few : targets.length ≤ 2 ^ 24) : Chained axis gap (inSiblingOrder targets) placed := by
  have spaced {i : Nat} {target result : Target} (atIndex : (inSiblingOrder targets)[i]? = some target)
      (atPlaced : placed[i]? = some result) : ∃ s k x : Single, gapAt gap i = .ok s.toDouble ∧
        k.toDouble.toInt? = some (i : Int) ∧ x.toDouble = result.position.get axis ∧
        Spaced expressions limits (inSiblingOrder targets) i .position axis s k x := by
    obtain ⟨stage, other, moment, again, value⟩ :=
      exists_moment_of_apply applied atIndex .position axis
    cases atPlaced.symm.trans again
    exact moment.spaced_of_chains chains ofIndex few value
  refine ⟨(forall_moved_of_apply applied).length_eq.symm, fun target result atFirst atPlaced => ?_,
    fun i before target previous result atBefore atTarget atPrevious atPlaced => ?_⟩
  · obtain ⟨s, k, x, _, whole, same, atGap⟩ := spaced atFirst atPlaced
    rw [← same]
    cases atGap with
    | first _ again =>
      cases atFirst.symm.trans again
      rfl
    | behind later _ _ _ =>
      have := Option.some.inj (whole.symm.trans later)
      omega
  · obtain ⟨s, k, x, gap, whole, same, atGap⟩ := spaced atTarget atPlaced
    refine ⟨s.toDouble, gap, ?_⟩
    rw [← same]
    cases atGap with
    | first zero _ =>
      have := Option.some.inj (whole.symm.trans zero)
      omega
    | @behind m _ _ position again atM atNext seen =>
      obtain rfl : m = i := by
        have := Option.some.inj (whole.symm.trans again)
        omega
      cases atBefore.symm.trans atM
      cases atTarget.symm.trans atNext
      -- The target before is at its result, which is where the call sees it.
      obtain ⟨within, _⟩ := List.getElem?_eq_some_iff.mp atBefore
      obtain ⟨other, isResult, atOther⟩ := isResult_of_apply applied within
      cases atPrevious.symm.trans atOther
      rw [SeenPosition, if_pos (Or.inl (Nat.lt_succ_self m))] at seen
      rw [seen.unique isResult.newPosition]

theorem Chained.exists_ordered {ordered : List Target} (chained : Chained axis gap ordered placed)
    {i : Nat} {result : Target} (atPlaced : placed[i]? = some result) {j : Nat} (le : j ≤ i) :
    (∃ target, ordered[j]? = some target) ∧ ∃ result, placed[j]? = some result := by
  obtain ⟨within, _⟩ := List.getElem?_eq_some_iff.mp atPlaced
  have inPlaced := le.trans_lt within
  exact ⟨⟨_, List.getElem?_eq_getElem (chained.length ▸ inPlaced)⟩, _,
    List.getElem?_eq_getElem inPlaced⟩

/-- Chains with the same gaps agree as far as their sizes do. -/
theorem Chained.congr {ordered others moved : List Target}
    (chained : Chained axis gap ordered placed) (again : Chained axis gap others moved) {i : Nat}
    (sizes : ∀ j ≤ i, ∀ target other : Target, ordered[j]? = some target →
      others[j]? = some other → target.size.get axis = other.size.get axis)
    {result other : Target} (atPlaced : placed[i]? = some result)
    (atMoved : moved[i]? = some other) : result.position.get axis = other.position.get axis := by
  induction i generalizing result other with
  | zero =>
    obtain ⟨⟨target, atFirst⟩, _⟩ := chained.exists_ordered atPlaced (Nat.le_refl 0)
    obtain ⟨⟨second, atOther⟩, _⟩ := again.exists_ordered atMoved (Nat.le_refl 0)
    rw [chained.first _ _ atFirst atPlaced, again.first _ _ atOther atMoved,
      sizes 0 (Nat.le_refl 0) _ _ atFirst atOther]
  | succ i ih =>
    obtain ⟨⟨before, atBefore⟩, previous, atPrevious⟩ :=
      chained.exists_ordered atPlaced (Nat.le_succ i)
    obtain ⟨⟨target, atTarget⟩, _⟩ := chained.exists_ordered atPlaced (Nat.le_refl (i + 1))
    obtain ⟨⟨beforeOther, atBeforeOther⟩, previousOther, atPreviousOther⟩ :=
      again.exists_ordered atMoved (Nat.le_succ i)
    obtain ⟨⟨targetOther, atTargetOther⟩, _⟩ := again.exists_ordered atMoved (Nat.le_refl (i + 1))
    obtain ⟨s, atGap, same⟩ := chained.behind i _ _ _ _ atBefore atTarget atPrevious atPlaced
    obtain ⟨t, atGapOther, sameOther⟩ :=
      again.behind i _ _ _ _ atBeforeOther atTargetOther atPreviousOther atMoved
    cases atGap.symm.trans atGapOther
    rw [same, sameOther,
      ih (fun j le => sizes j (Nat.le_succ_of_le le)) atPrevious atPreviousOther,
      sizes i (Nat.le_succ i) _ _ atBefore atBeforeOther,
      sizes (i + 1) (Nat.le_refl _) _ _ atTarget atTargetOther]

/-- A batch whose positions on an axis are given by `space_between` for the index of each target
is a chain on this axis. Of all that is given, a position in it depends on the gaps and on the
sizes up to its own target only: two batches that are laid out with the same gaps have the same
positions as far as their sizes on the axis agree in sibling order. -/
theorem positions_of_chains (applied : apply expressions targets limits = .ok placed)
    (chains : Chains (expressions.position.get axis) gap) (ofIndex : OfIndex gap)
    (few : targets.length ≤ 2 ^ 24) :
    Chained axis gap (inSiblingOrder targets) placed ∧
      ∀ (others : Expressions) (batch moved : List Target) (bounds : Limits),
        apply others batch bounds = .ok moved → Chains (others.position.get axis) gap →
        batch.length ≤ 2 ^ 24 → ∀ i : Nat,
          (∀ j ≤ i, ∀ target other : Target, (inSiblingOrder targets)[j]? = some target →
            (inSiblingOrder batch)[j]? = some other →
            target.size.get axis = other.size.get axis) →
          ∀ result other : Target, placed[i]? = some result → moved[i]? = some other →
            result.position.get axis = other.position.get axis := by
  have chained := chained_of_apply applied chains ofIndex few
  refine ⟨chained, fun others batch moved bounds again chainsAgain fewAgain i sizes result other
    atPlaced atMoved => ?_⟩
  exact chained.congr (chained_of_apply again chainsAgain ofIndex fewAgain) sizes atPlaced atMoved

/-- Two targets behind each other, and the same with another last one and other rotations. -/
theorem chain_of_two :
    let left : Target := { name := "left", size := Point.one }
    let right : Target := { name := "right", size := Point.one, position := Point.one }
    let wide : Target := { name := "wide", size := .const (.ofNat 2), scale := .const .half }
    let gap := "sqrt(index)"
    let expressions : Expressions :=
      { position := ⟨"space_between(" ++ gap ++ ", index)", "this", "this"⟩ }
    let others : Expressions := { expressions with rotation := ⟨"index", "center(1, index)", "PI"⟩ }
    ∃ placed moved result other, apply expressions [left, right] {} = .ok placed ∧
      apply others [left, wide] {} = .ok moved ∧
      Chained .x gap [left, right] placed ∧ placed[0]? = some result ∧ moved[0]? = some other ∧
      result.position.x = other.position.x := by
  intro left right wide gap expressions others
  have sorted : inSiblingOrder [left, right] = [left, right] :=
    List.mergeSort_of_pairwise (by decide)
  have sortedOther : inSiblingOrder [left, wide] = [left, wide] :=
    List.mergeSort_of_pairwise (by decide)
  obtain ⟨placed, applied⟩ : ∃ placed, apply expressions [left, right] {} = .ok placed :=
    exists_apply_of_moves sorted (by decide +kernel) (by decide +kernel)
  obtain ⟨moved, again⟩ : ∃ moved, apply others [left, wide] {} = .ok moved :=
    exists_apply_of_moves sortedOther (by decide +kernel) (by decide +kernel)
  have parsed : parse {} gap.toList = .ok [.call "sqrt" [[.variable "index"]]] := by decide +kernel
  have chains : Chains (expressions.position.get .x) gap := chains_of_text parsed (by decide)
  have ofIndex : OfIndex gap := by
    intro name mentioned
    have among := (references_of_parse parsed).mem_iff.mp mentioned
    have either : name = .variable "index" ∨ name = .function "sqrt" := by
      simpa [Node.operandsAll, Node.operandsEach, Node.operands, Node.reference?, or_comm,
        eq_comm] using among
    rcases either with rfl | rfl
    · exact Or.inl rfl
    · exact Or.inr ⟨"sqrt", _, rfl, rfl⟩
  obtain ⟨chained, same⟩ :=
    @positions_of_chains expressions [left, right] placed {} .x gap applied chains ofIndex
      (by decide)
  rw [sorted] at chained same
  obtain ⟨result, _, atPlaced⟩ :=
    @isResult_of_apply expressions [left, right] {} placed applied 0 (by rw [sorted]; decide)
  obtain ⟨other, _, atMoved⟩ :=
    @isResult_of_apply others [left, wide] {} moved again 0 (by rw [sortedOther]; decide)
  refine ⟨placed, moved, result, other, applied, again, chained, atPlaced, atMoved,
    same others [left, wide] moved {} again chains (by decide) 0 ?_ result other atPlaced atMoved⟩
  rw [sortedOther]
  intro j first before after atBefore atAfter
  obtain rfl := Nat.le_zero.mp first
  cases atBefore
  cases atAfter
  rfl

end Batch

end Placement
