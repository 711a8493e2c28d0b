import Placement.Proofs.Formula.Failing
import Placement.Proofs.Layout.Isolation

namespace Placement

theorem Attempt.exists_of_isValue {tried : Attempt} (isValue : tried.isValue = true) :
    ∃ x, tried = .value x := by
  cases tried with
  | value x => exact ⟨x, rfl⟩
  | blank | failed _ => cases isValue

theorem Attempt.toDouble_of_not_isValue {tried : Attempt} (noValue : ¬ tried.isValue = true) :
    tried.toDouble = .nan := by
  cases tried with
  | value x => exact absurd rfl noValue
  | blank | failed _ => rfl

namespace Batch

theorem reference_variable_iff {node : Node} {name : String} :
    node.reference? = some (.variable name) ↔ node = .variable name := by
  cases node <;> simp [Node.reference?]

theorem Alone.findFunction?_standIns {source name : String} (alone : Alone source)
    (mentioned : .function name ∈ references source.toList) :
    findFunction? Spacing.standIns name = none := by
  rcases Spacing.findFunction?_cases (Stage.start []) name with ⟨_, none⟩ | ⟨f, _, supplied, _⟩
  · exact none
  · rw [alone.findFunction?_eq_none mentioned] at supplied
    cases supplied

/-- What a formula that calls no function of the batch gives on test values is its value by
itself. -/
theorem Alone.evaluateText_trial {source : String} (alone : Alone source) {targets : List Target}
    {limits : Limits} {x : Double}
    (tried : (evaluateText (some source) (testVariables targets) Spacing.standIns limits).result =
      .ok x) :
    (evaluateText (some source) (ownVariables (.zero false) 0) [] limits).result = .ok x := by
  obtain ⟨index, whole, inTrial, _⟩ := exists_ofPairs_trial
  have isPlace : (Given.datum (.int (0 : Nat))).bind? = some (.number index) :=
    congrArg (Option.map Bound.number) whole
  have byItself : Bindings.ofPairs (ownVariables (.zero false) 0) =
      .ok (bindingsOf testValue index []) := by
    rw [ownVariables, Bindings.ofPairs_cons rfl, Bindings.ofPairs_cons isPlace]
    rfl
  obtain ⟨nodes, bindings, value, parsed, bound, atNodes, rfl⟩ := evaluateText_eq_ok_iff.mp tried
  obtain rfl := Except.ok.inj ((inTrial targets).symm.trans bound)
  have blind : Context.Blind
      ⟨bindingsOf testValue index (testObjects targets),
        Spacing.standIns⟩
      ⟨bindingsOf testValue index [], []⟩ := by
    refine Or.inr fun f member => ?_
    rcases List.mem_cons.mp member with rfl | member
    · exact fun _ _ _ => rfl
    · rw [List.mem_singleton.mp member]
      exact fun _ _ _ => rfl
  have matched : Context.Matches
      ⟨bindingsOf testValue index (testObjects targets),
        Spacing.standIns⟩
      ⟨bindingsOf testValue index [], []⟩
      ((Node.operandsAll nodes).filterMap Node.reference?) := by
    refine ⟨fun name mentioned => ?_, fun name mentioned _ => ?_⟩
    · obtain ⟨node, among, named⟩ := List.mem_filterMap.mp mentioned
      obtain rfl := reference_variable_iff.mp named
      have isNumber := Context.number_of_operandsAll nodes
        (Context.evaluate_eq_ok_iff.mp atNodes) among
      rcases (number_bindingsOf_iff _ _ _ name).mp isNumber with rfl | rfl
      · rfl
      · rfl
    · exact alone.findFunction?_standIns ((references_of_parse parsed).mem_iff.mpr mentioned)
  rw [Context.evaluate_local blind matched] at atNodes
  exact evaluateText_eq_ok_iff.mpr ⟨nodes, _, value, parsed, byItself, atNodes, rfl⟩

theorem lookup_preview (expressions : Expressions) (shown : String × String → Double) (part : Part)
    (axis : Axis) :
    (expressions.fields.map fun field => (field.1, shown field)).lookup (fieldName part axis) =
      some (shown (fieldName part axis, (expressions.get part).get axis)) := by
  cases part <;> cases axis <;> rfl

/-- A batch of one target is that target with the points that its three parts are computed as,
where these do not depend on what was moved before. -/
theorem apply_single {expressions : Expressions} {limits : Limits} {target : Target}
    {point : Part → Point} (passed : failingFields expressions [target] limits = .ok [])
    (computed : ∀ stage part, evaluatePart expressions limits stage 0 target part =
      .ok (point part)) :
    apply expressions [target] limits = .ok [{ target with
      position := point .position, rotation := point .rotation, scale := point .scale }] := by
  have sorted : inSiblingOrder [target] = [target] := List.mergeSort_singleton _
  have moved := moveTarget_eq_ok_iff.mpr ⟨_, _, _,
    computed (Stage.start [target]) .position, computed _ .rotation, computed _ .scale, rfl⟩
  rw [apply, passed]
  simp only [sorted, moveFrom, moved]
  rfl

/-- A preview is shown unless validation ends with an error from outside. It shows not-a-number for
a field whose formula fails on test values. Where no formula fails, and none calls a function of
the batch, it shows for every field what a batch of one target computes for it, if position,
rotation and scale of this target are zero. -/
theorem preview_agrees (expressions : Expressions) (targets : List Target) (limits : Limits) :
    (∀ error, failingFields expressions targets limits = .error error →
      preview expressions targets limits = .error error) ∧
    ∀ reported, failingFields expressions targets limits = .ok reported →
      ∃ previewed, preview expressions targets limits = .ok previewed ∧
        (∀ name ∈ reported, previewed.lookup name = some .nan) ∧
        (reported = [] → (∀ part axis, Alone ((expressions.get part).get axis)) →
          ∀ target : Target, target.position = Point.zero → target.rotation = Point.zero →
            target.scale = Point.zero →
            ∃ result, apply expressions [target] limits = .ok [result] ∧
              ∀ part axis, previewed.lookup (fieldName part axis) =
                some ((result.get part).get axis)) := by
  constructor
  · intro error failed
    rw [failingFields, map_eq_error_iff] at failed
    rw [preview, map_eq_error_iff, failed]
  · intro reported validated
    obtain ⟨writable, rfl⟩ := failingFields_eq_ok_iff.mp validated
    obtain ⟨tried, settles, became⟩ := exists_settled writable
    refine ⟨expressions.fields.map fun field => (field.1, (tried field).toDouble), ?_, ?_, ?_⟩
    · rw [preview, settles, Except.map, List.map_map]
      rfl
    · intro name listed
      obtain ⟨part, axis, rfl, invalid⟩ := mem_invalidFields_iff.mp listed
      rw [lookup_preview]
      have noValue := (not_congr (became _ (mem_fields_iff.mpr ⟨part, axis, rfl⟩)).2).mpr invalid
      exact congrArg some (Attempt.toDouble_of_not_isValue noValue)
    · intro none alone target position rotation scale
      have valid := invalidFields_eq_nil_iff.mp none
      have zero (part : Part) (axis : Axis) : (target.get part).get axis = .zero false := by
        cases part <;> simp only [Target.get, position, rotation, scale] <;> cases axis <;> rfl
      have computed (stage : Stage) (part : Part) : evaluatePart expressions limits stage 0 target
          part = .ok (.ofFn fun axis =>
            (tried (fieldName part axis, (expressions.get part).get axis)).toDouble) := by
        refine evaluatePart_eq_ok_iff.mpr fun axis => ?_
        obtain ⟨attempted, isValue⟩ := became _ (mem_fields_iff.mpr ⟨part, axis, rfl⟩)
        obtain ⟨x, same⟩ := Attempt.exists_of_isValue (isValue.mpr (valid part axis))
        rw [same] at attempted
        rw [fieldValue, (alone part axis).evaluateText_eq, zero, PerAxis.get_ofFn, same]
        exact (alone part axis).evaluateText_trial (attempt_eq_value_iff.mp attempted)
      refine ⟨_, apply_single (failingFields_eq_nil_iff.mpr valid) computed, fun part axis => ?_⟩
      rw [lookup_preview]
      cases part <;> cases axis <;> rfl

/-- A call of a built-in function, previewed and computed, and a formula without an operand. -/
theorem preview_of_max :
    let expressions : Expressions := { position := ⟨"max(this, index)", "this", "this"⟩ }
    let box : Target := { name := "box", scale := Point.zero }
    (∃ result previewed, apply expressions [box] {} = .ok [result] ∧
        preview expressions [] {} = .ok previewed ∧
        previewed.lookup "Position.X" = some result.position.x) ∧
      ∃ previewed, preview { rotation := ⟨"this", "this", "1 +"⟩ } [] {} = .ok previewed ∧
        previewed.lookup "Rotation.Z" = some .nan := by
  intro expressions box
  have call : parse {} "max(this, index)".toList =
      .ok [.call "max" [[.variable "this"], [.variable "index"]]] := by decide +kernel
  have plain : parse {} "this".toList = .ok [.variable "this"] := by decide +kernel
  have callAlone : Alone "max(this, index)" := by
    intro name mentioned
    have among := (references_of_parse call).mem_iff.mp mentioned
    obtain rfl : name = "max" := by
      simpa [Node.operandsAll, Node.operandsEach, Node.operands, Node.reference?] using among
    decide
  have plainAlone : Alone "this" := by
    intro name mentioned
    have among := (references_of_parse plain).mem_iff.mp mentioned
    simp [Node.operandsAll, Node.operands, Node.reference?] at among
  have alone (part : Part) (axis : Axis) : Alone ((expressions.get part).get axis) := by
    cases part <;> cases axis <;> first | exact callAlone | exact plainAlone
  constructor
  · obtain ⟨previewed, same, _, agrees⟩ :=
      (preview_agrees expressions [] {}).2 [] (by decide +kernel)
    obtain ⟨result, applied, shown⟩ := agrees rfl alone box rfl rfl rfl
    exact ⟨result, previewed, applied, same, shown .position .x⟩
  · obtain ⟨previewed, same, notANumber, _⟩ :=
      (preview_agrees { rotation := ⟨"this", "this", "1 +"⟩ } [] {}).2 ["Rotation.Z"]
        (by decide +kernel)
    exact ⟨previewed, same, notANumber _ (by decide)⟩

end Batch

end Placement
