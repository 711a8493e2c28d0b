import Placement.Proofs.Formula.Locality
import Placement.Proofs.Layout.Moments

namespace Placement

/-- The variables that a formula can name begin with a letter. -/
theorem isWord_of_mem_references {text : List Char} {name : String}
    (mentioned : .variable name ∈ references text) :
    IsWord Char.isLower isNameChar name.toList := by
  obtain ⟨o, member, named⟩ := List.mem_filterMap.mp mentioned
  have valid := Keeps.first.valid member
  cases isToken : o.token with
  | identifier other =>
    rw [isToken] at named valid
    cases named
    exact valid
  | _ =>
    rw [isToken] at named
    cases named

/-- A formula that has a value under a limit has the same one without. -/
theorem evaluateText_unlimited {limits : Limits} {source : String} {given : List (String × Given)}
    {functions : List SuppliedFunction} {x : Double}
    (evaluated : (evaluateText (some source) given functions limits).result = .ok x) :
    (evaluateText (some source) given functions { limits with maxDepth := none }).result =
      .ok x := by
  obtain ⟨nodes, bindings, value, parsed, rest⟩ := evaluateText_eq_ok_iff.mp evaluated
  obtain ⟨unlimited, _⟩ := Limits.parse_eq_ok_iff_depth.mp parsed
  exact evaluateText_eq_ok_iff.mpr ⟨nodes, bindings, value, unlimited, rest⟩

namespace Batch

/-- A formula that calls no function of the batch, at any depth. -/
def Alone (source : String) : Prop :=
  ∀ name, .function name ∈ references source.toList → name ≠ "space_between" ∧ name ≠ "center"

/-- The variables of a formula by itself. -/
def ownVariables (this : Double) (index : Nat) : List (String × Given) :=
  [("this", .datum (.float this)), ("index", .datum (.int index))]

theorem fieldVariables_eq (this : Double) (index : Nat) (axis : Axis) :
    fieldVariables this index axis =
      ownVariables this index ++ [(Spacing.axisVariable, .datum (.text axis.name))] := rfl

/-- Only the functions of a batch ask for the axis. -/
theorem axisVariable_notMem_references (text : List Char) :
    .variable Spacing.axisVariable ∉ references text := by
  intro mentioned
  obtain ⟨first, rest, split, lower, _⟩ := isWord_of_mem_references mentioned
  cases split
  cases lower

theorem Alone.findFunction?_eq_none {source name : String} (alone : Alone source)
    (mentioned : .function name ∈ references source.toList) (stage : Stage) :
    findFunction? (Spacing.functions stage) name = none := by
  obtain ⟨noSpace, noCenter⟩ := alone name mentioned
  rcases Spacing.findFunction?_cases stage name with ⟨none, _⟩ | ⟨_, named, _⟩
  · exact none
  · rcases named with ⟨isSpace, _⟩ | ⟨isCenter, _⟩
    · exact absurd isSpace noSpace
    · exact absurd isCenter noCenter

/-- Without the functions of the batch, the axis is not asked for either. -/
theorem Alone.evaluateText_eq {source : String} (alone : Alone source) (stage : Stage)
    (this : Double) (index : Nat) (axis : Axis) (limits : Limits) :
    evaluateText (some source) (fieldVariables this index axis) (Spacing.functions stage)
        limits =
      evaluateText (some source) (ownVariables this index) [] limits := by
  have withoutFunctions :
      evaluateText (some source) (fieldVariables this index axis)
          (Spacing.functions stage) limits =
        evaluateText (some source) (fieldVariables this index axis) [] limits := by
    cases bound : Bindings.ofPairs (fieldVariables this index axis) with
    | error cause => exact evaluateText_unbound bound bound _ _ _ _
    | ok bindings =>
      exact evaluateText_of_matches bound bound (Or.inl rfl)
        ⟨fun _ _ => rfl, fun name mentioned _ => alone.findFunction?_eq_none mentioned stage⟩
  have unnamed : .variable Spacing.axisVariable ∉ references ((some source).getD "").toList :=
    axisVariable_notMem_references source.toList
  rw [withoutFunctions, fieldVariables_eq,
    evaluateText_insert_binding rfl (Or.inr unnamed) (List.forall_mem_nil _), List.append_nil]

/-- Where a formula calls no function of the batch, the field of a target that it computes is its
value for the field as it was and the place of the target, as it is by itself: whatever the other
formulas, the other targets and the other fields of the target are, and whatever was computed
before. -/
theorem field_of_alone {expressions : Expressions} {targets placed : List Target} {limits : Limits}
    (applied : apply expressions targets limits = .ok placed) {index : Nat} {target : Target}
    (atIndex : (inSiblingOrder targets)[index]? = some target) {part : Part} {axis : Axis}
    (alone : Alone ((expressions.get part).get axis)) :
    ∃ result, placed[index]? = some result ∧
      (evaluateText (some ((expressions.get part).get axis))
        (ownVariables ((target.get part).get axis) index) []
        { limits with maxDepth := none }).result = .ok ((result.get part).get axis) := by
  obtain ⟨stage, result, _, atPlaced, value⟩ :=
    exists_moment_of_apply applied atIndex part axis
  rw [fieldValue, alone.evaluateText_eq] at value
  exact ⟨result, atPlaced, evaluateText_unlimited value⟩

/-- The second target of two, turned by a formula of its own while positions are chained. -/
theorem rotation_of_second_alone :
    let targets : List Target := [{ name := "left" }, { name := "right" }]
    let expressions : Expressions :=
      { position := ⟨"space_between(PI, index)", "center(this, index)", "this"⟩,
        rotation := ⟨"this", "max(this, index)", "this"⟩ }
    ∃ placed result, apply expressions targets {} = .ok placed ∧ placed[1]? = some result ∧
      (evaluateText (some "max(this, index)") (ownVariables (.zero false) 1) [] {}).result =
        .ok result.rotation.y := by
  intro targets expressions
  have sorted : inSiblingOrder targets = targets := List.mergeSort_of_pairwise (by decide)
  obtain ⟨placed, applied⟩ : ∃ placed, apply expressions targets {} = .ok placed :=
    exists_apply_of_moves sorted (by decide +kernel) (by decide +kernel)
  have second : (inSiblingOrder targets)[1]? = some { name := "right" } := by
    rw [sorted]
    rfl
  have parsed : parse {} "max(this, index)".toList =
      .ok [.call "max" [[.variable "this"], [.variable "index"]]] := by decide +kernel
  have alone : Alone "max(this, index)" := by
    intro name mentioned
    have among := (references_of_parse parsed).mem_iff.mp mentioned
    have isMax : name = "max" := by
      simpa [Node.operandsAll, Node.operandsEach, Node.operands, Node.reference?] using among
    subst isMax
    decide
  obtain ⟨result, atPlaced, value⟩ :=
    @field_of_alone expressions targets placed {} applied 1 _ second .rotation .y alone
  exact ⟨placed, result, applied, atPlaced, value⟩

end Batch

end Placement
