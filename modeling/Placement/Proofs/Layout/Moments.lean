import Placement.Proofs.Layout.PerAxis
import Placement.Proofs.Layout.Validation

/-!
What the functions of a batch see while a field is evaluated. A batch is cut at the moments at
which its formulas are evaluated, and the stage of each moment is described.
-/

namespace Placement

namespace Spacing

theorem targetIndex_eq_ok_iff {x : Double} {count : Nat} {index : Fin count} :
    targetIndex x count = .ok index ↔ x.toInt? = some ((index : Nat) : Int) := by
  unfold targetIndex
  cases x.toInt? with
  | none => simp
  | some whole =>
    obtain ⟨place, within⟩ := index
    simp only [Option.some.injEq]
    split
    · rename_i inRange
      rw [Except.ok.injEq, Fin.mk.injEq]
      omega
    · rename_i outside
      constructor
      · exact nofun
      · rintro rfl
        exact absurd (by omega) outside

/-- Where an index goes, by what stands in the list. -/
theorem chainPosition_eq_iff {current : List Target} {number gap x : Double} {axis : Axis} :
    (∃ index : Fin current.length, number.toInt? = some ((index : Nat) : Int) ∧
        chainPosition current index gap axis = x) ↔
      (number.toInt? = some 0 ∧ ∃ first, current[0]? = some first ∧
        first.size.get axis * .half = x) ∨
      ∃ m before target, number.toInt? = some ((m + 1 : Nat) : Int) ∧
        current[m]? = some before ∧ current[m + 1]? = some target ∧
        placeBehind before target gap axis = x := by
  constructor
  · rintro ⟨⟨place, within⟩, whole, rfl⟩
    cases place with
    | zero => exact Or.inl ⟨whole, _, List.getElem?_eq_getElem within, rfl⟩
    | succ m =>
      exact Or.inr ⟨m, _, _, whole, List.getElem?_eq_getElem (Nat.lt_of_succ_lt within),
        List.getElem?_eq_getElem within, rfl⟩
  · rintro (⟨whole, first, atFirst, rfl⟩ | ⟨m, before, target, whole, atBefore, atTarget, rfl⟩)
    · obtain ⟨within, rfl⟩ := List.getElem?_eq_some_iff.mp atFirst
      exact ⟨⟨0, within⟩, whole, rfl⟩
    · obtain ⟨_, rfl⟩ := List.getElem?_eq_some_iff.mp atBefore
      obtain ⟨within, rfl⟩ := List.getElem?_eq_some_iff.mp atTarget
      exact ⟨⟨m + 1, within⟩, whole, rfl⟩

/-- A gap and an index of the batch give a position, and other arguments give none. -/
theorem spaceBetween_eq_ok_iff {stage : Stage} {gap number x : Double} {surplus : List Double}
    {bindings : Bindings} {axis : Axis} (ready : Ready bindings axis)
    (notEmpty : stage.current ≠ []) :
    spaceBetween stage (gap :: number :: surplus) bindings = .ok x ↔
      ∃ index : Fin stage.current.length, number.toInt? = some ((index : Nat) : Int) ∧
        chainPosition stage.current index gap axis = x := by
  obtain ⟨this, read⟩ := ready.inputs gap (number :: surplus)
  have holds : stage.current.isEmpty = false := by
    rwa [Bool.eq_false_iff, Ne, List.isEmpty_iff]
  have run : spaceBetween stage (gap :: number :: surplus) bindings =
      targetIndex number stage.current.length >>= fun index =>
        .ok (chainPosition stage.current index gap axis) := by
    rw [spaceBetween, read]
    change (if stage.current.isEmpty = true then _ else _) = _
    rw [holds, axis_name]
    rfl
  rw [run, bind_eq_ok_iff]
  simp only [targetIndex_eq_ok_iff, Except.ok.injEq]

theorem call_asSupplied_eq_ok_iff {name : String}
    {f : List Double → Bindings → Except SpacingError Double} {given : List Single}
    {bindings : Bindings} {value : Single} :
    ((asSupplied name f).call given bindings).result = .ok value ↔
      ∃ x, f (given.map Binary.toDouble) bindings = .ok x ∧ x.toSingle = value := by
  unfold SuppliedFunction.call asSupplied
  dsimp only
  cases f (given.map Binary.toDouble) bindings with
  | ok x => simp [SuppliedFunction.result]
  | error error => cases error <;> simp [SuppliedFunction.result]

end Spacing

namespace Batch

/-- The stage at which the target at an index is next to be moved. -/
def stageAt (expressions : Expressions) (limits : Limits) (ordered : List Target) (index : Nat) :
    Except BatchError Stage :=
  moveFrom expressions limits 0 (ordered.take index) (Stage.start ordered)

/-- The value of the formula of a field. -/
def fieldValue (expressions : Expressions) (limits : Limits) (stage : Stage) (index : Nat)
    (target : Target) (part : Part) (axis : Axis) : Except Failure Double :=
  (evaluateText (some ((expressions.get part).get axis))
    (fieldVariables ((target.get part).get axis) index axis) (Spacing.functions stage) limits).result

/-- The stage at which a part of the target at an index is computed. -/
inductive PartStage (expressions : Expressions) (limits : Limits) (ordered : List Target)
    (index : Nat) (target : Target) : Part → Stage → Prop
  | position {stage : Stage} : stageAt expressions limits ordered index = .ok stage →
      PartStage expressions limits ordered index target .position stage
  | rotation {stage : Stage} {position : Point} :
      stageAt expressions limits ordered index = .ok stage →
      evaluatePart expressions limits stage index target .position = .ok position →
      PartStage expressions limits ordered index target .rotation
        (stage.update index { target with position })
  | scale {stage : Stage} {position rotation : Point} :
      stageAt expressions limits ordered index = .ok stage →
      evaluatePart expressions limits stage index target .position = .ok position →
      evaluatePart expressions limits (stage.update index { target with position }) index target
        .rotation = .ok rotation →
      PartStage expressions limits ordered index target .scale
        (stage.update index { target with position })

/-- In the run of a batch, the formula of a field of the target at an index is evaluated at a
stage. All that is computed before it has a value. -/
structure Moment (expressions : Expressions) (targets : List Target) (limits : Limits)
    (index : Nat) (target : Target) (part : Part) (axis : Axis) (stage : Stage) : Prop where
  passed : failingFields expressions targets limits = .ok []
  atIndex : (inSiblingOrder targets)[index]? = some target
  reached : PartStage expressions limits (inSiblingOrder targets) index target part stage
  earlier : ∀ other ∈ axis.before,
    ∃ x, fieldValue expressions limits stage index target part other = .ok x

/-- The position computed for the target at an index. -/
def NewPosition (expressions : Expressions) (limits : Limits) (ordered : List Target)
    (index : Nat) (position : Point) : Prop :=
  ∃ target stage, ordered[index]? = some target ∧
    stageAt expressions limits ordered index = .ok stage ∧
    evaluatePart expressions limits stage index target .position = .ok position

/-- The target at an index as its formulas leave it. -/
def IsResult (expressions : Expressions) (limits : Limits) (ordered : List Target)
    (index : Nat) (result : Target) : Prop :=
  ∃ target stage position rotation scale, ordered[index]? = some target ∧
    stageAt expressions limits ordered index = .ok stage ∧
    evaluatePart expressions limits stage index target .position = .ok position ∧
    evaluatePart expressions limits (stage.update index { target with position }) index target
      .rotation = .ok rotation ∧
    evaluatePart expressions limits (stage.update index { target with position }) index target
      .scale = .ok scale ∧
    result = { target with position, rotation, scale }

variable {expressions : Expressions} {targets ordered : List Target} {limits : Limits}
  {index : Nat} {target result : Target} {part : Part} {axis : Axis} {stage : Stage}

theorem NewPosition.unique {position other : Point}
    (isNew : NewPosition expressions limits ordered index position)
    (again : NewPosition expressions limits ordered index other) : position = other := by
  obtain ⟨target, stage, atIndex, reached, computed⟩ := isNew
  obtain ⟨_, _, sameTarget, sameStage, sameValue⟩ := again
  cases atIndex.symm.trans sameTarget
  cases reached.symm.trans sameStage
  exact Except.ok.inj (computed.symm.trans sameValue)

theorem IsResult.newPosition (isResult : IsResult expressions limits ordered index result) :
    NewPosition expressions limits ordered index result.position := by
  obtain ⟨target, stage, position, rotation, scale, atIndex, reached, computed, _, _, rfl⟩ := isResult
  exact ⟨target, stage, atIndex, reached, computed⟩

theorem IsResult.size (isResult : IsResult expressions limits ordered index result)
    (atIndex : ordered[index]? = some target) : result.size = target.size := by
  obtain ⟨_, _, _, _, _, same, _, _, _, _, rfl⟩ := isResult
  cases atIndex.symm.trans same
  rfl

theorem IsResult.unique {other : Target}
    (isResult : IsResult expressions limits ordered index result)
    (again : IsResult expressions limits ordered index other) : result = other := by
  obtain ⟨target, stage, position, rotation, scale, atIndex, reached, atPosition, atRotation,
    atScale, rfl⟩ := isResult
  obtain ⟨_, _, _, _, _, sameTarget, sameStage, samePosition, sameRotation, sameScale, rfl⟩ := again
  cases atIndex.symm.trans sameTarget
  cases reached.symm.trans sameStage
  cases atPosition.symm.trans samePosition
  cases atRotation.symm.trans sameRotation
  cases atScale.symm.trans sameScale
  rfl

theorem moveTarget_eq_ok_iff {after : Stage} :
    moveTarget expressions limits stage index target = .ok after ↔ ∃ position rotation scale,
      evaluatePart expressions limits stage index target .position = .ok position ∧
      evaluatePart expressions limits (stage.update index { target with position }) index target
        .rotation = .ok rotation ∧
      evaluatePart expressions limits (stage.update index { target with position }) index target
        .scale = .ok scale ∧
      after = stage.update index { target with position, rotation, scale } := by
  rw [moveTarget, bind_eq_ok_iff]
  constructor
  · rintro ⟨position, atPosition, rest⟩
    obtain ⟨rotation, atRotation, rest⟩ := bind_eq_ok_iff.mp rest
    obtain ⟨scale, atScale, same⟩ := bind_eq_ok_iff.mp rest
    cases same
    refine ⟨position, rotation, scale, atPosition, atRotation, atScale, ?_⟩
    simp only [Stage.update, List.set_set]
  · rintro ⟨position, rotation, scale, atPosition, atRotation, atScale, rfl⟩
    refine ⟨position, atPosition, bind_eq_ok_iff.mpr ⟨rotation, atRotation,
      bind_eq_ok_iff.mpr ⟨scale, atScale, ?_⟩⟩⟩
    simp only [Stage.update, List.set_set]
    rfl

theorem moveFrom_append (first rest : List Target) (index : Nat) (stage : Stage) :
    moveFrom expressions limits index (first ++ rest) stage =
      moveFrom expressions limits index first stage >>=
        moveFrom expressions limits (index + first.length) rest := by
  induction first generalizing index stage with
  | nil => rfl
  | cons target others ih =>
    rw [List.cons_append, moveFrom, moveFrom, List.length_cons]
    cases moveTarget expressions limits stage index target with
    | error error => rfl
    | ok after =>
      have behind := ih (index + 1) after
      rw [Nat.add_assoc, Nat.add_comm 1] at behind
      exact behind

/-- The next stage is reached by moving one target more. -/
theorem stageAt_succ (atIndex : ordered[index]? = some target) :
    stageAt expressions limits ordered (index + 1) =
      stageAt expressions limits ordered index >>= fun stage =>
        moveTarget expressions limits stage index target := by
  obtain ⟨within, _⟩ := List.getElem?_eq_some_iff.mp atIndex
  have length : (ordered.take index).length = index := List.length_take_of_le within.le
  rw [stageAt, List.take_add_one, atIndex, Option.toList_some, moveFrom_append, stageAt, length,
    Nat.zero_add]
  congr 1
  funext stage
  rw [moveFrom]
  cases moveTarget expressions limits stage index target <;> rfl

theorem apply_of_passed (passed : failingFields expressions targets limits = .ok []) :
    apply expressions targets limits =
      (stageAt expressions limits (inSiblingOrder targets) (inSiblingOrder targets).length).map
        Stage.current := by
  rw [apply, passed, stageAt, List.take_length]

/-- A batch that is given in order and passes is laid out if its targets can be moved. -/
theorem exists_apply_of_moves (sorted : inSiblingOrder targets = targets)
    (passed : failingFields expressions targets limits = .ok [])
    (moves : (moveFrom expressions limits 0 targets (Stage.start targets)).toOption.isSome = true) :
    ∃ placed, apply expressions targets limits = .ok placed := by
  cases moved : moveFrom expressions limits 0 targets (Stage.start targets) with
  | error error =>
    rw [moved] at moves
    cases moves
  | ok after =>
    refine ⟨after.current, ?_⟩
    rw [apply, passed]
    simp only [sorted, moved]
    rfl

/-- The targets before an index are at their results, the others as they were. -/
structure Progress (expressions : Expressions) (limits : Limits) (ordered : List Target)
    (index : Nat) (stage : Stage) : Prop where
  snapshot : stage.snapshot = ordered
  length : stage.current.length = ordered.length
  before : ∀ j < index, ∃ result, IsResult expressions limits ordered j result ∧
    stage.current[j]? = some result
  behind : ∀ j, index ≤ j → stage.current[j]? = ordered[j]?

theorem progress_of_stageAt (within : index ≤ ordered.length)
    (reached : stageAt expressions limits ordered index = .ok stage) :
    Progress expressions limits ordered index stage := by
  induction index generalizing stage with
  | zero =>
    cases reached
    exact ⟨rfl, rfl, nofun, fun _ _ => rfl⟩
  | succ index ih =>
    obtain ⟨target, atIndex⟩ : ∃ target, ordered[index]? = some target :=
      ⟨_, List.getElem?_eq_getElem within⟩
    rw [stageAt_succ atIndex, bind_eq_ok_iff] at reached
    obtain ⟨base, atBase, moved⟩ := reached
    obtain ⟨position, rotation, scale, atPosition, atRotation, atScale, rfl⟩ :=
      moveTarget_eq_ok_iff.mp moved
    have progress := ih (Nat.le_of_succ_le within) atBase
    refine ⟨progress.snapshot, ?_, fun j less => ?_, fun j more => ?_⟩
    · rw [Stage.update, List.length_set, progress.length]
    · rcases Nat.lt_succ_iff_lt_or_eq.mp less with earlier | rfl
      · obtain ⟨result, isResult, atPlace⟩ := progress.before j earlier
        refine ⟨result, isResult, ?_⟩
        rw [Stage.update, List.getElem?_set_ne (by omega), atPlace]
      · refine ⟨_, ⟨target, base, position, rotation, scale, atIndex, atBase, atPosition,
          atRotation, atScale, rfl⟩, ?_⟩
        rw [Stage.update, List.getElem?_set_self (by rw [progress.length]; exact within)]
    · rw [Stage.update, List.getElem?_set_ne (by omega), progress.behind j (by omega)]

theorem passed_of_apply {placed : List Target}
    (applied : apply expressions targets limits = .ok placed) :
    failingFields expressions targets limits = .ok [] := by
  cases fields : failingFields expressions targets limits with
  | error error =>
    rw [apply, fields] at applied
    cases applied
  | ok reported =>
    cases reported with
    | nil => rfl
    | cons field rest =>
      rw [apply, fields] at applied
      cases applied

/-- A batch that is laid out holds the results of its targets. -/
theorem isResult_of_apply {placed : List Target}
    (applied : apply expressions targets limits = .ok placed) {j : Nat}
    (within : j < (inSiblingOrder targets).length) :
    ∃ result, IsResult expressions limits (inSiblingOrder targets) j result ∧
      placed[j]? = some result := by
  rw [apply_of_passed (passed_of_apply applied), map_eq_ok_iff] at applied
  obtain ⟨stage, reached, rfl⟩ := applied
  exact (progress_of_stageAt (Nat.le_refl _) reached).before j within

/-- The functions of a batch see the targets before as the batch leaves them, the target itself
as it was until its position is computed, and the targets behind as they were. -/
structure Sees (expressions : Expressions) (targets : List Target) (limits : Limits)
    (index : Nat) (target : Target) (part : Part) (stage : Stage) : Prop where
  snapshot : stage.snapshot = inSiblingOrder targets
  before : ∀ j < index, ∃ result,
    IsResult expressions limits (inSiblingOrder targets) j result ∧
    stage.current[j]? = some result ∧
    ∀ placed, apply expressions targets limits = .ok placed → placed[j]? = some result
  untouched : part = .position → stage.current[index]? = some target
  moved : part ≠ .position → ∃ position,
    NewPosition expressions limits (inSiblingOrder targets) index position ∧
    stage.current[index]? = some { target with position }
  behind : ∀ j, index < j → stage.current[j]? = (inSiblingOrder targets)[j]?
  length : stage.current.length = targets.length

/-- The position of another target, or of the same one, as a field sees it. -/
def SeenPosition (expressions : Expressions) (limits : Limits) (ordered : List Target)
    (index : Nat) (part : Part) (other : Target) (place : Nat) (position : Point) : Prop :=
  if place < index ∨ place = index ∧ part ≠ .position then
    NewPosition expressions limits ordered place position
  else position = other.position

/-- What a gap and a number give as the arguments of `space_between` while a field is
evaluated. -/
inductive Spaced (expressions : Expressions) (limits : Limits) (ordered : List Target)
    (index : Nat) (part : Part) (axis : Axis) (gap number : Single) : Single → Prop
  | first {target : Target} : number.toDouble.toInt? = some 0 → ordered[0]? = some target →
      Spaced expressions limits ordered index part axis gap number
        (target.size.get axis * .half).toSingle
  | behind {m : Nat} {before target : Target} {position : Point} :
      number.toDouble.toInt? = some (m + 1 : Nat) → ordered[m]? = some before →
      ordered[m + 1]? = some target →
      SeenPosition expressions limits ordered index part before m position →
      Spaced expressions limits ordered index part axis gap number
        (position.get axis + before.size.get axis + target.size.get axis + gap.toDouble).toSingle

theorem PartStage.base (reached : PartStage expressions limits ordered index target part stage) :
    ∃ base, stageAt expressions limits ordered index = .ok base ∧
      (part = .position ∧ stage = base ∨ part ≠ .position ∧ ∃ position,
        evaluatePart expressions limits base index target .position = .ok position ∧
        stage = base.update index { target with position }) := by
  cases reached with
  | position atIndex => exact ⟨stage, atIndex, Or.inl ⟨rfl, rfl⟩⟩
  | rotation atIndex computed => exact ⟨_, atIndex, Or.inr ⟨nofun, _, computed, rfl⟩⟩
  | scale atIndex computed _ => exact ⟨_, atIndex, Or.inr ⟨nofun, _, computed, rfl⟩⟩

theorem Moment.sees (moment : Moment expressions targets limits index target part axis stage) :
    Sees expressions targets limits index target part stage := by
  obtain ⟨within, _⟩ := List.getElem?_eq_some_iff.mp moment.atIndex
  obtain ⟨base, atBase, stages⟩ := moment.reached.base
  have progress := progress_of_stageAt within.le atBase
  have count := length_inSiblingOrder targets
  have inBase : base.current[index]? = some target := by
    rw [progress.behind index (Nat.le_refl _), moment.atIndex]
  have elsewhere {j : Nat} (other : j ≠ index) : stage.current[j]? = base.current[j]? := by
    rcases stages with ⟨_, rfl⟩ | ⟨_, position, _, rfl⟩
    · rfl
    · rw [Stage.update, List.getElem?_set_ne (Ne.symm other)]
  refine ⟨?_, fun j less => ?_, fun atPosition => ?_, fun later => ?_, fun j more => ?_, ?_⟩
  · rcases stages with ⟨_, rfl⟩ | ⟨_, position, _, rfl⟩
    · exact progress.snapshot
    · exact progress.snapshot
  · obtain ⟨result, isResult, atPlace⟩ := progress.before j less
    refine ⟨result, isResult, by rw [elsewhere less.ne, atPlace], fun placed applied => ?_⟩
    obtain ⟨other, again, atPlaced⟩ := isResult_of_apply applied (less.trans within)
    rw [atPlaced, isResult.unique again]
  · rcases stages with ⟨_, rfl⟩ | ⟨later, _⟩
    · exact inBase
    · exact absurd atPosition later
  · rcases stages with ⟨atPosition, _⟩ | ⟨_, position, computed, rfl⟩
    · exact absurd atPosition later
    · refine ⟨position, ⟨target, base, moment.atIndex, atBase, computed⟩, ?_⟩
      rw [Stage.update, List.getElem?_set_self (by rw [progress.length]; exact within)]
  · rw [elsewhere more.ne', progress.behind j more.le]
  · rcases stages with ⟨_, rfl⟩ | ⟨_, position, _, rfl⟩
    · rw [progress.length, count]
    · rw [Stage.update, List.length_set, progress.length, count]

/-- The position and size of a target as they stand in the list that the functions see. -/
theorem Sees.at_place {j : Nat} {other : Target}
    (sees : Sees expressions targets limits index target part stage)
    (atIndex : (inSiblingOrder targets)[index]? = some target)
    (atPlace : (inSiblingOrder targets)[j]? = some other) :
    ∃ seen, stage.current[j]? = some seen ∧ seen.size = other.size ∧
      ∀ position, SeenPosition expressions limits (inSiblingOrder targets) index part other j
        position ↔ position = seen.position := by
  unfold SeenPosition
  rcases Nat.lt_trichotomy j index with less | rfl | more
  · obtain ⟨result, isResult, atStage, _⟩ := sees.before j less
    refine ⟨result, atStage, isResult.size atPlace, fun position => ?_⟩
    rw [if_pos (Or.inl less)]
    constructor
    · intro isNew
      exact isNew.unique isResult.newPosition
    · rintro rfl
      exact isResult.newPosition
  · cases atIndex.symm.trans atPlace
    by_cases atPosition : part = .position
    · refine ⟨target, sees.untouched atPosition, rfl, fun position => ?_⟩
      rw [if_neg (by simp [atPosition])]
    · obtain ⟨position, isNew, atStage⟩ := sees.moved atPosition
      refine ⟨_, atStage, rfl, fun other => ?_⟩
      rw [if_pos (Or.inr ⟨rfl, atPosition⟩)]
      constructor
      · intro again
        exact again.unique isNew
      · rintro rfl
        exact isNew
  · refine ⟨other, by rw [sees.behind j more, atPlace], rfl, fun position => ?_⟩
    rw [if_neg (by omega)]

/-- The functions see as many targets as there are. -/
theorem Sees.exists_of_current {j : Nat} {seen : Target}
    (sees : Sees expressions targets limits index target part stage)
    (atStage : stage.current[j]? = some seen) :
    ∃ other, (inSiblingOrder targets)[j]? = some other := by
  obtain ⟨within, _⟩ := List.getElem?_eq_some_iff.mp atStage
  have count := length_inSiblingOrder targets
  rw [sees.length, ← count] at within
  exact ⟨_, List.getElem?_eq_getElem within⟩

/-- What `space_between` gives while a field is evaluated. -/
theorem Sees.call_iff {this : Double} {bindings : Bindings} {gap number value : Single}
    (sees : Sees expressions targets limits index target part stage)
    (atIndex : (inSiblingOrder targets)[index]? = some target)
    (bound : Bindings.ofPairs (fieldVariables this index axis) = .ok bindings)
    (surplus : List Single) :
    ((Context.mk bindings (Spacing.functions stage)).call "space_between"
        (gap :: number :: surplus)).result = .ok value ↔
      Spaced expressions limits (inSiblingOrder targets) index part axis gap number value := by
  have isReady := ready_of_fieldVariables bound
  have notEmpty : stage.current ≠ [] := by
    intro empty
    obtain ⟨seen, atStage, _⟩ := sees.at_place atIndex atIndex
    rw [empty] at atStage
    cases atStage
  rw [Context.call_supplied (f := Spacing.asSupplied "space_between" (Spacing.spaceBetween stage))
    rfl rfl, Spacing.call_asSupplied_eq_ok_iff]
  simp only [List.map_cons, Spacing.spaceBetween_eq_ok_iff isReady notEmpty,
    Spacing.chainPosition_eq_iff]
  constructor
  · rintro ⟨x, ⟨whole, seen, atStage, rfl⟩ |
      ⟨m, seenBefore, seen, whole, atBefore, atStage, rfl⟩, rfl⟩
    · obtain ⟨first, inOrder⟩ := sees.exists_of_current atStage
      obtain ⟨_, again, size, _⟩ := sees.at_place atIndex inOrder
      cases atStage.symm.trans again
      rw [size]
      exact .first whole inOrder
    · obtain ⟨before, inOrderBefore⟩ := sees.exists_of_current atBefore
      obtain ⟨target, inOrder⟩ := sees.exists_of_current atStage
      obtain ⟨_, again, size, _⟩ := sees.at_place atIndex inOrder
      obtain ⟨_, againBefore, sizeBefore, position⟩ := sees.at_place atIndex inOrderBefore
      cases atStage.symm.trans again
      cases atBefore.symm.trans againBefore
      rw [Spacing.placeBehind, size, sizeBefore]
      exact .behind whole inOrderBefore inOrder ((position _).mpr rfl)
  · intro spaced
    cases spaced with
    | first whole inOrder =>
      obtain ⟨seen, atStage, size, _⟩ := sees.at_place atIndex inOrder
      exact ⟨_, Or.inl ⟨whole, seen, atStage, rfl⟩, by rw [size]⟩
    | behind whole inOrderBefore inOrder isSeen =>
      obtain ⟨seen, atStage, size, _⟩ := sees.at_place atIndex inOrder
      obtain ⟨seenBefore, atBefore, sizeBefore, position⟩ := sees.at_place atIndex inOrderBefore
      refine ⟨_, Or.inr ⟨_, seenBefore, seen, whole, atBefore, atStage, rfl⟩, ?_⟩
      rw [Spacing.placeBehind, size, sizeBefore, (position _).mp isSeen]

/-- Exactly the numbers whose whole part is an index of the batch give a position. -/
theorem Sees.exists_spaced_iff {gap number : Single}
    (sees : Sees expressions targets limits index target part stage)
    (atIndex : (inSiblingOrder targets)[index]? = some target) :
    (∃ value, Spaced expressions limits (inSiblingOrder targets) index part axis gap number value) ↔
      ∃ m : Nat, number.toDouble.toInt? = some (m : Int) ∧ m < targets.length := by
  have count := length_inSiblingOrder targets
  constructor
  · rintro ⟨value, spaced⟩
    cases spaced with
    | first whole inOrder =>
      obtain ⟨within, _⟩ := List.getElem?_eq_some_iff.mp inOrder
      exact ⟨0, whole, count ▸ within⟩
    | behind whole _ inOrder _ =>
      obtain ⟨within, _⟩ := List.getElem?_eq_some_iff.mp inOrder
      exact ⟨_, whole, count ▸ within⟩
  · rintro ⟨m, whole, within⟩
    rw [← count] at within
    cases m with
    | zero => exact ⟨_, .first whole (List.getElem?_eq_getElem within)⟩
    | succ m =>
      have inOrder := List.getElem?_eq_getElem (Nat.lt_of_succ_lt within)
      obtain ⟨seen, _, _, position⟩ := sees.at_place atIndex inOrder
      exact ⟨_, .behind whole inOrder (List.getElem?_eq_getElem within)
        ((position seen.position).mpr rfl)⟩

theorem evaluatePart_eq_ok_iff {point : Point} :
    evaluatePart expressions limits stage index target part = .ok point ↔
      ∀ axis, fieldValue expressions limits stage index target part axis = .ok (point.get axis) := by
  rw [evaluatePart_eq, PerAxis.ofFnM_eq_ok_iff]
  exact forall_congr' fun axis => mapError_eq_ok_iff

/-- A part fails with the first axis whose formula has no value. -/
theorem evaluatePart_eq_error_iff {error : BatchError} :
    evaluatePart expressions limits stage index target part = .error error ↔ ∃ axis failure,
      (∀ other ∈ axis.before,
        ∃ x, fieldValue expressions limits stage index target part other = .ok x) ∧
      fieldValue expressions limits stage index target part axis = .error failure ∧
      error = .field (fieldName part axis) target.name failure := by
  rw [evaluatePart_eq, PerAxis.ofFnM_eq_error_iff]
  refine exists_congr fun axis => ?_
  simp only [mapError_eq_ok_iff, mapError_eq_error_iff, exists_and_left]
  refine and_congr_right fun _ => exists_congr fun failure => and_congr_right fun _ => eq_comm

/-- A target fails to be moved with one of its parts, at the stage at which this is computed. -/
theorem moveTarget_eq_error_iff {error : BatchError}
    (atIndex : stageAt expressions limits ordered index = .ok stage) :
    moveTarget expressions limits stage index target = .error error ↔ ∃ part reached,
      PartStage expressions limits ordered index target part reached ∧
      evaluatePart expressions limits reached index target part = .error error := by
  rw [moveTarget, bind_eq_error_iff]
  constructor
  · rintro (failed | ⟨position, atPosition, rest⟩)
    · exact ⟨.position, stage, .position atIndex, failed⟩
    · rcases bind_eq_error_iff.mp rest with failed | ⟨rotation, atRotation, rest⟩
      · exact ⟨.rotation, _, .rotation atIndex atPosition, failed⟩
      · rcases bind_eq_error_iff.mp rest with failed | ⟨_, _, done⟩
        · exact ⟨.scale, _, .scale atIndex atPosition atRotation, failed⟩
        · cases done
  · rintro ⟨part, reached, isStage, failed⟩
    cases isStage with
    | position again =>
      cases atIndex.symm.trans again
      exact Or.inl failed
    | rotation again atPosition =>
      cases atIndex.symm.trans again
      exact Or.inr ⟨_, atPosition, bind_eq_error_iff.mpr (Or.inl failed)⟩
    | scale again atPosition atRotation =>
      cases atIndex.symm.trans again
      exact Or.inr ⟨_, atPosition, bind_eq_error_iff.mpr (Or.inr ⟨_, atRotation,
        bind_eq_error_iff.mpr (Or.inl failed)⟩)⟩

/-- A run stops at the first target that fails to be moved. -/
theorem stageAt_eq_error_iff {error : BatchError} {count : Nat} (within : count ≤ ordered.length) :
    stageAt expressions limits ordered count = .error error ↔ ∃ index target stage,
      index < count ∧ ordered[index]? = some target ∧
      stageAt expressions limits ordered index = .ok stage ∧
      moveTarget expressions limits stage index target = .error error := by
  induction count with
  | zero =>
    constructor
    · exact nofun
    · rintro ⟨_, _, _, impossible, _⟩
      exact absurd impossible (Nat.not_lt_zero _)
  | succ count ih =>
    obtain ⟨next, atCount⟩ : ∃ target, ordered[count]? = some target :=
      ⟨_, List.getElem?_eq_getElem within⟩
    rw [stageAt_succ atCount, bind_eq_error_iff, ih (Nat.le_of_succ_le within)]
    constructor
    · rintro (⟨index, target, stage, less, rest⟩ | ⟨stage, reached, failed⟩)
      · exact ⟨index, target, stage, Nat.lt_succ_of_lt less, rest⟩
      · exact ⟨count, next, stage, Nat.lt_succ_self count, atCount, reached, failed⟩
    · rintro ⟨index, target, stage, less, atIndex, reached, failed⟩
      rcases Nat.lt_succ_iff_lt_or_eq.mp less with earlier | rfl
      · exact Or.inl ⟨index, target, stage, earlier, atIndex, reached, failed⟩
      · cases atCount.symm.trans atIndex
        exact Or.inr ⟨stage, reached, failed⟩

/-- A batch whose formulas pass fails with a field exactly if this field fails at its moment. -/
theorem apply_eq_error_iff_moment (passed : failingFields expressions targets limits = .ok [])
    {error : BatchError} : apply expressions targets limits = .error error ↔
      ∃ index target part axis stage failure,
        Moment expressions targets limits index target part axis stage ∧
        fieldValue expressions limits stage index target part axis = .error failure ∧
        error = .field (fieldName part axis) target.name failure := by
  have stops : apply expressions targets limits = .error error ↔
      stageAt expressions limits (inSiblingOrder targets) (inSiblingOrder targets).length =
        .error error := by
    rw [apply_of_passed passed]
    cases stageAt expressions limits (inSiblingOrder targets) (inSiblingOrder targets).length <;>
      simp [Except.map]
  rw [stops, stageAt_eq_error_iff (Nat.le_refl _)]
  constructor
  · rintro ⟨index, target, stage, _, atIndex, reached, failed⟩
    obtain ⟨part, atPart, isStage, inPart⟩ := (moveTarget_eq_error_iff reached).mp failed
    obtain ⟨axis, failure, earlier, atField, rfl⟩ := evaluatePart_eq_error_iff.mp inPart
    exact ⟨index, target, part, axis, atPart, failure, ⟨passed, atIndex, isStage, earlier⟩, atField,
      rfl⟩
  · rintro ⟨index, target, part, axis, stage, failure, moment, atField, rfl⟩
    obtain ⟨base, reached, _⟩ := moment.reached.base
    obtain ⟨within, _⟩ := List.getElem?_eq_some_iff.mp moment.atIndex
    refine ⟨index, target, base, within, moment.atIndex, reached,
      (moveTarget_eq_error_iff reached).mpr ⟨part, stage, moment.reached, ?_⟩⟩
    exact evaluatePart_eq_error_iff.mpr ⟨axis, failure, moment.earlier, atField, rfl⟩

/-- A batch that is laid out evaluates every field of every target at its moment. -/
theorem exists_moment_of_apply {placed : List Target}
    (applied : apply expressions targets limits = .ok placed)
    (atIndex : (inSiblingOrder targets)[index]? = some target) (part : Part) (axis : Axis) :
    ∃ stage result, Moment expressions targets limits index target part axis stage ∧
      placed[index]? = some result ∧
      fieldValue expressions limits stage index target part axis =
        .ok ((result.get part).get axis) := by
  obtain ⟨within, _⟩ := List.getElem?_eq_some_iff.mp atIndex
  obtain ⟨result, ⟨_, base, position, rotation, scale, same, reached, atPosition, atRotation,
    atScale, rfl⟩, atPlaced⟩ := isResult_of_apply applied within
  cases atIndex.symm.trans same
  have passed := passed_of_apply applied
  have moment {stage : Stage} {point : Point}
      (isStage : PartStage expressions limits (inSiblingOrder targets) index target part stage)
      (computed : evaluatePart expressions limits stage index target part = .ok point) :
      Moment expressions targets limits index target part axis stage ∧
        fieldValue expressions limits stage index target part axis = .ok (point.get axis) :=
    ⟨⟨passed, atIndex, isStage, fun other _ => ⟨_, evaluatePart_eq_ok_iff.mp computed other⟩⟩,
      evaluatePart_eq_ok_iff.mp computed axis⟩
  cases part with
  | position =>
    obtain ⟨isMoment, value⟩ := moment (.position reached) atPosition
    exact ⟨_, _, isMoment, atPlaced, value⟩
  | rotation =>
    obtain ⟨isMoment, value⟩ := moment (.rotation reached atPosition) atRotation
    exact ⟨_, _, isMoment, atPlaced, value⟩
  | scale =>
    obtain ⟨isMoment, value⟩ := moment (.scale reached atPosition atRotation) atScale
    exact ⟨_, _, isMoment, atPlaced, value⟩

/-- Whenever a field of a target is evaluated, the functions of the batch see the targets before
it as they end up, the target with its new position once this is computed, and all else as it
was. A call of `space_between` gives a position behind the target so seen if the whole part of
its second argument is an index of the batch, and fails otherwise. -/
theorem moment_sees (moment : Moment expressions targets limits index target part axis stage) :
    Sees expressions targets limits index target part stage ∧
      ∀ gap number : Single,
        ((∃ value, Spaced expressions limits (inSiblingOrder targets) index part axis gap number
            value) ↔ ∃ m : Nat, number.toDouble.toInt? = some (m : Int) ∧ m < targets.length) ∧
        ∀ bindings, Bindings.ofPairs
            (fieldVariables ((target.get part).get axis) index axis) = .ok bindings →
          ∀ (surplus : List Single) (value : Single),
            ((Context.mk bindings (Spacing.functions stage)).call "space_between"
                (gap :: number :: surplus)).result = .ok value ↔
              Spaced expressions limits (inSiblingOrder targets) index part axis gap number
                value :=
  ⟨moment.sees, fun _ _ => ⟨moment.sees.exists_spaced_iff moment.atIndex,
    fun _ bound surplus _ => moment.sees.call_iff moment.atIndex bound surplus⟩⟩

/-- The second target of two, turned once the first one is placed. -/
theorem second_of_two_sees :
    let targets : List Target := [{ name := "left" }, { name := "right" }]
    let expressions : Expressions := { position := ⟨"space_between(this, index)", "this", "this"⟩ }
    ∃ stage, Moment expressions targets {} 1 { name := "right" } .rotation .y stage ∧
      Sees expressions targets {} 1 { name := "right" } .rotation stage := by
  intro targets expressions
  have sorted : inSiblingOrder targets = targets := List.mergeSort_of_pairwise (by decide)
  have passed : failingFields expressions targets {} = .ok [] := by decide +kernel
  obtain ⟨placed, applied⟩ := exists_apply_of_moves sorted passed (by decide +kernel)
  have second : (inSiblingOrder targets)[1]? = some { name := "right" } := by
    rw [sorted]
    rfl
  obtain ⟨stage, _, moment, _⟩ := exists_moment_of_apply applied second .rotation .y
  exact ⟨stage, moment, (moment_sees moment).1⟩

end Batch

end Placement
