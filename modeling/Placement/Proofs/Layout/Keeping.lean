import Placement.Proofs.Binary.Overflow
import Placement.Proofs.Formula.NumberText
import Placement.Proofs.Layout.SiblingOrder

namespace Placement

/-- The binary64 value of the nearest binary32 value. -/
def Binary.narrowed (x : Double) : Double := x.toSingle.toDouble

/-- A value that binary32 holds. -/
def Binary.IsSingle (x : Double) : Prop := ∃ s : Single, x = s.toDouble

namespace Binary

theorem isSingle_narrowed (x : Double) : x.narrowed.IsSingle := ⟨x.toSingle, rfl⟩

theorem IsSingle.narrowed_eq {x : Double} (isSingle : x.IsSingle) : x.narrowed = x := by
  obtain ⟨s, rfl⟩ := isSingle
  rw [narrowed, toSingle_toDouble]

end Binary

theorem PerAxis.eq_of_get {α : Type} {v w : PerAxis α} (same : ∀ axis, v.get axis = w.get axis) :
    v = w := by
  obtain ⟨x, y, z⟩ := v
  obtain ⟨otherX, otherY, otherZ⟩ := w
  cases same .x
  cases same .y
  cases same .z
  rfl

namespace Target

/-- The target with its position, its rotation and its scale rounded to binary32. -/
def narrowed (t : Target) : Target :=
  { t with
    position := t.position.map Binary.narrowed
    rotation := t.rotation.map Binary.narrowed
    scale := t.scale.map Binary.narrowed }

/-- Binary32 holds the position, the rotation and the scale of the target. -/
def IsSingle (t : Target) : Prop := ∀ part axis, ((t.get part).get axis).IsSingle

theorem get_narrowed (t : Target) (part : Part) (axis : Axis) :
    (t.narrowed.get part).get axis = ((t.get part).get axis).narrowed := by
  cases part <;> exact PerAxis.get_map _ _ axis

theorem isSingle_narrowed (t : Target) : t.narrowed.IsSingle := by
  intro part axis
  rw [get_narrowed]
  exact Binary.isSingle_narrowed _

/-- Targets that differ in what formulas compute only, and not there either. -/
theorem eq_of_moved {target result other : Target} (moved : Batch.Moved target result)
    (again : Batch.Moved target other)
    (same : ∀ part axis, (result.get part).get axis = (other.get part).get axis) :
    result = other := by
  obtain ⟨position, rotation, scale, rfl⟩ := moved
  obtain ⟨otherPosition, otherRotation, otherScale, rfl⟩ := again
  have atPosition : position = otherPosition := PerAxis.eq_of_get (same .position)
  have atRotation : rotation = otherRotation := PerAxis.eq_of_get (same .rotation)
  have atScale : scale = otherScale := PerAxis.eq_of_get (same .scale)
  rw [atPosition, atRotation, atScale]

theorem moved_narrowed (t : Target) : Batch.Moved t t.narrowed := ⟨_, _, _, rfl⟩

theorem IsSingle.narrowed_eq {t : Target} (isSingle : t.IsSingle) : t.narrowed = t := by
  refine eq_of_moved t.moved_narrowed ⟨_, _, _, rfl⟩ fun part axis => ?_
  rw [get_narrowed, (isSingle part axis).narrowed_eq]

end Target

theorem singleOfInt?_natCast_iff {n : Nat} :
    (∃ place, singleOfInt? n = some place) ↔ n < 2 ^ 1024 - 2 ^ 970 := by
  rw [← Option.ne_none_iff_exists', Ne, singleOfInt?_eq_none_iff, Int.natAbs_natCast, Nat.not_le]

theorem parse_this (limits : Limits) : parse limits "this".toList = .ok [.variable "this"] := by
  have name : (Token.identifier "this").Valid :=
    ⟨'t', ['h', 'i', 's'], rfl, rfl, by simp [isNameChar]⟩
  have lexes := lexes_name name HeadNot.nil .nil
  rw [List.append_nil] at lexes
  exact parse_of_grouped lexes (List.cons_ne_nil _ _) (.operand rfl .nil)

namespace Batch

variable {targets placed : List Target} {limits : Limits} {stage : Stage} {index : Nat}
  {target : Target} {part : Part} {axis : Axis}

theorem get_default (part : Part) (axis : Axis) :
    (({} : Expressions).get part).get axis = "this" := by
  cases part <;> cases axis <;> rfl

theorem failingFields_default (targets : List Target) (limits : Limits) :
    failingFields {} targets limits = .ok [] := by
  refine failingFields_eq_nil_iff.mpr fun part axis => ?_
  rw [get_default]
  exact ⟨_, .nan, .nan, [], _, parse_this limits, rfl⟩

/-- A field without a formula of its own has its value in binary32, as long as the place of the
target in the batch is a number. -/
theorem fieldValue_default_eq_ok_iff {x : Double} :
    fieldValue {} limits stage index target part axis = .ok x ↔
      index < 2 ^ 1024 - 2 ^ 970 ∧ x = ((target.get part).get axis).narrowed := by
  rw [fieldValue, get_default, ← singleOfInt?_natCast_iff]
  cases whole : singleOfInt? index with
  | none =>
    have unbound := ofPairs_fieldVariables_none whole ((target.get part).get axis) axis
    rw [evaluateText_eq_ok_iff]
    simp [unbound]
  | some place =>
    rw [evaluateText_eq_ofTraced (parse_this limits) (ofPairs_fieldVariables whole _ axis)]
    constructor
    · intro same
      cases same
      exact ⟨⟨place, rfl⟩, rfl⟩
    · rintro ⟨_, rfl⟩
      rfl

/-- What is laid out without formulas is rounded. -/
theorem eq_of_apply_default (applied : apply {} targets limits = .ok placed) :
    placed = (inSiblingOrder targets).map Target.narrowed := by
  obtain ⟨length, each⟩ := List.forall₂_iff_get.mp (forall_moved_of_apply applied)
  refine List.ext_getElem (by rw [List.length_map, length]) fun index inPlaced inOrder => ?_
  rw [List.length_map] at inOrder
  rw [List.getElem_map]
  refine Target.eq_of_moved (each index inOrder inPlaced) (Target.moved_narrowed _) ?_
  intro part axis
  obtain ⟨_, result, _, atPlaced, value⟩ :=
    exists_moment_of_apply applied (List.getElem?_eq_getElem inOrder) part axis
  obtain ⟨_, rfl⟩ := List.getElem?_eq_some_iff.mp atPlaced
  rw [Target.get_narrowed]
  exact (fieldValue_default_eq_ok_iff.mp value).2

/-- A batch is laid out without formulas as long as the places of its targets are numbers. -/
theorem exists_apply_default_iff :
    (∃ placed, apply {} targets limits = .ok placed) ↔
      targets.length ≤ 2 ^ 1024 - 2 ^ 970 := by
  constructor
  · rintro ⟨placed, applied⟩
    by_contra many
    have inOrder : 2 ^ 1024 - 2 ^ 970 < (inSiblingOrder targets).length := by
      rw [length_inSiblingOrder]
      exact Nat.not_le.mp many
    obtain ⟨_, _, _, _, value⟩ :=
      exists_moment_of_apply applied (List.getElem?_eq_getElem inOrder) .position .x
    exact Nat.lt_irrefl _ (fieldValue_default_eq_ok_iff.mp value).1
  · intro few
    cases applied : apply {} targets limits with
    | ok placed => exact ⟨placed, rfl⟩
    | error error =>
      obtain ⟨index, target, part, axis, stage, failure, moment, failed, _⟩ :=
        (apply_eq_error_iff_moment (failingFields_default targets limits)).mp applied
      obtain ⟨within, _⟩ := List.getElem?_eq_some_iff.mp moment.atIndex
      rw [length_inSiblingOrder] at within
      rw [fieldValue_default_eq_ok_iff.mpr ⟨within.trans_le few, rfl⟩] at failed
      cases failed

theorem apply_default_eq_ok_iff : apply {} targets limits = .ok placed ↔
    targets.length ≤ 2 ^ 1024 - 2 ^ 970 ∧
      placed = (inSiblingOrder targets).map Target.narrowed := by
  constructor
  · intro applied
    exact ⟨exists_apply_default_iff.mp ⟨placed, applied⟩, eq_of_apply_default applied⟩
  · rintro ⟨few, rfl⟩
    obtain ⟨other, applied⟩ := (@exists_apply_default_iff targets limits).mpr few
    rw [applied, eq_of_apply_default applied]

/-- What is in order and held by binary32 stays as it is. -/
theorem apply_default_of_single (few : targets.length ≤ 2 ^ 1024 - 2 ^ 970)
    (rising : targets.Pairwise fun first second => first.siblingIndex ≤ second.siblingIndex)
    (single : ∀ target ∈ targets, target.IsSingle) : apply {} targets limits = .ok targets := by
  have sorted : inSiblingOrder targets = targets :=
    List.mergeSort_of_pairwise (rising.imp decide_eq_true)
  refine apply_default_eq_ok_iff.mpr ⟨few, ?_⟩
  have kept : targets.map Target.narrowed = targets.map fun target => target :=
    List.map_congr_left fun target member => (single target member).narrowed_eq
  rw [sorted, kept, List.map_id']

/-- Without formulas, a batch is laid out as its stable order by sibling index, in which every
position, rotation and scale is rounded to binary32 and all else is as it was. This fails only
where the place of a target is beyond all numbers, which it is in no list in memory. The result
is laid out as itself, and so is every batch that is in order and held by binary32. -/
theorem apply_default_projects (targets : List Target) (limits : Limits) :
    (∃ sorted, StablySorted Target.siblingIndex targets sorted ∧
        ∀ placed, apply {} targets limits = .ok placed ↔
          targets.length ≤ 2 ^ 1024 - 2 ^ 970 ∧ placed = sorted.map Target.narrowed) ∧
      (∀ placed, apply {} targets limits = .ok placed → apply {} placed limits = .ok placed) ∧
      ((targets.Pairwise fun first second => first.siblingIndex ≤ second.siblingIndex) →
        (∀ target ∈ targets, target.IsSingle) →
        (apply {} targets limits = .ok targets ↔ targets.length ≤ 2 ^ 1024 - 2 ^ 970)) := by
  have isSorted := stablySorted_inSiblingOrder targets
  refine ⟨⟨_, isSorted, fun placed => apply_default_eq_ok_iff⟩, fun placed applied => ?_,
    fun rising single => ⟨fun applied => (apply_default_eq_ok_iff.mp applied).1,
      fun few => apply_default_of_single few rising single⟩⟩
  obtain ⟨few, rfl⟩ := apply_default_eq_ok_iff.mp applied
  refine apply_default_of_single ?_ ?_ ?_
  · rwa [List.length_map, length_inSiblingOrder]
  · exact List.pairwise_map.mpr isSorted.rising
  · exact List.forall_mem_map.mpr fun target _ => target.isSingle_narrowed

/-- A batch in order, with an infinity, a negative zero and not-a-number. -/
theorem specials_kept :
    let left : Target := { name := "left", position := ⟨.infinity true, .zero true, .nan⟩ }
    let right : Target := { name := "right", scale := .const .half, siblingIndex := 1 }
    apply {} [left, right] {} = .ok [left, right] ∧
      ∃ placed, apply {} [right, left] {} = .ok placed ∧ apply {} placed {} = .ok placed := by
  intro left right
  have single : ∀ target ∈ [left, right], target.IsSingle := by
    have isSingle {x : Double} (same : x.narrowed = x) : x.IsSingle := ⟨x.toSingle, same.symm⟩
    simp only [List.forall_mem_cons]
    refine ⟨fun part axis => isSingle ?_, fun part axis => isSingle ?_, List.forall_mem_nil _⟩
    · cases part <;> cases axis <;> decide +kernel
    · cases part <;> cases axis <;> decide +kernel
  have few : [left, right].length ≤ 2 ^ 1024 - 2 ^ 970 := by decide +kernel
  obtain ⟨_, _, kept⟩ := apply_default_projects [left, right] {}
  obtain ⟨⟨_, _, laidOut⟩, again, _⟩ := apply_default_projects [right, left] {}
  have applied := (laidOut _).mpr ⟨few, rfl⟩
  exact ⟨(kept (by decide) single).mpr few, _, applied, again _ applied⟩

end Batch

end Placement
