import Placement.Proofs.Binary.Extreme
import Placement.Proofs.Formula.Depth
import Placement.Proofs.Formula.Writing
import Placement.Proofs.Layout.Moments

namespace Placement

/-- What a target takes up of an axis. -/
structure Span where
  position : Double
  size : Double
  scale : Double

namespace Span

def low (s : Span) : Double := s.position - s.size * s.scale / .ofNat 2

def high (s : Span) : Double := s.position + s.size * s.scale / .ofNat 2

end Span

def Target.span (t : Target) (axis : Axis) : Span :=
  ⟨t.position.get axis, t.size.get axis, t.scale.get axis⟩

/-- The shift that brings the middle of a batch to a pivot. The batch reaches from the low end of
the first lowest target to the high end of the first highest one. -/
def Shifts (pivot : Double) (spans : List Span) (shift : Double) : Prop :=
  ∀ first rest, spans = first :: rest → ∃ lowest highest,
    FirstLeast Span.position first rest lowest ∧ FirstGreatest Span.position first rest highest ∧
      shift = pivot - (lowest.low + (highest.high - lowest.low) / .ofNat 2)

theorem exists_shift (pivot : Double) (spans : List Span) : ∃ shift, Shifts pivot spans shift := by
  cases spans with
  | nil => exact ⟨pivot, nofun⟩
  | cons first rest =>
    obtain ⟨lowest, least⟩ : ∃ lowest, FirstLeast Span.position first rest lowest :=
      ⟨_, firstLeast_foldl _ _ _⟩
    obtain ⟨highest, greatest⟩ : ∃ highest, FirstGreatest Span.position first rest highest :=
      ⟨_, firstGreatest_foldl _ _ _⟩
    refine ⟨pivot - (lowest.low + (highest.high - lowest.low) / .ofNat 2), fun _ _ same => ?_⟩
    obtain ⟨rfl, rfl⟩ := List.cons.inj same
    exact ⟨lowest, highest, least, greatest, rfl⟩

namespace Spacing

theorem firstLeast_lowest (first : Target) (rest : List Target) (axis : Axis) :
    FirstLeast Span.position (first.span axis) (rest.map (·.span axis))
      ((lowest first rest axis).span axis) :=
  Foremost.map (fun t : Target => t.span axis) (fun s => s.position.order?)
    (firstLeast_foldl (fun t : Target => t.position.get axis) first rest)

theorem firstGreatest_highest (first : Target) (rest : List Target) (axis : Axis) :
    FirstGreatest Span.position (first.span axis) (rest.map (·.span axis))
      ((highest first rest axis).span axis) :=
  Foremost.map (fun t : Target => t.span axis) (fun s => s.position.order?.map Neg.neg)
    (firstGreatest_foldl (fun t : Target => t.position.get axis) first rest)

/-- The shift is the one that the targets of a batch are moved by. -/
theorem eq_of_shifts {pivot shift : Double} {first : Target} {rest : List Target} {axis : Axis}
    (shifts : Shifts pivot ((first :: rest).map (·.span axis)) shift) :
    pivot - midpoint first rest axis = shift := by
  obtain ⟨low, high, least, greatest, rfl⟩ := shifts _ _ List.map_cons
  obtain rfl := least.unique (firstLeast_lowest first rest axis)
  obtain rfl := greatest.unique (firstGreatest_highest first rest axis)
  rfl

/-- What `center` gives where its second argument is an index. -/
theorem center_eq_ok {stage : Stage} {bindings : Bindings} {axis : Axis} {first other : Target}
    {rest : List Target} {number : Double} {m : Nat} (ready : Ready bindings axis)
    (snapshot : stage.snapshot = first :: rest) (whole : number.toInt? = some (m : Int))
    (atPlace : (first :: rest)[m]? = some other) (pivot : Double) (surplus : List Double) :
    center stage (pivot :: number :: surplus) bindings =
      .ok (other.position.get axis + (pivot - midpoint first rest axis)) := by
  obtain ⟨this, read⟩ := ready.inputs pivot (number :: surplus)
  obtain ⟨within, rfl⟩ := List.getElem?_eq_some_iff.mp atPlace
  have index : targetIndex number (first :: rest).length = .ok ⟨m, within⟩ :=
    targetIndex_eq_ok_iff.mpr whole
  rw [center, read, snapshot]
  change targetIndex number (first :: rest).length >>= _ = _
  rw [index, axis_name]
  rfl

end Spacing

namespace Batch

variable {expressions : Expressions} {targets placed : List Target} {limits : Limits}
  {index : Nat} {target : Target} {part : Part} {axis : Axis} {stage : Stage} {shift : Double}

section

variable {p k : Single} {m : Nat} {other : Target} {this : Double} {bindings : Bindings}

/-- What `center` gives while a field is evaluated. -/
theorem Moment.center_eq_ok
    (moment : Moment expressions targets limits index target part axis stage)
    (shifts : Shifts p.toDouble ((inSiblingOrder targets).map (·.span axis)) shift)
    (bound : Bindings.ofPairs (fieldVariables this index axis) = .ok bindings)
    (whole : k.toDouble.toInt? = some (m : Int))
    (atPlace : (inSiblingOrder targets)[m]? = some other) (surplus : List Single) :
    Spacing.center stage ((p :: k :: surplus).map Binary.toDouble) bindings =
      .ok (other.position.get axis + shift) := by
  cases inOrder : inSiblingOrder targets with
  | nil =>
    rw [inOrder] at atPlace
    cases atPlace
  | cons first rest =>
    rw [inOrder] at atPlace shifts
    have snapshot := moment.sees.snapshot.trans inOrder
    rw [List.map_cons, List.map_cons, Spacing.center_eq_ok (ready_of_fieldVariables bound) snapshot
      whole atPlace, Spacing.eq_of_shifts shifts]

theorem Moment.call_center
    (moment : Moment expressions targets limits index target part axis stage)
    (shifts : Shifts p.toDouble ((inSiblingOrder targets).map (·.span axis)) shift)
    (bound : Bindings.ofPairs (fieldVariables this index axis) = .ok bindings)
    (whole : k.toDouble.toInt? = some (m : Int))
    (atPlace : (inSiblingOrder targets)[m]? = some other) (surplus : List Single) :
    ((Context.mk bindings (Spacing.functions stage)).call "center" (p :: k :: surplus)).result =
      .ok (other.position.get axis + shift).toSingle := by
  rw [Context.call_supplied (f := Spacing.asSupplied "center" (Spacing.center stage)) rfl rfl,
    Spacing.call_asSupplied_eq_ok_iff]
  exact ⟨_, moment.center_eq_ok shifts bound whole atPlace surplus, rfl⟩

end

/-- A formula that centres the target it is evaluated for. -/
def Centres (source : String) (p : Single) : Prop :=
  Written Operator.loosest (.call "center" [.number p, .variable "index"]) source.toList

/-- The value of a field that centres its target. -/
theorem Moment.fieldValue_of_centres
    (moment : Moment expressions targets limits index target part axis stage) {p : Single}
    (centres : Centres ((expressions.get part).get axis) p) (few : targets.length ≤ 2 ^ 24)
    (shifts : Shifts p.toDouble ((inSiblingOrder targets).map (·.span axis)) shift) :
    fieldValue expressions limits stage index target part axis =
      .ok (target.position.get axis + shift).toSingle.toDouble := by
  obtain ⟨within, _⟩ := List.getElem?_eq_some_iff.mp moment.atIndex
  rw [length_inSiblingOrder] at within
  obtain ⟨k, single, whole⟩ := singleOfInt?_of_small (within.trans_le few)
  obtain ⟨nodes, _, _, _, _, parsed, _⟩ := failingFields_eq_nil_iff.mp moment.passed part axis
  have read : parse {} ((expressions.get part).get axis).toList = _ := Written.parse centres
    (by simp [Tree.depth, Tree.depthEach, usualLevels]) (Limits.unlimited_allows _ _)
  obtain rfl := Limits.parse_unique read parsed
  have bound := ofPairs_fieldVariables single ((target.get part).get axis) axis
  refine evaluateText_eq_ok_iff.mpr ⟨_, _, _, parsed, bound, ?_, rfl⟩
  rw [Tree.evaluate_nodes, Tree.value, Traced.result_bind, bind_eq_ok_iff]
  refine ⟨[p, k], ?_, moment.call_center shifts bound whole moment.atIndex []⟩
  simp only [Tree.values, Tree.value, number_index]
  rfl

/-- Centring on a pivot is one shift of the whole batch, found from the pivot and from what the
targets take up of the axis before the batch. Whenever a field of the axis is evaluated, `center`
gives the position that a target had before the batch, shifted by it, and a position that is
computed by `center` is this one, whatever the other formulas are and whatever they computed
before. -/
theorem center_shifts_batch (p : Single) (spans : List Span) :
    ∃ shift, Shifts p.toDouble spans shift ∧
      ∀ (expressions : Expressions) (targets : List Target) (limits : Limits) (axis : Axis),
        (inSiblingOrder targets).map (·.span axis) = spans →
        (∀ (index : Nat) (target : Target) part stage,
          Moment expressions targets limits index target part axis stage →
          ∀ bindings, Bindings.ofPairs
            (fieldVariables ((target.get part).get axis) index axis) = .ok bindings →
          ∀ (k : Single) (m : Nat) (other : Target), k.toDouble.toInt? = some (m : Int) →
            (inSiblingOrder targets)[m]? = some other → ∀ surplus : List Single,
              Spacing.center stage ((p :: k :: surplus).map Binary.toDouble) bindings =
                  .ok (other.position.get axis + shift) ∧
                ((Context.mk bindings (Spacing.functions stage)).call "center"
                  (p :: k :: surplus)).result = .ok (other.position.get axis + shift).toSingle) ∧
        (Centres (expressions.position.get axis) p → targets.length ≤ 2 ^ 24 →
          ∀ placed, apply expressions targets limits = .ok placed →
            ∀ (index : Nat) (target : Target), (inSiblingOrder targets)[index]? = some target →
              ∃ result : Target, placed[index]? = some result ∧
                result.position.get axis =
                  (target.position.get axis + shift).toSingle.toDouble) := by
  obtain ⟨shift, shifts⟩ := exists_shift p.toDouble spans
  refine ⟨shift, shifts, fun expressions targets limits axis same => ?_⟩
  subst same
  refine ⟨fun index target part stage moment bindings bound k m other whole atPlace surplus => ?_,
    fun centres few placed applied index target atIndex => ?_⟩
  · exact ⟨moment.center_eq_ok shifts bound whole atPlace surplus,
      moment.call_center shifts bound whole atPlace surplus⟩
  · obtain ⟨stage, result, moment, atPlaced, value⟩ :=
      exists_moment_of_apply applied atIndex .position axis
    rw [moment.fieldValue_of_centres centres few shifts] at value
    exact ⟨result, atPlaced, (Except.ok.inj value).symm⟩

/-- Two targets centred on one, and what the rotation of the second one would see of the first. -/
theorem two_centred_on_one :
    let left : Target := { name := "left" }
    let right : Target := { name := "right", position := Point.one }
    let expressions : Expressions := { position := ⟨"center(1, index)", "this", "this"⟩ }
    let one : Single := (numeralValue ['1']).toSingle
    ∃ shift, Shifts one.toDouble [left.span .x, right.span .x] shift ∧
      (∃ stage bindings, Moment expressions [left, right] {} 1 right .rotation .x stage ∧
        Spacing.center stage ([one, .zero false].map Binary.toDouble) bindings =
          .ok (left.position.x + shift)) ∧
      ∃ placed result, apply expressions [left, right] {} = .ok placed ∧
        placed[1]? = some result ∧
        result.position.x = (right.position.x + shift).toSingle.toDouble := by
  intro left right expressions one
  have sorted : inSiblingOrder [left, right] = [left, right] :=
    List.mergeSort_of_pairwise (by decide)
  obtain ⟨placed, applied⟩ : ∃ placed, apply expressions [left, right] {} = .ok placed :=
    exists_apply_of_moves sorted (by decide +kernel) (by decide +kernel)
  have first : (inSiblingOrder [left, right])[0]? = some left := by
    rw [sorted]
    rfl
  have second : (inSiblingOrder [left, right])[1]? = some right := by
    rw [sorted]
    rfl
  obtain ⟨stage, _, moment, _⟩ := exists_moment_of_apply applied second .rotation .x
  obtain ⟨index, whole, _⟩ := singleOfInt?_of_small (n := 1) (by decide)
  have bound := ofPairs_fieldVariables whole right.rotation.x .x
  have center : (Token.identifier "center").Valid :=
    ⟨'c', ['e', 'n', 't', 'e', 'r'], rfl, rfl, by simp [isNameChar]⟩
  have place : (Token.identifier "index").Valid :=
    ⟨'i', ['n', 'd', 'e', 'x'], rfl, rfl, by simp [isNameChar]⟩
  have literal : (Token.number ['1']).Valid :=
    ⟨⟨'1', [], rfl, rfl, List.forall_mem_nil _⟩, by decide⟩
  have centres : Centres "center(1, index)" one :=
    .call center (.more (.number literal) (.last (.spaceBefore (c := ' ') rfl (.variable place))))
  obtain ⟨shift, shifts, shifted⟩ := center_shifts_batch one [left.span .x, right.span .x]
  obtain ⟨seen, moved⟩ := shifted expressions [left, right] {} .x (by rw [sorted]; rfl)
  obtain ⟨result, atPlaced, value⟩ := moved centres (by decide) placed applied 1 right second
  have zero : (Binary.zero false : Single).toDouble.toInt? = some ((0 : Nat) : Int) := by
    decide +kernel
  exact ⟨shift, shifts,
    ⟨stage, _, moment, (seen 1 right .rotation stage moment _ bound _ 0 left zero first []).1⟩,
    placed, result, applied, atPlaced, value⟩

end Batch

end Placement
