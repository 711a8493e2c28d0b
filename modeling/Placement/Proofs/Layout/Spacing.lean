import Placement.Layout.Spacing
import Placement.Proofs.Formula.Lockstep

namespace Placement.Spacing

/-- The variables that both functions read. -/
structure Ready (bindings : Bindings) (axis : Axis) : Prop where
  axis : bindings.object axisVariable = .ok (.text axis.name)
  this : ∃ value, bindings.number "this" = .ok value

/-- Arguments whose second one is an index, or the lack of which is tolerated. -/
structure Placed (tolerated : SpacingError → Prop) (arguments : List Double) (count : Nat) :
    Prop where
  first : Gives tolerated (argument arguments 0) fun _ => True
  index : Gives tolerated (argument arguments 1) fun x =>
    Gives tolerated (targetIndex x count) fun _ => True

variable {stage : Stage} {arguments : List Double} {bindings : Bindings} {axis : Axis}
  {tolerated : SpacingError → Prop}

/-- The first argument, the axis and the number that both functions read. -/
theorem Ready.inputs (ready : Ready bindings axis) (first : Double) (others : List Double) :
    ∃ this, Spacing.inputs (first :: others) bindings = .ok (first, .text axis.name, this) := by
  obtain ⟨this, isThis⟩ := ready.this
  refine ⟨this.toDouble, ?_⟩
  rw [Spacing.inputs, ready.axis, isThis]
  rfl

theorem inputs_gives (ready : Ready bindings axis)
    (first : Gives tolerated (argument arguments 0) fun _ => True) :
    Gives tolerated (inputs arguments bindings) fun result => result.2.1 = .text axis.name := by
  obtain ⟨value, this⟩ := ready.this
  refine first.bind fun x _ _ => ?_
  rw [ready.axis, this]
  exact .ok rfl

theorem axis_name (axis : Axis) : Spacing.axis (.text axis.name) = .ok axis := by
  rw [Spacing.axis, Axis.ofDatum?_name]

theorem spaceBetween_gives (ready : Ready bindings axis)
    (placed : Placed tolerated arguments stage.current.length) :
    Gives tolerated (spaceBetween stage arguments bindings) fun _ => True := by
  refine (inputs_gives ready placed.first).bind fun result _ axisValue => ?_
  obtain ⟨gap, found, this⟩ := result
  obtain rfl : found = .text axis.name := axisValue
  dsimp only
  split
  · exact .ok trivial
  · refine placed.index.bind fun x _ index => index.bind fun place _ _ => ?_
    rw [axis_name]
    exact .ok trivial

theorem center_gives (ready : Ready bindings axis)
    (placed : Placed tolerated arguments stage.snapshot.length) :
    Gives tolerated (center stage arguments bindings) fun _ => True := by
  refine (inputs_gives ready placed.first).bind fun result _ axisValue => ?_
  obtain ⟨pivot, found, this⟩ := result
  obtain rfl : found = .text axis.name := axisValue
  dsimp only
  split
  · exact .ok trivial
  · rename_i first rest snapshot
    rw [snapshot] at placed
    refine placed.index.bind fun x _ index => index.bind fun place _ _ => ?_
    rw [axis_name]
    exact .ok trivial

/-- An error of the arguments, not of a variable. -/
def OfArguments (error : SpacingError) : Prop := ∀ cause, error ≠ .binding cause

theorem argument_gives (arguments : List Double) (place : Nat) :
    Gives OfArguments (argument arguments place) fun _ => True := by
  rw [argument]
  split
  · exact .ok trivial
  · exact Or.inr ⟨_, rfl, nofun⟩

theorem targetIndex_gives (x : Double) (count : Nat) :
    Gives OfArguments (targetIndex x count) fun _ => True := by
  rw [targetIndex]
  split
  · refine Or.inr ⟨_, rfl, ?_⟩
    split <;> exact nofun
  · split
    · exact .ok trivial
    · exact Or.inr ⟨_, rfl, nofun⟩

theorem placed_ofArguments (arguments : List Double) (count : Nat) :
    Placed OfArguments arguments count :=
  ⟨argument_gives arguments 0, (argument_gives arguments 1).mono fun x _ =>
    targetIndex_gives x count⟩

/-- Where the second argument is an index of the batch, nothing is missing. -/
theorem placed_of_index {x : Double} {index count : Nat} (second : arguments[1]? = some x)
    (whole : x.toInt? = some (index : Int)) (within : index < count) :
    Placed (fun _ => False) arguments count := by
  obtain ⟨long, _⟩ := List.getElem?_eq_some_iff.mp second
  have inRange : (0 : Int) ≤ index ∧ (index : Int) < count := by omega
  refine ⟨?_, ?_⟩
  · rw [argument, List.getElem?_eq_getElem (Nat.lt_of_succ_lt long)]
    exact .ok trivial
  · rw [argument, second]
    refine .ok ?_
    rw [targetIndex, whole]
    dsimp only
    rw [dif_pos inRange]
    exact .ok trivial

/-- A failed call of a function of the batch. -/
def CallFailed (error : FormulaError) : Prop :=
  ∃ name reason, (name = "space_between" ∨ name = "center") ∧
    error = .evaluation (.callFailed name (.ok reason))

theorem CallFailed.hindrance? {error : FormulaError} (failed : CallFailed error) :
    error.hindrance? = none := by
  obtain ⟨_, _, _, rfl⟩ := failed
  rfl

theorem call_asSupplied_gives {name : String} {f : List Double → Bindings → Except SpacingError Double}
    {given : List Single} {stops : FormulaError → Prop}
    (gives : Gives tolerated (f (given.map Binary.toDouble) bindings) fun _ => True)
    (raised : ∀ error, tolerated error →
      OfArguments error ∧ stops (.evaluation (.callFailed name (.ok error.message)))) :
    Gives stops ((asSupplied name f).call given bindings).result fun _ => True := by
  unfold SuppliedFunction.call asSupplied
  dsimp only
  rcases gives with ⟨x, same, _⟩ | ⟨error, same, tolerates⟩
  · rw [same]
    exact .ok trivial
  · obtain ⟨ofArguments, stop⟩ := raised error tolerates
    rw [same]
    cases error with
    | binding cause => exact absurd rfl (ofArguments cause)
    | _ => exact Or.inr ⟨_, rfl, stop⟩

/-- What a function of the batch raises has a text. -/
theorem body_asSupplied_ne {name : String}
    {f : List Double → Bindings → Except SpacingError Double} {hindrance : WritingError} :
    (asSupplied name f).body arguments bindings ≠ .error (.other (.error hindrance)) := by
  unfold asSupplied
  dsimp only
  split <;> exact nofun

/-- The functions of a batch and their stand-ins have the same two names. -/
theorem findFunction?_cases (stage : Stage) (name : String) :
    (findFunction? (functions stage) name = none ∧ findFunction? standIns name = none) ∨
      ∃ f, (name = "space_between" ∧ f = spaceBetween stage ∨ name = "center" ∧ f = center stage) ∧
        findFunction? (functions stage) name = some (asSupplied name f) ∧
        findFunction? standIns name = some (asSupplied name fun _ _ => .ok (.zero false)) := by
  by_cases space : name = "space_between"
  · subst space
    exact Or.inr ⟨_, Or.inl ⟨rfl, rfl⟩, rfl, rfl⟩
  · by_cases centers : name = "center"
    · subst centers
      exact Or.inr ⟨_, Or.inr ⟨rfl, rfl⟩, rfl, rfl⟩
    · left
      have noSpace : ("space_between" == name) = false := beq_false_of_ne (Ne.symm space)
      have noCenter : ("center" == name) = false := beq_false_of_ne (Ne.symm centers)
      simp [findFunction?, functions, standIns, asSupplied, noSpace, noCenter]

end Placement.Spacing
