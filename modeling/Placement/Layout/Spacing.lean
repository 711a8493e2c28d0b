import Placement.Formula.Evaluation
import Placement.Layout.Target

/-!
The two functions that see the whole batch. `space_between` puts a target behind the one before
it, `center` moves a target with the batch so that the batch is centred. Both work in binary64
on the axis that the variable `__attribute` names.
-/

namespace Placement

/-- The targets as they were before a batch, and as they are now, both in sibling order. -/
structure Stage where
  snapshot : List Target
  current : List Target

namespace Stage

/-- Nothing has been moved yet. -/
def start (targets : List Target) : Stage := ⟨targets, targets⟩

/-- The stage after the target at an index was replaced. -/
def update (stage : Stage) (index : Nat) (target : Target) : Stage :=
  { stage with current := stage.current.set index target }

end Stage

inductive SpacingError where
  | missingArgument
  | binding (cause : EvaluationError)
  | indexNaN
  | indexInfinite
  | indexRange (index : Int) (count : Nat)
  | unknownAxis (value : Datum)

def SpacingError.message : SpacingError → String
  | missingArgument => "list index out of range"
  | binding cause => cause.message
  | indexNaN => "cannot convert float NaN to integer"
  | indexInfinite => "cannot convert float infinity to integer"
  | indexRange index count =>
    "Target index " ++ writeInt index ++ " out of range for " ++ writeInt count ++ " target(s)"
  | unknownAxis value =>
    match value.hindrance? none with
    | none => "Unknown axis: " ++ value.written
    | some hindrance => hindrance.message

namespace Spacing

/-- The variable that names the axis being computed. -/
def axisVariable : String := "__attribute"

def argument (arguments : List Double) (place : Nat) : Except SpacingError Double :=
  match arguments[place]? with
  | some x => .ok x
  | none => .error .missingArgument

def ofVariable {α : Type} : Except EvaluationError α → Except SpacingError α
  | .ok value => .ok value
  | .error cause => .error (.binding cause)

def axis (value : Datum) : Except SpacingError Axis :=
  match Axis.ofDatum? value with
  | some axis => .ok axis
  | none => .error (.unknownAxis value)

/-- The whole part of a number as an index below `count`. -/
def targetIndex (x : Double) (count : Nat) : Except SpacingError (Fin count) :=
  match x.toInt? with
  | none => .error (if x.isNaN then .indexNaN else .indexInfinite)
  | some index =>
    if within : 0 ≤ index ∧ index < count then .ok ⟨index.toNat, (Int.toNat_lt within.1).mpr within.2⟩
    else .error (.indexRange index count)

/-- Behind the target before: its position, its size, the size of the target and the gap. -/
def placeBehind (before target : Target) (gap : Double) (axis : Axis) : Double :=
  before.position.get axis + before.size.get axis + target.size.get axis + gap

/-- Where the target at an index goes. The first one sits at half its size. -/
def chainPosition (targets : List Target) (index : Fin targets.length) (gap : Double)
    (axis : Axis) : Double :=
  match index with
  | ⟨0, _⟩ => targets[index].size.get axis * .half
  | ⟨before + 1, _⟩ => placeBehind targets[before] targets[index] gap axis

/-- The first target with the least position on an axis. -/
def lowest (first : Target) (rest : List Target) (axis : Axis) : Target :=
  rest.foldl (fun held next =>
    if (next.position.get axis).lt (held.position.get axis) then next else held) first

/-- The first target with the greatest position on an axis. -/
def highest (first : Target) (rest : List Target) (axis : Axis) : Target :=
  rest.foldl (fun held next =>
    if (held.position.get axis).lt (next.position.get axis) then next else held) first

/-- Half of the scaled size of a target. -/
def halfExtent (t : Target) (axis : Axis) : Double :=
  t.size.get axis * t.scale.get axis / .ofNat 2

/-- The middle between the low end of the lowest target and the high end of the highest one. -/
def midpoint (first : Target) (rest : List Target) (axis : Axis) : Double :=
  let least := lowest first rest axis
  let most := highest first rest axis
  let low := least.position.get axis - halfExtent least axis
  let high := most.position.get axis + halfExtent most axis
  low + (high - low) / .ofNat 2

/-- The first argument and the variables that both functions read, in this order. -/
def inputs (arguments : List Double) (bindings : Bindings) :
    Except SpacingError (Double × Datum × Double) := do
  let first ← argument arguments 0
  let axisValue ← ofVariable (bindings.object axisVariable)
  let this ← ofVariable (bindings.number "this")
  return (first, axisValue, this.toDouble)

/-- The position of a target behind its predecessor as it is now. Without targets nothing moves. -/
def spaceBetween (stage : Stage) (arguments : List Double) (bindings : Bindings) :
    Except SpacingError Double := do
  let (gap, axisValue, this) ← inputs arguments bindings
  if stage.current.isEmpty then return this
  let index ← targetIndex (← argument arguments 1) stage.current.length
  return chainPosition stage.current index gap (← axis axisValue)

/-- The position of a target before the batch, moved so that the batch is centred on a pivot.
Without targets nothing moves. -/
def center (stage : Stage) (arguments : List Double) (bindings : Bindings) :
    Except SpacingError Double := do
  let (pivot, axisValue, this) ← inputs arguments bindings
  match stage.snapshot with
  | [] => return this
  | first :: rest =>
    let index ← targetIndex (← argument arguments 1) (first :: rest).length
    let axis ← axis axisValue
    return (first :: rest)[index].position.get axis + (pivot - midpoint first rest axis)

/-- A function of the batch as formulas call it. -/
def asSupplied (name : String) (f : List Double → Bindings → Except SpacingError Double) :
    SuppliedFunction where
  name := name
  body := fun arguments bindings =>
    match f arguments bindings with
    | .ok x => .ok (.float x)
    | .error (.binding cause) => .error (.formula (.evaluation cause))
    | .error error => .error (.other (.ok error.message))

/-- The functions that a formula can call during a batch. -/
def functions (stage : Stage) : List SuppliedFunction :=
  [asSupplied "space_between" (spaceBetween stage), asSupplied "center" (center stage)]

/-- Stand-ins that always give zero. -/
def standIns : List SuppliedFunction :=
  [asSupplied "space_between" fun _ _ => .ok (.zero false),
    asSupplied "center" fun _ _ => .ok (.zero false)]

end Spacing

end Placement
