import Placement.Layout.Batch

namespace Placement

structure Plan where
  expressions : Expressions := {}
  targets : List Target := []

/-- Why a document is no plan. -/
inductive PlanError where
  | planShape
  | expressionsShape
  | partShape (part : Part)
  | targetsShape
  | targetShape (index : Nat)
  | vectorShape (what : String) (value : Datum)
  | vectorNumbers (what : String) (value : Datum)
  | boundsShape (name : String)
  | extentShape (name : String) (value : Datum)
  | siblingIndex (name : String) (value : Datum)

/-- Why a plan could not be read: the document is none, or a part of it could not be written. -/
inductive PlanFailure where
  | refused (error : PlanError)
  | unwritable (error : WritingError)

def PlanError.message : PlanError → String
  | planShape => "Layout plan must be a mapping"
  | expressionsShape => "expressions must be a mapping"
  | partShape part => "expressions." ++ part.name ++ " must be a mapping of axis to expression"
  | targetsShape => "targets must be a list"
  | targetShape index => "Target #" ++ writeInt index ++ " must be a mapping"
  | vectorShape what value => what ++ " must be a list of three numbers, got " ++ value.written
  | vectorNumbers what value => what ++ " must contain numbers, got " ++ value.written
  | boundsShape name => name ++ ".bounds must be a list of \x7bmin, max\x7d extents"
  | extentShape name value => name ++ ".bounds entries must be mappings, got " ++ value.written
  | siblingIndex name value =>
    name ++ ".sibling_index must be an integer, got " ++ value.written

/-- What keeps the message of an error from being written if data may nest `levels` deep. -/
def PlanError.hindrance? (levels : Nat) : PlanError → Option WritingError
  | vectorShape _ value => value.hindrance? (some levels)
  | vectorNumbers _ value => value.hindrance? (some levels)
  | extentShape _ value => value.hindrance? (some levels)
  | siblingIndex _ value => value.hindrance? (some levels)
  | _ => none

/-- What an error is met as: itself, or what keeps its message from being written. -/
def PlanFailure.raised (levels : Nat) (error : PlanError) : PlanFailure :=
  match error.hindrance? levels with
  | none => refused error
  | some hindrance => unwritable hindrance

namespace Datum

/-- A datum as a number. Truth values count as one and zero, text is read. -/
def toDouble? : Datum → Option Double
  | bool value => some (.ofNat (if value then 1 else 0))
  | int n =>
    let x : Double := .ofInt n
    if x.isInfinite then none else some x
  | rational q =>
    let x := doubleOfRat q
    if x.isInfinite then none else some x
  | float x => some x
  | text s => readDouble? s
  | _ => none

/-- A datum as an integer. Fractions are dropped, text is read, truth values are refused. -/
def toInt? : Datum → Option Int
  | int n => some n
  | rational q => some (q.num.tdiv q.den)
  | float x => x.toInt?
  | text s => readInt? s.toList
  | _ => none

/-- The entries of a mapping, of which something absent has none. -/
def optionalMapping? : Option Datum → Option (List (Datum × Datum))
  | none => some []
  | some (mapping entries) => some entries
  | some value => if value.isVoid then some [] else none

/-- The items of a list, of which something absent has none. -/
def optionalList? : Option Datum → Option (List Datum)
  | none => some []
  | some (list items) => some items
  | some value => if value.isVoid then some [] else none

end Datum

namespace Plan

section

-- Data are followed this deep when they are written.
variable (levels : Nat)

/-- An error in place of nothing. -/
def orError {α : Type} (error : PlanError) : Option α → Except PlanFailure α
  | some value => .ok value
  | none => .error (.raised levels error)

/-- The text of a datum in a plan. -/
def textOf (value : Datum) : Except PlanFailure String :=
  (value.plainText? (some levels)).mapError .unwritable

/-- The formula of an axis. A missing one keeps the value; all else counts as written. -/
def axisExpression (entries : List (Datum × Datum)) (axis : Axis) : Except PlanFailure String :=
  match Datum.get? entries axis.name with
  | none => .ok "this"
  | some .null => .ok "this"
  | some value => textOf levels value

def readPart (entries : List (Datum × Datum)) (part : Part) :
    Except PlanFailure (PerAxis String) := do
  let axes ← orError levels (.partShape part)
    (Datum.optionalMapping? (Datum.get? entries part.name))
  PerAxis.ofFnM (axisExpression levels axes)

def readExpressions (value? : Option Datum) : Except PlanFailure Expressions := do
  let entries ← orError levels .expressionsShape (Datum.optionalMapping? value?)
  let position ← readPart levels entries .position
  let rotation ← readPart levels entries .rotation
  let scale ← readPart levels entries .scale
  return { position, rotation, scale }

/-- The components of a list of three. -/
def readComponents (what : String) (value : Datum) : Except PlanFailure Point :=
  match value with
  | .list [x, y, z] => orError levels (.vectorNumbers what value) do
    return ⟨← x.toDouble?, ← y.toDouble?, ← z.toDouble?⟩
  | _ => .error (.raised levels (.vectorShape what value))

/-- A point from three numbers in a list or under the names of the axes. What is missing takes
the default. -/
def readPoint (what : String) (default : Double) : Option Datum → Except PlanFailure Point
  | none => .ok (.const default)
  | some .null => .ok (.const default)
  | some (.mapping entries) =>
    readComponents levels what (.list (Axis.all.map fun axis =>
      (Datum.get? entries axis.name).getD (.float default)))
  | some value => readComponents levels what value

def readExtent (name : String) : Datum → Except PlanFailure Extent
  | .mapping entries => do
    let low ← readPoint levels (name ++ ".bounds.min") (.zero false) (Datum.get? entries "min")
    let high ← readPoint levels (name ++ ".bounds.max") (.zero false) (Datum.get? entries "max")
    return ⟨low, high⟩
  | value => .error (.raised levels (.extentShape name value))

/-- The size of a target, from its bounds if it has any. -/
def readSize (name : String) (entries : List (Datum × Datum)) : Except PlanFailure Point :=
  match Datum.get? entries "bounds" with
  | some bounds => do
    let items ← orError levels (.boundsShape name) (Datum.optionalList? (some bounds))
    return unionSize (← items.mapM (readExtent levels name))
  | none => readPoint levels (name ++ ".size") (.zero false) (Datum.get? entries "size")

/-- The sibling index of a target, by default its place in the list. -/
def readSiblingIndex (name : String) (index : Nat) (value? : Option Datum) :
    Except PlanFailure Int :=
  let value := value?.getD (.int index)
  orError levels (.siblingIndex name value) value.toInt?

/-- The name of a target, by default made from its place in the list. -/
def readName (index : Nat) : Option Datum → Except PlanFailure String
  | some value => textOf levels value
  | none => .ok ("target" ++ writeInt index)

/-- The target at an index of the list. -/
def readTarget (index : Nat) : Datum → Except PlanFailure Target
  | .mapping entries => do
    let name ← readName levels index (Datum.get? entries "name")
    let size ← readSize levels name entries
    let position ← readPoint levels (name ++ ".position") (.zero false)
      (Datum.get? entries "position")
    let rotation ← readPoint levels (name ++ ".rotation") (.zero false)
      (Datum.get? entries "rotation")
    let scale ← readPoint levels (name ++ ".scale") (.ofNat 1) (Datum.get? entries "scale")
    let siblingIndex ← readSiblingIndex levels name index (Datum.get? entries "sibling_index")
    return { name, position, rotation, scale, size, siblingIndex }
  | _ => .error (.refused (.targetShape index))

/-- The targets of a list whose first item has the given index. -/
def readTargets : Nat → List Datum → Except PlanFailure (List Target)
  | _, [] => .ok []
  | index, item :: rest => do
    let target ← readTarget levels index item
    return target :: (← readTargets (index + 1) rest)

/-- The plan that a document holds. -/
def ofDatum : Datum → Except PlanFailure Plan
  | .mapping entries => do
    let expressions ← readExpressions levels (Datum.get? entries "expressions")
    let items ← orError levels .targetsShape (Datum.optionalList? (Datum.get? entries "targets"))
    return { expressions, targets := ← readTargets levels 0 items }
  | _ => .error (.refused .planShape)

end

end Plan

end Placement
