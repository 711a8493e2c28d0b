import Placement.Layout.Spacing

/-!
Nine formulas and a batch of targets. Validation tries the formulas on test values; applying
them moves one target after the other in sibling order, position before rotation before scale.
-/

namespace Placement

/-- What the formulas of a batch compute. -/
inductive Part where
  | position
  | rotation
  | scale
  deriving DecidableEq, Repr

namespace Part

/-- The order in which parts are shown. -/
def shown : List Part := [position, scale, rotation]

def name : Part → String
  | position => "position"
  | rotation => "rotation"
  | scale => "scale"

def label : Part → String
  | position => "Position"
  | rotation => "Rotation"
  | scale => "Scale"

end Part

/-- The name of a field, such as `Position.X`. -/
def fieldName (part : Part) (axis : Axis) : String := part.label ++ "." ++ axis.label

/-- The nine formulas. Those left out keep the value as it is. -/
structure Expressions where
  position : PerAxis String := .const "this"
  rotation : PerAxis String := .const "this"
  scale : PerAxis String := .const "this"
  deriving DecidableEq

namespace Expressions

def get (expressions : Expressions) : Part → PerAxis String
  | .position => expressions.position
  | .rotation => expressions.rotation
  | .scale => expressions.scale

/-- The names of the fields and their formulas as they are shown. -/
def fields (expressions : Expressions) : List (String × String) :=
  Part.shown.flatMap fun part => Axis.all.map fun axis =>
    (fieldName part axis, (expressions.get part).get axis)

end Expressions

def Target.get (t : Target) : Part → Point
  | .position => t.position
  | .rotation => t.rotation
  | .scale => t.scale

/-- Why a batch was not laid out. -/
inductive BatchError where
  | compile (fields : List String)
  | field (field target : String) (failure : Failure)
  | foreign (error : ForeignError)

namespace BatchError

def message : BatchError → String
  | compile fields => "Failed to compile expression in " ++ ", ".intercalate fields
  | field name target failure =>
    "Failed to evaluate " ++ name ++ " for '" ++ target ++ "': " ++ failure.message
  | foreign error => error.message

/-- The fields at fault. -/
def fields : BatchError → List String
  | compile fields => fields
  | field name _ _ => [name]
  | foreign _ => []

end BatchError

namespace Batch

/-- What formulas are tried on. -/
def testVariables (targets : List Target) : List (String × Given) :=
  [("this", .datum (.float (.zero false))), ("index", .datum (.int 0)),
    ("targets", .datum (.list (targets.map fun _ => .int 0))),
    ("objects", .datum (.list (targets.map Target.record)))]

/-- The names of the fields, their formulas, and what became of them on test values. -/
def attempts (expressions : Expressions) (targets : List Target) (limits : Limits) :
    List (String × String × Except ForeignError Attempt) :=
  expressions.fields.map fun field =>
    (field.1, field.2,
      attempt (some field.2) (testVariables targets) Spacing.standIns limits)

/-- The attempts, unless one ends in a foreign error. -/
def settled (expressions : Expressions) (targets : List Target) (limits : Limits) :
    Except ForeignError (List (String × Attempt)) :=
  (attempts expressions targets limits).mapM fun tried => tried.2.2.map (tried.1, ·)

/-- The fields whose formulas fail on test values. -/
def failingFields (expressions : Expressions) (targets : List Target) (limits : Limits) :
    Except ForeignError (List String) :=
  (settled expressions targets limits).map fun all => (all.filter (!·.2.isValue)).map Prod.fst

/-- The value of every field on test values, not-a-number where there is none. -/
def preview (expressions : Expressions) (targets : List Target) (limits : Limits) :
    Except ForeignError (List (String × Double)) :=
  (settled expressions targets limits).map fun all => all.map fun tried => (tried.1, tried.2.toDouble)

/-- The targets by sibling index. Equal indexes keep their order. -/
def inSiblingOrder (targets : List Target) : List Target :=
  targets.mergeSort fun a b => a.siblingIndex ≤ b.siblingIndex

/-- The variables of a formula of a batch. -/
def fieldVariables (this : Double) (index : Nat) (axis : Axis) : List (String × Given) :=
  [("this", .datum (.float this)), ("index", .datum (.int index)),
    (Spacing.axisVariable, .datum (.text axis.name))]

/-- Computes one part of the target at an index. -/
def evaluatePart (expressions : Expressions) (limits : Limits) (stage : Stage) (index : Nat)
    (target : Target) (part : Part) : Except BatchError Point :=
  PerAxis.ofFnM fun axis =>
    let outcome := evaluateText (some ((expressions.get part).get axis))
      (fieldVariables ((target.get part).get axis) index axis) (Spacing.functions stage) limits
    match outcome.result with
    | .ok x => .ok x
    | .error (.foreign error) => .error (.foreign error)
    | .error failure => .error (.field (fieldName part axis) target.name failure)

/-- Moves the target at an index: its position first, which the rest of the batch then sees,
and from the stage so reached its rotation and its scale. -/
def moveTarget (expressions : Expressions) (limits : Limits) (stage : Stage) (index : Nat)
    (target : Target) : Except BatchError Stage := do
  let position ← evaluatePart expressions limits stage index target .position
  let moved := stage.update index { target with position }
  let rotation ← evaluatePart expressions limits moved index target .rotation
  let scale ← evaluatePart expressions limits moved index target .scale
  return moved.update index { target with position, rotation, scale }

/-- Moves targets that stand at an index and after it. -/
def moveFrom (expressions : Expressions) (limits : Limits) :
    Nat → List Target → Stage → Except BatchError Stage
  | _, [], stage => .ok stage
  | index, target :: rest, stage => do
    let after ← moveTarget expressions limits stage index target
    moveFrom expressions limits (index + 1) rest after

/-- The targets after all formulas were applied, in sibling order. -/
def apply (expressions : Expressions) (targets : List Target) (limits : Limits) :
    Except BatchError (List Target) :=
  match failingFields expressions targets limits with
  | .error error => .error (.foreign error)
  | .ok [] =>
    let ordered := inSiblingOrder targets
    (moveFrom expressions limits 0 ordered (Stage.start ordered)).map (·.current)
  | .ok failures => .error (.compile failures)

end Batch

end Placement
