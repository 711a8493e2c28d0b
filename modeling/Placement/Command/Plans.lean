import Placement.Command.Report
import Placement.Command.Surroundings
import Placement.Formula.Limits
import Placement.Layout.Batch
import Placement.Layout.PlanText
import Placement.Layout.TargetText

namespace Placement.Command

/-- The lines of the log on tried formulas that failed. Nothing is tried after a foreign error. -/
def attemptLog (plan : Plan) (limits : Limits) : List String :=
  let tried := Batch.attempts plan.expressions plan.targets limits
  (tried.takeWhile (·.2.2.isOk)).filterMap fun (_, formula, outcome) =>
    match outcome with
    | .ok (.failed failure) =>
      some ("DEBUG transformexpr.expressions.evaluator: Failed to evaluate " ++ quoted formula ++
        ": " ++ failure.message)
    | _ => none

/-- The lines of the log on a batch that could not be laid out. -/
def failureLog : BatchError → List String
  | .compile _ => []
  | .field field target failure =>
    ["WARNING transformexpr.layout.service: Failed to evaluate " ++ field ++ " for " ++ target ++
      ": " ++ failure.message]
  | .foreign _ => []

/-- The log of trying a plan, which is kept on request only. -/
def tryLog (verbose : Bool) (plan : Plan) (limits : Limits) : List String :=
  if verbose then attemptLog plan limits else []

/-- Whether all formulas of a plan can be evaluated. There is no limit on their depth. -/
def validateReport (verbose : Bool) (plan : Plan) : Report :=
  Report.logged (tryLog verbose plan {})
    (match Batch.failingFields plan.expressions plan.targets {} with
    | .error _ => .silent
    | .ok [] =>
      { output :=
          "All expressions are valid (" ++ writeInt plan.targets.length ++ " target(s)).\n" }
    | .ok fields => { exit := 1, output := (BatchError.compile fields).message ++ "\n" })

/-- Where the targets of a plan go. -/
inductive Destination where
  | output
  | file (path : String)
  /-- A path that cannot be written to. -/
  | nowhere

/-- Targets as text or in a file. -/
def targetsReport (targets : List Target) (destination : Destination) : Report :=
  match writeTargets targets, destination with
  | .error _, _ => .silent
  | .ok text, .output => { output := text }
  | .ok text, .file path =>
    { output := "Wrote " ++ writeInt targets.length ++ " target(s) to " ++ tidyPath path ++ "\n"
      written := some (tidyPath path, text) }
  | .ok _, .nowhere => .silent

/-- The targets of a plan after its formulas were applied. -/
def applyReport (verbose : Bool) (plan : Plan) (destination : Destination)
    (depthSetting : Option String) : Report :=
  match Limits.ofSetting depthSetting with
  | .error error => .failed error.message
  | .ok limits =>
    Report.logged (tryLog verbose plan limits)
      (match Batch.apply plan.expressions plan.targets limits with
      | .error (.foreign error) => .ofForeign error
      | .error error => (Report.failed error.message).logged (failureLog error)
      | .ok targets => targetsReport targets destination)

/-- What the plan in a text at a path gives. A foreign error is reported as `foreign` says. -/
def withPlan (path text : String) (foreign : ForeignError → Report) (body : Plan → Report) :
    Report :=
  match Plan.ofText (tidyPath path) text with
  | .ok plan => body plan
  | .error (.scalar error) => foreign error.foreign
  | .error (.plan (.unwritable (.foreign error))) => foreign error
  | .error (.plan (.unwritable .nesting)) => .silent
  | .error error => .failed error.message

def planPlace : String := "PLAN_PATH"

/-- The operand that names a plan, and the text of the plan. -/
def planFile (surroundings : Surroundings) (line : Line) : Except UsageError (String × String) := do
  let path ← line.operand planPlace
  match surroundings.look path with
  | .file text => line.noOperandsAfter 1; return (path, text)
  | .directory => .error (.isDirectory planPlace path)
  | _ => .error (.fileMissing planPlace path)

/-- Where the targets go. The path to write to must not be a directory as it is given, and it is
written to in its tidy form. -/
def destination (surroundings : Surroundings) (line : Line) : Except UsageError Destination :=
  match line.value? .output with
  | none => .ok .output
  | some path =>
    match surroundings.look path, surroundings.look (tidyPath path) with
    | .directory, _ => .error (.isDirectory Switch.output.name path)
    | _, .directory => .ok .nowhere
    | _, .unreachable => .ok .nowhere
    | _, _ => .ok (.file path)

def validatePage : Page where
  path := "transformexpr layout validate"
  synopsis := "[OPTIONS] PLAN_PATH"
  summary := "Check that every expression in PLAN_PATH compiles."

def validate (surroundings : Surroundings) (verbose : Bool) : List String → Report :=
  validatePage.run [] fun line => do
    let (path, text) ← planFile surroundings line
    return withPlan path text (fun _ => .silent) (validateReport verbose)

def applyPage : Page where
  path := "transformexpr layout apply"
  synopsis := "[OPTIONS] PLAN_PATH"
  summary := "Apply the expressions in PLAN_PATH and print the updated targets."

def apply (surroundings : Surroundings) (verbose : Bool) : List String → Report :=
  applyPage.run [.output] fun line => do
    let target ← destination surroundings line
    let (path, text) ← planFile surroundings line
    return withPlan path text .ofForeign fun plan =>
      applyReport verbose plan target surroundings.depthSetting

end Placement.Command
