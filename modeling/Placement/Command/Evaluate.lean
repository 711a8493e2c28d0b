import Placement.Command.Report
import Placement.Command.Surroundings
import Placement.Formula.Evaluation
import Placement.Formula.Limits

namespace Placement.Command

/-- Results have up to nine digits, enough to tell binary32 values apart. -/
def resultNotation : Notation := { lowest := -4, highest := 9, wholePoint := false }

def writeResult (x : Double) : String := resultNotation.significant 9 x

/-- A binding as it is given: a name, an equal sign, and a number or else a text. -/
def readBinding (text : String) : Except UsageError (String × Datum) :=
  let name := text.toList.takeWhile (· != '=')
  match name, text.toList.dropWhile (· != '=') with
  | _ :: _, _ :: value =>
    let value := String.ofList value
    .ok (String.ofList name, match readDouble? value with
      | some x => .float x
      | none => .text value)
  | _, _ => .error (.bindingShape text)

/-- The report on a formula with its variables. -/
def evaluateReport (expression : String) (bindings : List (String × Datum))
    (depthSetting : Option String) : Report :=
  match Limits.ofSetting depthSetting with
  | .error error => .failed error.message
  | .ok limits =>
    let given := bindings.map fun (name, value) => (name, Given.datum value)
    match (evaluateText (some expression) given [] limits).result with
    | .error failure => .failed failure.message
    | .ok x => { output := writeResult x ++ "\n" }

def evaluatePage : Page where
  path := "transformexpr eval"
  synopsis := "[OPTIONS] EXPRESSION"
  summary := "Evaluate EXPRESSION and print the result."

def evaluate (surroundings : Surroundings) : List String → Report :=
  evaluatePage.run [.binding] fun line => do
    let expression ← line.operand "EXPRESSION"
    line.noOperandsAfter 1
    let bindings ← (line.values .binding).mapM readBinding
    return evaluateReport expression bindings surroundings.depthSetting

end Placement.Command
