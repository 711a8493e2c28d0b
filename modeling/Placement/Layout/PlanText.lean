import Placement.Layout.Plan
import Placement.Text.Newline
import Placement.Yaml.Document

namespace Placement

/-- Why a text is no plan. -/
inductive PlanTextError where
  | malformed (path : String)
  | scalar (error : Yaml.ScalarError)
  | plan (failure : PlanFailure)

def PlanTextError.message : PlanTextError → String
  | malformed path => "Invalid YAML in " ++ path
  | scalar error => error.message
  | plan (.refused error) => error.message
  | plan (.unwritable error) => error.message

/-- The plan in the text of a document at a path. A document that holds nothing is an empty plan. -/
def Plan.ofText (path text : String) (levels : Nat := usualLevels) :
    Except PlanTextError Plan :=
  match Yaml.read (String.ofList (unifyNewlines text.toList)) with
  | .error .malformed => .error (.malformed path)
  | .error (.scalar error) => .error (.scalar error)
  | .ok document =>
    (ofDatum levels (if document.isVoid then .mapping [] else document)).mapError .plan

end Placement
