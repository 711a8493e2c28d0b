import Placement.Layout.Target
import Placement.Yaml.Write

namespace Placement

/-- The text of a plan that holds targets and no expressions, if all of it can be written. -/
def writeTargets (targets : List Target) : Except WritingError String :=
  let entries := targetEntries targets
  match (Datum.mapping entries).hindrance? none with
  | none => .ok (Yaml.write entries)
  | some error => .error error

end Placement
