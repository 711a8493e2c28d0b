namespace Placement.Command

/-- What stands at a path. -/
inductive Entry where
  /-- Nothing, and a file could be put there. -/
  | absent
  /-- Nothing, and no file could be put there. -/
  | unreachable
  | directory
  | file (text : String)
  deriving DecidableEq

/-- What a command sees: files by their paths, and the setting of the greatest depth. -/
structure Surroundings where
  look : String → Entry
  depthSetting : Option String := none

/-- The root that a path begins with. Exactly two slashes are a root of their own. -/
def rootOf (path : String) : String :=
  match (path.toList.takeWhile (· == '/')).length with
  | 0 => ""
  | 2 => "//"
  | _ => "/"

/-- The path without empty components and single dots. -/
def tidyPath (path : String) : String :=
  let components := (path.splitOn "/").filter fun component => component != "" && component != "."
  if components.isEmpty && rootOf path == "" then "."
  else rootOf path ++ "/".intercalate components

end Placement.Command
