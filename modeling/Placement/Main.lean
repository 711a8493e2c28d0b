import Placement.Command.Run

namespace Placement.Command

/-- The path of the directory that holds a path. -/
def parentPath (path : String) : String :=
  match (path.splitOn "/").dropLast with
  | [] => "."
  | [""] => "/"
  | above => "/".intercalate above

/-- The code of the failure to read a directory as a file. -/
def directoryCode : UInt32 := 21

/-- What is there at a path, as far as it can be read. -/
def readEntry? (path : String) : IO (Option Entry) := do
  try
    return some (.file (← IO.FS.readFile path))
  catch error =>
    match error with
    | .inappropriateType _ code _ =>
      return if code = directoryCode then some .directory else none
    | _ => return none

/-- What stands at a path. Where nothing can be read, the directory that holds the path decides
whether something could be put there. -/
def lookUp (path : String) : IO Entry := do
  match ← readEntry? path with
  | some entry => return entry
  | none =>
    match ← readEntry? (parentPath path) with
    | some .directory => return .absent
    | _ => return .unreachable

/-- The paths that an argument may name: itself, or what follows its equal sign. -/
def pathsIn (argument : String) : List String :=
  let value := (argument.toList.dropWhile (· != '=')).drop 1
  let named := if value.isEmpty then [argument] else [argument, String.ofList value]
  named ++ named.map tidyPath

/-- Runs the program and carries out its report. -/
def execute (arguments : List String) : IO UInt32 := do
  let entries ← (arguments.flatMap pathsIn).mapM fun path => return (path, ← lookUp path)
  let surroundings : Surroundings := {
    look := fun path => (entries.lookup path).getD .unreachable
    depthSetting := ← IO.getEnv "TRANSFORMEXPR_MAX_DEPTH" }
  let report := run surroundings arguments
  IO.eprint report.diagnostics
  if let some (path, text) := report.written then IO.FS.writeFile path text
  IO.print report.output
  return report.exit.toUInt32

end Placement.Command

def main (arguments : List String) : IO UInt32 := Placement.Command.execute arguments
