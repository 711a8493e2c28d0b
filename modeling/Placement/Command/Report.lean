import Placement.Command.Line
import Placement.Datum

namespace Placement.Command

structure Report where
  exit : Nat := 0
  output : String := ""
  diagnostics : String := ""
  /-- A path and the text to write there. -/
  written : Option (String × String) := none
  deriving DecidableEq

namespace Report

/-- A failure of the work itself. -/
def failed (message : String) : Report :=
  { exit := 1, diagnostics := "Error: " ++ message ++ "\n" }

/-- A failure that nothing is said about. -/
def silent : Report := { exit := 1 }

/-- The report on a foreign error. Only a wrong value is ever reported. -/
def ofForeign (error : ForeignError) : Report :=
  if error.kind = "ValueError" then failed error.message else silent

/-- The report with lines of the log before its other diagnostics. -/
def logged (lines : List String) (report : Report) : Report :=
  { report with
    diagnostics := String.join (lines.map (· ++ "\n")) ++ report.diagnostics }

end Report

/-- The help of a command. -/
structure Page where
  path : String
  synopsis : String
  summary : String

namespace Page

def usage (page : Page) : String := "Usage: " ++ page.path ++ " " ++ page.synopsis ++ "\n"

def help (page : Page) : String := page.usage ++ "\n  " ++ page.summary ++ "\n"

/-- The report on a refused command line. -/
def refuse (page : Page) (error : UsageError) : Report where
  exit := 2
  diagnostics :=
    (if error.showsUsage then page.usage ++ "Try '" ++ page.path ++ " --help' for help.\n\n"
      else "") ++ "Error: " ++ error.message ++ "\n"

def report (page : Page) : Except UsageError Report → Report
  | .ok report => report
  | .error error => page.refuse error

/-- Runs a command whose line holds these options. Asking for help comes before all else. -/
def run (page : Page) (known : List Switch) (body : Line → Except UsageError Report)
    (arguments : List String) : Report :=
  page.report do
    let line ← Line.read (.help :: known) true arguments
    if line.has .help then return { output := page.help } else body line

/-- Runs the command that the first operand names, with the arguments after it. Operands that
name no command are read as options once more. -/
def choose (page : Page) (known : List Switch)
    (commands : Line → List (String × (List String → Report))) (arguments : List String) :
    Report :=
  if arguments.isEmpty then { exit := 2, diagnostics := page.help }
  else page.report do
    let line ← Line.read (.help :: known) false arguments
    if line.has .help then return { output := page.help }
    else
      match line.operands with
      | [] => .error .commandMissing
      | name :: rest =>
        match (commands line).lookup name with
        | some command => return command rest
        | none =>
          let again ← Line.read (.help :: known) false line.operands
          if again.has .help then return { output := page.help }
          else .error (.unknownCommand name (closeTo name ((commands line).map (·.1))))

end Page

end Placement.Command
