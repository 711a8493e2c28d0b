import Placement.Command.Report
import Placement.Formula.Builtin
import Placement.Formula.Catalogue
import Placement.Json
import Placement.Yaml.Write

namespace Placement.Command

/-- The formats of the list. -/
inductive ListFormat where
  | yaml
  | json
  deriving DecidableEq, Repr

namespace ListFormat

def all : List ListFormat := [yaml, json]

def name : ListFormat → String
  | yaml => "yaml"
  | json => "json"

def write (format : ListFormat) (entries : List (Datum × Datum)) : String :=
  match format with
  | yaml => Yaml.write entries
  | json => Json.write (.mapping entries) ++ "\n"

end ListFormat

/-- Which functions to list and how. -/
structure ListRequest where
  category : Option Category := none
  format : ListFormat := .yaml

/-- One of several values by its name. -/
def choice {α : Type} (switch : Switch) (name : α → String) (all : List α) (value : String) :
    Except UsageError α :=
  match all.find? (name · == value) with
  | some chosen => .ok chosen
  | none => .error (.unknownChoice switch value (all.map name))

/-- Takes the value of one option into the request. -/
def ListRequest.take (line : Line) (request : ListRequest) (switch : Switch) :
    Except UsageError ListRequest := do
  match switch, line.value? switch with
  | .category, some value =>
    return { request with category := some (← choice .category Category.name Category.all value) }
  | .format, some value =>
    return { request with format := ← choice .format ListFormat.name ListFormat.all value }
  | _, _ => return request

def listReport (request : ListRequest) : Report :=
  { output := request.format.write (Builtin.registry.document request.category).entries }

def listPage : Page where
  path := "transformexpr functions"
  synopsis := "[OPTIONS]"
  summary := "List the built-in functions."

def listFunctions : List String → Report :=
  listPage.run [.category, .format] fun line => do
    let request ← line.switches.foldlM (ListRequest.take line) {}
    line.noOperandsAfter 0
    return listReport request

end Placement.Command
