import Placement.Command.Catalogue
import Placement.Command.Evaluate
import Placement.Command.Plans

namespace Placement.Command

def plansPage : Page where
  path := "transformexpr layout"
  synopsis := "[OPTIONS] COMMAND [ARGS]..."
  summary := "Layout plan commands."

/-- The commands on plans. -/
def plans (surroundings : Surroundings) (verbose : Bool) : List String → Report :=
  plansPage.choose [] fun _ =>
    [("validate", validate surroundings verbose), ("apply", apply surroundings verbose)]

def mainPage : Page where
  path := "transformexpr"
  synopsis := "[OPTIONS] COMMAND [ARGS]..."
  summary := "Evaluate per-axis transform expressions."

/-- What the program reports on its arguments. -/
def run (surroundings : Surroundings) : List String → Report :=
  mainPage.choose [.verbose] fun line =>
    [("eval", evaluate surroundings), ("functions", listFunctions),
      ("layout", plans surroundings (line.has .verbose))]

end Placement.Command
