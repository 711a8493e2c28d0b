import Placement.Formula.Registry

namespace Placement

def Parameter.document (p : Parameter) : Datum :=
  .mapping [
    (.text "name", .text p.name), (.text "description", .text p.description),
    (.text "required", .bool p.required), (.text "variadic", .bool p.variadic)]

def Definition.document {α : Type} (f : Definition α) : Datum :=
  .mapping [
    (.text "name", .text f.name), (.text "description", .text f.description),
    (.text "category", .text f.category.name),
    (.text "parameters", .list (f.parameters.map Parameter.document)),
    (.text "examples", .list (f.examples.map .text))]

/-- The entries of the document: functions by name, and names by category. -/
def Documentation.entries {α : Type} (d : Documentation α) : List (Datum × Datum) :=
  [(.text "functions", .mapping (d.functions.map fun f => (.text f.name, f.document))),
    (.text "byCategory", .mapping (d.byCategory.map fun (category, names) =>
      (.text category.name, .list (names.map .text))))]

end Placement
