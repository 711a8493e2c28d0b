import Placement.Layout.Axis

namespace Placement

/-- An object with its place among its siblings. -/
structure Target where
  name : String
  position : Point := Point.zero
  rotation : Point := Point.zero
  scale : Point := Point.one
  size : Point := Point.zero
  siblingIndex : Int := 0
  deriving DecidableEq

/-- A point as a record of its components. -/
def Point.record (p : Point) : Datum :=
  .record "Vector3" [("x", .float p.x), ("y", .float p.y), ("z", .float p.z)]

/-- A point as a list of its components. -/
def Point.list (p : Point) : Datum := .list (p.toList.map .float)

namespace Target

/-- A target as an object of its host. -/
def record (t : Target) : Datum :=
  .record "Target" [
    ("name", .text t.name), ("position", t.position.record), ("rotation", t.rotation.record),
    ("scale", t.scale.record), ("size", t.size.record), ("sibling_index", .int t.siblingIndex)]

/-- A target as an entry of a plan. -/
def document (t : Target) : Datum :=
  .mapping [
    (.text "name", .text t.name), (.text "position", Point.list t.position),
    (.text "rotation", Point.list t.rotation), (.text "scale", Point.list t.scale),
    (.text "size", Point.list t.size), (.text "sibling_index", .int t.siblingIndex)]

end Target

/-- Targets as the entries of a plan without expressions. -/
def targetEntries (targets : List Target) : List (Datum × Datum) :=
  [(.text "targets", .list (targets.map Target.document))]

end Placement
