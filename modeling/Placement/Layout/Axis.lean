import Placement.Binary.Arithmetic
import Placement.Datum

namespace Placement

inductive Axis where
  | x
  | y
  | z
  deriving DecidableEq, Repr

namespace Axis

def all : List Axis := [x, y, z]

def name : Axis → String
  | x => "x"
  | y => "y"
  | z => "z"

/-- The name as it stands in the name of a field. -/
def label : Axis → String
  | x => "X"
  | y => "Y"
  | z => "Z"

/-- The axis that a text names. -/
def ofDatum? : Datum → Option Axis
  | .text s => all.find? (·.name == s)
  | _ => none

theorem mem_all (axis : Axis) : axis ∈ all := by
  cases axis <;> simp [all]

theorem ofDatum?_name (axis : Axis) : ofDatum? (.text axis.name) = some axis := by
  cases axis <;> rfl

end Axis

/-- One value for each axis. -/
structure PerAxis (α : Type) where
  x : α
  y : α
  z : α
  deriving DecidableEq, Repr

namespace PerAxis

variable {α β : Type}

def get (v : PerAxis α) : Axis → α
  | .x => v.x
  | .y => v.y
  | .z => v.z

def ofFn (f : Axis → α) : PerAxis α := ⟨f .x, f .y, f .z⟩

def const (value : α) : PerAxis α := ⟨value, value, value⟩

def map (f : α → β) (v : PerAxis α) : PerAxis β := ⟨f v.x, f v.y, f v.z⟩

def toList (v : PerAxis α) : List α := [v.x, v.y, v.z]

/-- The values of three computations, run from x to z. -/
def ofFnM {m : Type → Type} [Monad m] (f : Axis → m α) : m (PerAxis α) := do
  let x ← f .x
  let y ← f .y
  let z ← f .z
  return ⟨x, y, z⟩

@[simp] theorem get_ofFn (f : Axis → α) (axis : Axis) : (ofFn f).get axis = f axis := by
  cases axis <;> rfl

@[simp] theorem get_map (f : α → β) (v : PerAxis α) (axis : Axis) :
    (v.map f).get axis = f (v.get axis) := by
  cases axis <;> rfl

end PerAxis

/-- A corner or extent of a box. -/
abbrev Point := PerAxis Double

namespace Point

def zero : Point := .const (.zero false)

def one : Point := .const (.ofNat 1)

end Point

/-- A box by its lowest and its highest corner. -/
structure Extent where
  low : Point
  high : Point
  deriving DecidableEq

/-- The size of the union of some boxes: on each axis the greatest high minus the least low.
No boxes have size zero. -/
def unionSize : List Extent → Point
  | [] => Point.zero
  | first :: rest => .ofFn fun axis =>
    Binary.maxFrom (first.high.get axis) (rest.map fun extent => extent.high.get axis) -
      Binary.minFrom (first.low.get axis) (rest.map fun extent => extent.low.get axis)

end Placement
