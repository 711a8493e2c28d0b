import Placement.Formula.Error

namespace Placement

structure Bindings where
  entries : List (String × Bound) := []

namespace Bindings

/-- Binds names in order. An integer beyond the binary64 range is refused. -/
def ofPairs : List (String × Given) → Except EvaluationError Bindings
  | [] => .ok {}
  | (name, given) :: rest =>
    match given.bind? with
    | none => .error .bindingRange
    | some value => (ofPairs rest).map fun behind => ⟨(name, value) :: behind.entries⟩

/-- Pairs as a mapping holds them: of equal names the last value, at the first one's place. -/
def lastWins {α : Type} (pairs : List (String × α)) : List (String × α) :=
  pairs.foldl (fun held pair =>
    if held.any (·.1 == pair.1) then held.map fun old => if old.1 == pair.1 then pair else old
    else held ++ [pair]) []

/-- The first entry of a name. -/
def lookup (bindings : Bindings) (name : String) : Except EvaluationError Bound :=
  match bindings.entries.lookup name with
  | some value => .ok value
  | none => .error (.unknownVariable name)

/-- The number a name stands for. -/
def number (bindings : Bindings) (name : String) : Except EvaluationError Single :=
  match bindings.lookup name with
  | .ok (.number value) => .ok value
  | .ok value => .error (.numberExpected value)
  | .error cause => .error cause

/-- The object a name stands for. -/
def object (bindings : Bindings) (name : String) : Except EvaluationError Datum :=
  match bindings.lookup name with
  | .ok (.object value) => .ok value
  | .ok value => .error (.objectExpected value)
  | .error cause => .error cause

def names (bindings : Bindings) : List String := bindings.entries.map Prod.fst

def size (bindings : Bindings) : Nat := bindings.entries.length

/-- Whether a datum is one of the names. -/
def contains (bindings : Bindings) : Datum → Bool
  | .text name => bindings.entries.any (·.1 == name)
  | _ => false

/-- The entries as pairs to bind again. -/
def givens (bindings : Bindings) : List (String × Given) :=
  bindings.entries.map fun entry => (entry.1, .bound entry.2)

def written (bindings : Bindings) : String :=
  "VariableBindings([" ++ ", ".intercalate (bindings.entries.map fun entry =>
    "(" ++ quoted entry.1 ++ ", " ++ entry.2.written ++ ")") ++ "])"

end Bindings

end Placement
