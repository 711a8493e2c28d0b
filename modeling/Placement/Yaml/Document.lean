import Placement.Yaml.Node

/-!
Documents read as data. Of equal keys the last one counts, and a list or mapping cannot be a key.
A document is gone through level by level, so of several faults the one on the upper level is
reported, and of those on one level the first.
-/

namespace Placement.Yaml

/-- Why a text is no document. -/
inductive Fault where
  | malformed
  | scalar (error : ScalarError)
  deriving DecidableEq, Repr

/-- A fault and the level on which it is found. -/
structure Found where
  level : Nat
  fault : Fault
  deriving DecidableEq, Repr

/-- Two readings together, or the fault that is found before the other. -/
def together {α β γ : Type} (combine : α → β → γ) :
    Except Found α → Except Found β → Except Found γ
  | .ok a, .ok b => .ok (combine a b)
  | .ok _, .error found => .error found
  | .error found, .ok _ => .error found
  | .error first, .error second =>
    .error (if first.level ≤ second.level then first else second)

/-- The datum of a scalar. The signs for merging and for the value stand for nothing. -/
def scalarDatum (text : List Char) (plain : Bool) : Except Fault Datum :=
  if !plain then .ok (.text (String.ofList text))
  else
    match resolve text with
    | .null => .ok .null
    | .bool value => .ok (.bool value)
    | .int n => .ok (.int n)
    | .float x => .ok (.float x)
    | .moment m => .ok (.moment m)
    | .merge => .error .malformed
    | .value => .error .malformed
    | .refused error => .error (.scalar error)
    | .text => .ok (.text (String.ofList text))

/-- Whether two keys of a document are the same. A document has one not-a-number. -/
def sameKey : Datum → Datum → Bool
  | .float .nan, .float .nan => true
  | a, b => a.sameKey b

namespace Node

mutual

/-- The datum of a node on a level. -/
def datum (level : Nat) : Node → Except Found Datum
  | scalar text plain => (scalarDatum text plain).mapError fun fault => { level, fault }
  | sequence items => (itemData (level + 1) items).map .list
  | mapping entries => (entryData (level + 1) entries).map (.ofEntries sameKey)
  | wrongMerge => .error { level := level + 1, fault := .malformed }

/-- The data of nodes side by side. -/
def itemData (level : Nat) : List Node → Except Found (List Datum)
  | [] => .ok []
  | item :: rest => together List.cons (datum level item) (itemData level rest)

/-- The data of entries, in which only scalars are keys. -/
def entryData (level : Nat) : List (Node × Node) → Except Found (List (Datum × Datum))
  | [] => .ok []
  | (key, value) :: rest =>
    let name := if key.isScalar then datum level key else .error { level, fault := .malformed }
    together List.cons (together Prod.mk name (datum level value)) (entryData level rest)

end

end Node

/-- The datum that a text holds. -/
def read (text : String) : Except Fault Datum :=
  match node? text with
  | none => .error .malformed
  | some node => (node.datum 0).mapError (·.fault)

end Placement.Yaml
