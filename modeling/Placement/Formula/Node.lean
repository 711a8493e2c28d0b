import Placement.Formula.Operator

namespace Placement

/-- Signs that order a conversion. None of them belongs in a finished sequence. -/
inductive Marker where
  | separator
  | openParen
  | bare
  deriving DecidableEq, Repr

/-- An element of a postfix sequence. -/
inductive Node where
  | number (value : Single)
  | variable (name : String)
  | operator (op : Operator)
  | call (name : String) (arguments : List (List Node))
  | marker (kind : Marker)

namespace Node

mutual

/-- The number of nodes, those of the arguments included. -/
def count : Node → Nat
  | call _ arguments => countArguments arguments + 1
  | _ => 1

def countSequence : List Node → Nat
  | [] => 0
  | node :: rest => count node + countSequence rest

def countArguments : List (List Node) → Nat
  | [] => 0
  | argument :: rest => countSequence argument + countArguments rest

end

mutual

/-- How deep calls are nested in a node. Other nodes have depth zero. -/
def depth : Node → Nat
  | call _ arguments => depthArguments arguments + 1
  | _ => 0

def depthSequence : List Node → Nat
  | [] => 0
  | node :: rest => max (depth node) (depthSequence rest)

def depthArguments : List (List Node) → Nat
  | [] => 0
  | argument :: rest => max (depthSequence argument) (depthArguments rest)

end

mutual

/-- Whether two nodes are equal. -/
def same : Node → Node → Bool
  | .number x, .number y => x = y
  | .variable x, .variable y => x = y
  | .operator x, .operator y => x = y
  | .call f arguments, .call g others => f = g && sameArguments arguments others
  | .marker x, .marker y => x = y
  | _, _ => false

def sameSequence : List Node → List Node → Bool
  | [], [] => true
  | node :: rest, other :: others => same node other && sameSequence rest others
  | _, _ => false

def sameArguments : List (List Node) → List (List Node) → Bool
  | [], [] => true
  | argument :: rest, other :: others => sameSequence argument other && sameArguments rest others
  | _, _ => false

end

mutual

theorem same_iff : ∀ {node other : Node}, same node other = true ↔ node = other
  | .number _, other => by cases other <;> simp [same]
  | .variable _, other => by cases other <;> simp [same]
  | .operator _, other => by cases other <;> simp [same]
  | .call _ _, other => by cases other <;> simp [same, sameArguments_iff]
  | .marker _, other => by cases other <;> simp [same]

theorem sameSequence_iff : ∀ {nodes others : List Node}, sameSequence nodes others = true ↔
    nodes = others
  | [], others => by cases others <;> simp [sameSequence]
  | _ :: _, others => by cases others <;> simp [sameSequence, same_iff, sameSequence_iff]

theorem sameArguments_iff : ∀ {arguments others : List (List Node)},
    sameArguments arguments others = true ↔ arguments = others
  | [], others => by cases others <;> simp [sameArguments]
  | _ :: _, others => by cases others <;> simp [sameArguments, sameSequence_iff, sameArguments_iff]

end

instance : DecidableEq Node := fun _ _ => decidable_of_iff _ same_iff

end Node

end Placement
