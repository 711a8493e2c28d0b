import Placement.Formula.Builtin
import Placement.Formula.Scan

/-!
Formulas from infix to postfix order. Operands go to the output as they come; operators wait
on a stack until an operator that does not bind tighter, a parenthesis or a comma calls them.
-/

namespace Placement

/-- What waits on the stack of a conversion. -/
inductive Pending where
  | operator (op : Operator)
  | openParen (position : Nat)
  deriving DecidableEq

namespace Pending

/-- Whether a waiting operator goes to the output before `op` is put on the stack. A power
calls nothing, so powers group to the right. -/
def precedes (op : Operator) : Pending → Bool
  | operator top => op != .power && top.rank ≤ op.rank
  | openParen _ => false

/-- The node of a waiting operator. -/
def node : Pending → Node
  | operator op => .operator op
  | openParen _ => .marker .openParen

end Pending

/-- The operators above the last open parenthesis, and the stack below it. -/
def popToOpen : List Pending → Option (List Node × List Pending)
  | [] => none
  | .openParen _ :: below => some ([], below)
  | .operator op :: below =>
    (popToOpen below).map fun found => (.operator op :: found.1, found.2)

/-- All waiting operators, or the position of the first open parenthesis among them. -/
def popAll : List Pending → Except Nat (List Node)
  | [] => .ok []
  | .openParen position :: _ => .error position
  | .operator op :: below => (popAll below).map (.operator op :: ·)

/-- A conversion under way: the finished sequences, the one being written, and the stack. -/
structure Conversion where
  finished : List (List Node) := []
  output : List Node := []
  stack : List Pending := []

namespace Conversion

def fail (cause : ParseError) (position : Nat) : Failure := .formula (.parse cause (some position))

def emit (state : Conversion) (node : Node) : Conversion :=
  { state with output := state.output ++ [node] }

def pushOperator (state : Conversion) (op : Operator) : Conversion :=
  { state with
    output := state.output ++ (state.stack.takeWhile (·.precedes op)).map Pending.node
    stack := .operator op :: state.stack.dropWhile (·.precedes op) }

def openParen (state : Conversion) (position : Nat) : Conversion :=
  { state with stack := .openParen position :: state.stack }

def closeParen (state : Conversion) (position : Nat) : Except Failure Conversion :=
  match popToOpen state.stack with
  | some (operators, below) =>
    .ok { state with output := state.output ++ operators, stack := below }
  | none => .error (fail .unmatchedClose position)

/-- Ends the sequence being written. -/
def endSequence (state : Conversion) : Except Failure Conversion :=
  match popAll state.stack with
  | .ok operators => .ok { finished := state.finished ++ [state.output ++ operators] }
  | .error position => .error (fail .unmatchedOpen position)

/-- Takes in one token. The node of a call is made by `call` from its name, the text of its
arguments and its position. -/
def step (call : String → List Char → Nat → Except Failure Node) (state : Conversion)
    (placed : Placed) : Except Failure Conversion :=
  match placed.token with
  | .number digits => .ok (state.emit (.number (numeralValue digits).toSingle))
  | .constant name =>
    match Builtin.constant? name with
    | some value => .ok (state.emit (.number value))
    | none => .error (fail (.unknownConstant name) placed.position)
  | .identifier name => .ok (state.emit (.variable name))
  | .call name arguments => (call name arguments placed.position).map state.emit
  | .operator op => .ok (state.pushOperator op)
  | .leftParen => .ok (state.openParen placed.position)
  | .rightParen => state.closeParen placed.position
  | .comma => state.endSequence

/-- The sequences between the commas of a text. -/
def run (call : String → List Char → Nat → Except Failure Node) (text : List Char) :
    Except Failure (List (List Node)) := do
  let scanned := scan text
  let state ← scanned.tokens.foldlM (step call) {}
  match scanned.ending with
  | .error error => .error (.formula error)
  | .ok _ => (← state.endSequence).finished |> .ok

end Conversion

/-- How deep calls and data are followed unless more or less is asked for. -/
def usualLevels : Nat := 400

/-- Limits on formulas. Calls deeper than `maxDepth` are refused, and calls deeper than `levels` are
never followed. -/
structure Limits where
  maxDepth : Option Nat := none
  levels : Nat := usualLevels
  deriving DecidableEq, Repr

/-- Refuses calls deeper than the limit. -/
def Limits.admit (limits : Limits) (depth : Nat) (name : String) (position : Nat) :
    Except Failure Unit :=
  match limits.maxDepth with
  | some limit =>
    if limit < depth then .error (Conversion.fail (.tooDeep name limit) position) else .ok ()
  | none => .ok ()

/-- The node of a call whose arguments are read by `read`. Blank text holds no arguments. -/
def callNode (read : List Char → Except Failure (List (List Node))) (name : String)
    (arguments : List Char) : Except Failure Node :=
  if arguments.all isBlank then .ok (.call name [])
  else (read arguments).map (.call name)

/-- The sequences of a text inside of `depth` calls. Calls may nest `levels` deep in it. -/
def sequences (limits : Limits) : (levels depth : Nat) → List Char →
    Except Failure (List (List Node))
  | 0, depth, text =>
    Conversion.run (fun name _ position => do
      limits.admit (depth + 1) name position
      .error .nesting) text
  | levels + 1, depth, text =>
    Conversion.run (fun name arguments position => do
      limits.admit (depth + 1) name position
      callNode (sequences limits levels (depth + 1)) name arguments) text

/-- The postfix sequence of a formula. -/
def parse (limits : Limits) (text : List Char) : Except Failure (List Node) :=
  if text.all isBlank then .error (Conversion.fail .empty 0)
  else
    match sequences limits limits.levels 0 text with
    | .error failure => .error failure
    | .ok [nodes] => .ok nodes
    | .ok _ => .error (.formula (.parse .strayComma none))

end Placement
