import Placement.Formula.Bindings
import Placement.Formula.Conversion

namespace Placement

/-- Why the body of a supplied function gave no result. Errors of formulas are passed on, all others
are known by their text, if they have one. -/
inductive BodyFailure where
  | formula (error : FormulaError)
  | other (reason : Except WritingError String)

/-- A function that a caller supplies. Its body sees the arguments in binary64 and the
bindings of the evaluation. -/
structure SuppliedFunction where
  name : String
  body : List Double → Bindings → Except BodyFailure Datum

/-- A call of a supplied function. -/
structure Call where
  name : String
  arguments : List Double
  deriving DecidableEq

/-- What an evaluation can refer to. -/
structure Context where
  bindings : Bindings := {}
  functions : List SuppliedFunction := []

/-- A result together with the calls of supplied functions made on the way, in order. -/
structure Traced (α : Type) where
  calls : List Call
  result : Except FormulaError α

namespace Traced

variable {α β : Type}

protected def pure (value : α) : Traced α := ⟨[], .ok value⟩

protected def bind (first : Traced α) (next : α → Traced β) : Traced β :=
  match first.result with
  | .ok value =>
    let second := next value
    ⟨first.calls ++ second.calls, second.result⟩
  | .error error => ⟨first.calls, .error error⟩

instance : Monad Traced where
  pure := Traced.pure
  bind := Traced.bind

def fail (cause : EvaluationError) : Traced α := ⟨[], .error (.evaluation cause)⟩

def ofExcept : Except EvaluationError α → Traced α
  | .ok value => .pure value
  | .error cause => fail cause

end Traced

/-- The first supplied function of a name. -/
def findFunction? (functions : List SuppliedFunction) (name : String) : Option SuppliedFunction :=
  functions.find? (·.name == name)

/-- An error of a formula in the body of a supplied function. One whose message cannot be written
is no error of a formula to the body. -/
def SuppliedFunction.passOn (f : SuppliedFunction) (error : FormulaError) : FormulaError :=
  match error.hindrance? with
  | none => error
  | some hindrance => .evaluation (.callFailed f.name (.ok hindrance.message))

/-- The binary32 value of a number that a supplied function returned, if it is in range. -/
def SuppliedFunction.inRange (f : SuppliedFunction) : Option Single → Except FormulaError Single
  | some value => .ok value
  | none => .error (.evaluation (.resultRange f.name))

/-- The binary32 value of what a supplied function returned. -/
def SuppliedFunction.result (f : SuppliedFunction) : Except BodyFailure Datum →
    Except FormulaError Single
  | .error (.formula error) => .error (f.passOn error)
  | .error (.other reason) => .error (.evaluation (.callFailed f.name reason))
  | .ok (.float x) => .ok x.toSingle
  | .ok (.int n) => f.inRange (singleOfInt? n)
  | .ok (.rational q) => f.inRange (singleOfRat? q)
  | .ok value => .error (.evaluation (.resultKind f.name value.kind))

/-- Calls a supplied function and records the call. -/
def SuppliedFunction.call (f : SuppliedFunction) (arguments : List Single) (bindings : Bindings) :
    Traced Single :=
  let wide := arguments.map Binary.toDouble
  ⟨[⟨f.name, wide⟩], f.result (f.body wide bindings)⟩

namespace Context

/-- Calls the built-in function of a name, or else the first supplied one. -/
def call (context : Context) (name : String) (arguments : List Single) : Traced Single :=
  match Builtin.registry.find? name with
  | some f => .ofExcept (f.call arguments)
  | none =>
    match findFunction? context.functions name with
    | some f => f.call arguments context.bindings
    | none => .fail (.unknownFunction name)

/-- The only value on a stack. -/
def onlyValue : List Single → Traced Single
  | [value] => .pure value
  | stack => .fail (.leftover stack.length)

mutual

/-- Runs one node on a stack, whose top stands first. -/
def runNode (context : Context) : Node → List Single → Traced (List Single)
  | .number value, stack => .pure (value :: stack)
  | .variable name, stack => do
    let value ← Traced.ofExcept (context.bindings.number name)
    return value :: stack
  | .operator op, stack =>
    match stack with
    | right :: left :: below => .pure (op.apply left right :: below)
    | _ => .fail (.fewOperands op)
  | .call name arguments, stack => do
    let values ← evaluateArguments context arguments
    let value ← context.call name values
    return value :: stack
  | .marker kind, _ => .fail (.strayMarker kind)

def runSequence (context : Context) : List Node → List Single → Traced (List Single)
  | [], stack => .pure stack
  | node :: rest, stack => do
    let after ← runNode context node stack
    runSequence context rest after

def evaluateArguments (context : Context) : List (List Node) → Traced (List Single)
  | [] => .pure []
  | argument :: rest => do
    let stack ← runSequence context argument []
    let value ← onlyValue stack
    let values ← evaluateArguments context rest
    return value :: values

end

/-- The value of a postfix sequence. -/
def evaluate (context : Context) (nodes : List Node) : Traced Single := do
  let stack ← runSequence context nodes []
  onlyValue stack

end Context

/-- The outcome of a formula, with the calls of supplied functions made on the way. -/
structure Outcome where
  calls : List Call := []
  result : Except Failure Double

def Outcome.ofTraced (traced : Traced Single) : Outcome where
  calls := traced.calls
  result :=
    match traced.result with
    | .ok value => .ok value.toDouble
    | .error error => .error (.raised error)

/-- Reads a formula, binds the variables and evaluates. A formula that is not there counts as
an empty one. -/
def evaluateText (expression : Option String) (given : List (String × Given))
    (functions : List SuppliedFunction) (limits : Limits) : Outcome :=
  match parse limits ((expression.getD "").toList) with
  | .error failure => { result := .error failure }
  | .ok nodes =>
    match Bindings.ofPairs given with
    | .error cause => { result := .error (.formula (.evaluation cause)) }
    | .ok bindings => .ofTraced (Context.evaluate ⟨bindings, functions⟩ nodes)

/-- What became of an attempt to evaluate a formula. -/
inductive Attempt where
  | blank
  | failed (failure : Failure)
  | value (x : Double)

namespace Attempt

def isValue : Attempt → Bool
  | value _ => true
  | _ => false

/-- The value, or not-a-number. -/
def toDouble : Attempt → Double
  | value x => x
  | _ => .nan

end Attempt

/-- Evaluates without failing, foreign errors apart. Blank formulas are not even read. -/
def attempt (expression : Option String) (given : List (String × Given))
    (functions : List SuppliedFunction) (limits : Limits) : Except ForeignError Attempt :=
  match expression with
  | none => .ok .blank
  | some text =>
    if text.toList.all isBlank then .ok .blank
    else
      match (evaluateText (some text) given functions limits).result with
      | .ok x => .ok (.value x)
      | .error (.foreign error) => .error error
      | .error failure => .ok (.failed failure)

/-- The value of a formula, or not-a-number if it has none. -/
def evaluateOrNaN (expression : Option String) (given : List (String × Given))
    (functions : List SuppliedFunction) (limits : Limits) : Except ForeignError Double :=
  (attempt expression given functions limits).map Attempt.toDouble

end Placement
