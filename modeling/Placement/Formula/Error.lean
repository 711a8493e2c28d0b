import Placement.Formula.Bound
import Placement.Formula.Node

/-!
The ways in which a formula can fail, and their messages. Positions count the characters of
the text being read, for the arguments of a call the text between its parentheses.
-/

namespace Placement

/-- Text that is no token. -/
inductive LexicalError where
  | unexpectedCharacter (c : Char)
  | malformedNumber (digits : List Char)
  | unmatchedCall (name : String)
  deriving DecidableEq

/-- Tokens that do not form a sequence. -/
inductive ParseError where
  | empty
  | unmatchedClose
  | unmatchedOpen
  | strayComma
  | unknownConstant (name : String)
  | tooDeep (name : String) (limit : Nat)
  | reported (message : String)
  deriving DecidableEq

/-- Sequences without a value. -/
inductive EvaluationError where
  | fewOperands (op : Operator)
  | strayMarker (kind : Marker)
  | leftover (count : Nat)
  | unknownVariable (name : String)
  | unknownFunction (name : String)
  | fewArguments (name : String) (needed given : Nat)
  | numberExpected (value : Bound)
  | objectExpected (value : Bound)
  | bindingRange
  | callFailed (name : String) (reason : Except WritingError String)
  | resultKind (name : String) (kind : String)
  | resultRange (name : String)

/-- Any failure of a formula. -/
inductive FormulaError where
  | lexical (cause : LexicalError) (position : Nat)
  | parse (cause : ParseError) (position : Option Nat)
  | evaluation (cause : EvaluationError)

/-- A failure of a formula, something nested deeper than is ever followed, or an error from outside
of formulas. -/
inductive Failure where
  | formula (error : FormulaError)
  | nesting
  | foreign (error : ForeignError)

def Marker.name : Marker → String
  | separator => "Separator"
  | openParen => "OpenParen"
  | bare => "PostfixNode"

def LexicalError.message : LexicalError → String
  | unexpectedCharacter c => "Unexpected character '" ++ c.toString ++ "'"
  | malformedNumber digits => "Malformed number '" ++ String.ofList digits ++ "'"
  | unmatchedCall name => "Unmatched '(' in call to '" ++ name ++ "'"

def ParseError.message : ParseError → String
  | empty => "Empty expression"
  | unmatchedClose => "Unmatched ')'"
  | unmatchedOpen => "Unmatched '('"
  | strayComma => "Unexpected ',' outside of a function call"
  | unknownConstant name => "'" ++ name ++ "' is not a valid constant"
  | tooDeep name limit =>
    "Call to '" ++ name ++ "' exceeds maximum nesting depth " ++ writeInt limit
  | reported message => message

def EvaluationError.message : EvaluationError → String
  | fewOperands op => "Operator '" ++ op.symbol.toString ++ "' needs two operands"
  | strayMarker kind => "Unexpected node type: " ++ kind.name
  | leftover count =>
    "Malformed expression: " ++ writeInt count ++ " values left after evaluation"
  | unknownVariable name => "Unknown variable: " ++ name
  | unknownFunction name => "Unknown function: " ++ name
  | fewArguments name needed given =>
    name ++ "() takes at least " ++ writeInt needed ++ " argument(s), got " ++ writeInt given
  | numberExpected value => "Expected a number, got " ++ value.written
  | objectExpected value => "Expected an object, got " ++ value.written
  | bindingRange => "Numeric binding is too large to represent"
  | callFailed name (.ok reason) => "Error calling " ++ name ++ ": " ++ reason
  | callFailed _ (.error error) => error.message
  | resultKind name kind => "Function '" ++ name ++ "' returned " ++ kind ++ ", expected a number"
  | resultRange name => "Function '" ++ name ++ "' returned a number out of range"

/-- What keeps the message of an error from being written. -/
def EvaluationError.hindrance? : EvaluationError → Option WritingError
  | numberExpected value => value.hindrance?
  | objectExpected value => value.hindrance?
  | callFailed _ (.error error) => some error
  | _ => none

namespace FormulaError

def position? : FormulaError → Option Nat
  | lexical _ position => some position
  | parse _ position => position
  | evaluation _ => none

/-- What went wrong, without the place. -/
def description : FormulaError → String
  | lexical cause _ => cause.message
  | parse cause _ => cause.message
  | evaluation cause => cause.message

/-- What went wrong and where. -/
def message (e : FormulaError) : String :=
  match e.position? with
  | some position => e.description ++ " at position " ++ writeInt position
  | none => e.description

/-- What keeps the message of an error from being written. -/
def hindrance? : FormulaError → Option WritingError
  | evaluation cause => cause.hindrance?
  | _ => none

end FormulaError

namespace Failure

def message : Failure → String
  | formula error => error.message
  | nesting => "maximum recursion depth exceeded"
  | foreign error => error.message

/-- What an error of a formula is met as: itself, or what keeps its message from being written. -/
def raised (error : FormulaError) : Failure :=
  match error.hindrance? with
  | none => formula error
  | some .nesting => nesting
  | some (.foreign hindrance) => foreign hindrance

end Failure

end Placement
