import Placement.Text.Quoted
import Placement.Text.Similar

/-!
Command lines cut into options and operands. An option goes by its long name, whose value stands
behind an equal sign or as the next argument, or by its letter, and letters can share a dash.
-/

namespace Placement.Command

inductive Switch where
  | help
  | verbose
  | binding
  | category
  | format
  | output
  deriving DecidableEq, Repr

namespace Switch

def name : Switch → String
  | help => "--help"
  | verbose => "--verbose"
  | binding => "--var"
  | category => "--category"
  | format => "--format"
  | output => "--output"

/-- The letter of an option. Only options without a value have one. -/
def letter? : Switch → Option Char
  | verbose => some 'v'
  | _ => none

def takesValue : Switch → Bool
  | help => false
  | verbose => false
  | _ => true

end Switch

/-- Why a command line was refused. -/
inductive UsageError where
  | unknownOption (name : String) (similar : List String)
  | valueMissing (name : String)
  | valueRefused (name : String)
  | unknownCommand (name : String) (similar : List String)
  | commandMissing
  | operandMissing (place : String)
  | surplusOperands (operands : List String)
  | unknownChoice (option : Switch) (value : String) (choices : List String)
  | fileMissing (place path : String)
  | isDirectory (place path : String)
  | bindingShape (text : String)
  deriving DecidableEq, Repr

namespace UsageError

/-- The names that may have been meant, put behind a message. -/
def suggestion : List String → String
  | [] => ""
  | [name] => " Did you mean " ++ quoted name ++ "?"
  | names => " (Did you mean one of: " ++ ", ".intercalate (names.map quoted) ++ "?)"

def message : UsageError → String
  | unknownOption name similar => "No such option " ++ quoted name ++ "." ++ suggestion similar
  | valueMissing name => "Option " ++ quoted name ++ " requires an argument."
  | valueRefused name => "Option " ++ quoted name ++ " does not take a value."
  | unknownCommand name similar => "No such command " ++ quoted name ++ "." ++ suggestion similar
  | commandMissing => "Missing command."
  | operandMissing place => "Missing argument '" ++ place ++ "'."
  | surplusOperands operands =>
    (if operands.length = 1 then "Got unexpected extra argument ("
      else "Got unexpected extra arguments (") ++ " ".intercalate operands ++ ")"
  | unknownChoice option value choices =>
    "Invalid value for '" ++ option.name ++ "': " ++ quoted value ++ " is not one of " ++
      ", ".intercalate (choices.map quoted) ++ "."
  | fileMissing place path =>
    "Invalid value for '" ++ place ++ "': File " ++ quoted path ++ " does not exist."
  | isDirectory place path =>
    "Invalid value for '" ++ place ++ "': File " ++ quoted path ++ " is a directory."
  | bindingShape text =>
    "Invalid value for " ++ Switch.binding.name ++ ": expected NAME=VALUE, got " ++ quoted text

/-- Whether the message stands under the usage of the command. -/
def showsUsage : UsageError → Bool
  | valueMissing _ => false
  | valueRefused _ => false
  | _ => true

end UsageError

/-- An option as it was given, with an empty value if it takes none. -/
structure Use where
  switch : Switch
  value : String := ""
  deriving DecidableEq, Repr

/-- What one argument asks for: some options, and perhaps one that waits for its value. -/
structure Request where
  uses : List Use := []
  waiting : Option Switch := none

/-- An option by its long name. An unknown name is refused together with the known names that it
is close to. -/
def readName (known : List Switch) (name : String) (value? : Option String) :
    Except UsageError Request :=
  match known.find? (·.name == name) with
  | none => .error (.unknownOption name (closeTo name (known.map (·.name))))
  | some switch =>
    match switch.takesValue, value? with
    | true, some value => .ok { uses := [{ switch, value }] }
    | true, none => .ok { waiting := some switch }
    | false, none => .ok { uses := [{ switch }] }
    | false, some _ => .error (.valueRefused name)

/-- Options by their letters. -/
def readLetters (known : List Switch) : List Char → Except UsageError (List Use)
  | [] => .ok []
  | letter :: rest =>
    match known.find? (·.letter? == some letter) with
    | none => .error (.unknownOption ("-" ++ letter.toString) [])
    | some switch => (readLetters known rest).map ({ switch } :: ·)

/-- Reads an argument that begins with a dash. -/
def readRequest (known : List Switch) (argument : List Char) : Except UsageError Request :=
  match argument with
  | '-' :: '-' :: _ =>
    let name := String.ofList (argument.takeWhile (· != '='))
    match argument.dropWhile (· != '=') with
    | _ :: value => readName known name (some (String.ofList value))
    | [] => readName known name none
  | _ => (readLetters known (argument.drop 1)).map fun uses => { uses }

/-- The options and operands of a command line, both in their order. -/
structure Line where
  uses : List Use := []
  operands : List String := []

/-- Whether an argument asks for options. A lone dash is an operand. -/
def asksForOption (argument : List Char) : Bool :=
  argument.head? == some '-' && 1 < argument.length

/-- Cuts a command line. If it is `mixed`, options can follow operands. Two dashes end the
options in any case. -/
def Line.read (known : List Switch) (mixed : Bool) : List String → Except UsageError Line
  | [] => .ok {}
  | argument :: rest =>
    if argument = "--" then .ok { operands := rest }
    else if asksForOption argument.toList then
      match readRequest known argument.toList with
      | .error error => .error error
      | .ok request =>
        match request.waiting with
        | none =>
          (Line.read known mixed rest).map fun line =>
            { line with uses := request.uses ++ line.uses }
        | some switch =>
          match rest with
          | [] => .error (.valueMissing switch.name)
          | value :: more =>
            (Line.read known mixed more).map fun line =>
              { line with uses := request.uses ++ { switch, value } :: line.uses }
    else if mixed then
      (Line.read known mixed rest).map fun line =>
        { line with operands := argument :: line.operands }
    else .ok { operands := argument :: rest }

namespace Line

/-- The values given for an option, in order. -/
def values (line : Line) (switch : Switch) : List String :=
  (line.uses.filter (·.switch == switch)).map (·.value)

/-- The last value given for an option. -/
def value? (line : Line) (switch : Switch) : Option String := (line.values switch).getLast?

def has (line : Line) (switch : Switch) : Bool := line.uses.any (·.switch == switch)

/-- The options in the order of their first use. -/
def switches (line : Line) : List Switch := (line.uses.map (·.switch)).eraseDups

/-- The operand of a command that takes one. -/
def operand (line : Line) (place : String) : Except UsageError String :=
  match line.operands with
  | [] => .error (.operandMissing place)
  | first :: _ => .ok first

/-- Refuses operands beyond the first few. -/
def noOperandsAfter (line : Line) (count : Nat) : Except UsageError Unit :=
  match line.operands.drop count with
  | [] => .ok ()
  | surplus => .error (.surplusOperands surplus)

end Line

end Placement.Command
