import Placement.Formula.Error

namespace Placement

inductive Category where
  | arithmetic
  | rounding
  | trigonometry
  | exponential
  | interpolation
  | comparison
  deriving DecidableEq, Repr

namespace Category

def all : List Category :=
  [arithmetic, rounding, trigonometry, exponential, interpolation, comparison]

def name : Category → String
  | arithmetic => "arithmetic"
  | rounding => "rounding"
  | trigonometry => "trigonometry"
  | exponential => "exponential"
  | interpolation => "interpolation"
  | comparison => "comparison"

def ofName? (name : String) : Option Category := all.find? (·.name == name)

end Category

structure Parameter where
  name : String
  description : String
  required : Bool := true
  /-- Stands for any number of arguments. -/
  variadic : Bool := false
  deriving DecidableEq, Repr

/-- A function on binary32 values with results in `α`. -/
structure Definition (α : Type) where
  name : String
  description : String
  category : Category
  parameters : List Parameter
  implementation : List Single → α
  examples : List String := []

namespace Definition

variable {α : Type}

def isVariadic (f : Definition α) : Bool := f.parameters.any (·.variadic)

/-- The least number of arguments: one for each required parameter. -/
def minArguments (f : Definition α) : Nat := f.parameters.countP (·.required)

/-- The number of arguments that count, unless any number does. -/
def maxArguments? (f : Definition α) : Option Nat :=
  if f.isVariadic then none else some f.parameters.length

/-- The arguments that count. -/
def relevant (f : Definition α) (arguments : List Single) : List Single :=
  match f.maxArguments? with
  | some most => arguments.take most
  | none => arguments

/-- Applies the function. Surplus arguments are dropped, missing ones are an error. -/
def call (f : Definition α) (arguments : List Single) : Except EvaluationError α :=
  if arguments.length < f.minArguments then
    .error (.fewArguments f.name f.minArguments arguments.length)
  else .ok (f.implementation (f.relevant arguments))

end Definition

/-- Functions by name. -/
structure Registry (α : Type) where
  definitions : List (Definition α) := []

/-- The documentation of some functions, and their names grouped by category. -/
structure Documentation (α : Type) where
  functions : List (Definition α)
  byCategory : List (Category × List String)

namespace Registry

variable {α : Type}

def find? (registry : Registry α) (name : String) : Option (Definition α) :=
  registry.definitions.find? (·.name == name)

def contains (registry : Registry α) (name : String) : Bool :=
  registry.definitions.any (·.name == name)

/-- Adds a function. One of the same name is replaced where it stands. -/
def register (registry : Registry α) (f : Definition α) : Registry α :=
  if registry.contains f.name then
    ⟨registry.definitions.map fun old => if old.name == f.name then f else old⟩
  else ⟨registry.definitions ++ [f]⟩

/-- The registry after registering a list of functions. -/
def ofList (definitions : List (Definition α)) : Registry α :=
  definitions.foldl register {}

def get (registry : Registry α) (name : String) : Except EvaluationError (Definition α) :=
  match registry.find? name with
  | some f => .ok f
  | none => .error (.unknownFunction name)

def size (registry : Registry α) : Nat := registry.definitions.length

def names (registry : Registry α) : List String := registry.definitions.map (·.name)

def ofCategory (registry : Registry α) (category : Category) : List (Definition α) :=
  registry.definitions.filter (·.category == category)

/-- Puts a name at the end of its category's group, which is opened if there is none. -/
def addToGroup (category : Category) (name : String) :
    List (Category × List String) → List (Category × List String)
  | [] => [(category, [name])]
  | group :: rest =>
    if group.1 = category then (group.1, group.2 ++ [name]) :: rest
    else group :: addToGroup category name rest

/-- The documentation of all functions, or of those in one category. -/
def document (registry : Registry α) (category? : Option Category) : Documentation α :=
  let functions := match category? with
    | none => registry.definitions
    | some category => registry.ofCategory category
  ⟨functions, functions.foldl (fun groups f => addToGroup f.category f.name groups) []⟩

end Registry

end Placement
