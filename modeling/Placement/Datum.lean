import Placement.Decimal.Notation
import Placement.Decimal.Read
import Placement.Moment
import Placement.Text.Quoted

/-!
Data of a host or of a document: scalars, dates, lists, mappings in their order of insertion, and
records of named fields, with their written form and what may keep them from being written.
-/

namespace Placement

/-- An error from outside of formulas and plans, with its message. -/
structure ForeignError where
  kind : String
  message : String
  deriving DecidableEq, Repr

/-- An integer has more digits than are ever written. -/
def ForeignError.tooManyDigits : ForeignError where
  kind := "ValueError"
  message := "Exceeds the limit (" ++ writeInt integerDigitLimit ++
    " digits) for integer string conversion; use sys.set_int_max_str_digits() to increase the limit"

/-- Why something has no text. -/
inductive WritingError where
  | nesting
  | foreign (error : ForeignError)
  deriving DecidableEq, Repr

def WritingError.message : WritingError → String
  | nesting => "maximum recursion depth exceeded while getting the repr of an object"
  | foreign error => error.message

/-- A value that came from outside. Documents hold no rational numbers but integers and floats,
and no records. -/
inductive Datum where
  | null
  | bool (value : Bool)
  | int (value : Int)
  | rational (value : Rat)
  | float (value : Double)
  | moment (value : Moment)
  | text (value : String)
  | list (items : List Datum)
  | mapping (entries : List (Datum × Datum))
  | record (name : String) (fields : List (String × Datum))

namespace Datum

instance : Inhabited Datum := ⟨null⟩

/-- Numbers between 0.0001 and 10000000000000000 are written out. -/
def numbers : Notation := { lowest := -4, highest := 16 }

mutual

/-- The written form, in which text stands between quotes. -/
def written : Datum → String
  | null => "None"
  | bool true => "True"
  | bool false => "False"
  | int n => writeInt n
  | rational q => "Fraction(" ++ writeInt q.num ++ ", " ++ writeInt q.den ++ ")"
  | float x => numbers.shortest x
  | moment m => m.written
  | text s => quoted s
  | list items => "[" ++ ", ".intercalate (writtenItems items) ++ "]"
  | mapping entries => "\x7b" ++ ", ".intercalate (writtenEntries entries) ++ "\x7d"
  | record name fields => name ++ "(" ++ ", ".intercalate (writtenFields fields) ++ ")"

def writtenItems : List Datum → List String
  | [] => []
  | item :: rest => written item :: writtenItems rest

def writtenEntries : List (Datum × Datum) → List String
  | [] => []
  | (key, value) :: rest => (written key ++ ": " ++ written value) :: writtenEntries rest

def writtenFields : List (String × Datum) → List String
  | [] => []
  | (name, value) :: rest => (name ++ "=" ++ written value) :: writtenFields rest

end

/-- Text stands for itself, a date and a rational number for their usual text, all else for its
written form. -/
def plainText : Datum → String
  | text s => s
  | moment m => m.text
  | rational q => if q.den = 1 then writeInt q.num else writeInt q.num ++ "/" ++ writeInt q.den
  | d => d.written

/-- What keeps an integer from being written. -/
def digitHindrance? (n : Int) : Option WritingError :=
  if n.natAbs < Nat.pow 10 integerDigitLimit then none else some (.foreign .tooManyDigits)

/-- The levels left inside of a collection. Without a number there is no limit on them. -/
def levelsInside? : Option Nat → Except WritingError (Option Nat)
  | none => .ok none
  | some 0 => .error .nesting
  | some (levels + 1) => .ok (some levels)

mutual

/-- What keeps a datum from being written if collections may nest `levels` deep. Of several
obstacles it is the first one that writing meets. -/
def hindrance? (levels : Option Nat) : Datum → Option WritingError
  | int n => digitHindrance? n
  | rational q => (digitHindrance? q.num).or (digitHindrance? q.den)
  | list items =>
    match levelsInside? levels with
    | .ok inside => itemsHindrance? inside items
    | .error error => some error
  | mapping entries =>
    match levelsInside? levels with
    | .ok inside => entriesHindrance? inside entries
    | .error error => some error
  | record _ fields =>
    match levelsInside? levels with
    | .ok inside => fieldsHindrance? inside fields
    | .error error => some error
  | _ => none

def itemsHindrance? (levels : Option Nat) : List Datum → Option WritingError
  | [] => none
  | item :: rest => (hindrance? levels item).or (itemsHindrance? levels rest)

def entriesHindrance? (levels : Option Nat) : List (Datum × Datum) → Option WritingError
  | [] => none
  | (key, value) :: rest =>
    ((hindrance? levels key).or (hindrance? levels value)).or (entriesHindrance? levels rest)

def fieldsHindrance? (levels : Option Nat) : List (String × Datum) → Option WritingError
  | [] => none
  | (_, value) :: rest => (hindrance? levels value).or (fieldsHindrance? levels rest)

end

/-- The plain text of a datum, if nothing keeps it from being written. -/
def plainText? (levels : Option Nat) (d : Datum) : Except WritingError String :=
  match d.hindrance? levels with
  | none => .ok d.plainText
  | some error => .error error

/-- The word for the kind of a datum. -/
def kind : Datum → String
  | null => "NoneType"
  | bool _ => "bool"
  | int _ => "int"
  | rational _ => "Fraction"
  | float _ => "float"
  | moment m => m.kind
  | text _ => "str"
  | list _ => "list"
  | mapping _ => "dict"
  | record name _ => name

/-- Null, false, zero and everything empty count as absent. -/
def isVoid : Datum → Bool
  | null => true
  | bool value => !value
  | int n => n == 0
  | rational q => q.num == 0
  | float x => x.order? == some 0
  | moment _ => false
  | text s => s.isEmpty
  | list items => items.isEmpty
  | mapping entries => entries.isEmpty
  | record _ _ => false

/-- The numerator and denominator of a number, with the truth values as one and zero. -/
def fraction? : Datum → Option (Int × Nat)
  | bool value => some (if value then 1 else 0, 1)
  | int n => some (n, 1)
  | rational q => some (q.num, q.den)
  | float (.signed negative code) =>
    if code.val = Format.double.infinityCode then none
    else some ((if negative then -1 else 1) * (Format.double.units code.val : Int), Format.double.one)
  | _ => none

/-- Whether two keys of a mapping are the same. Numbers are compared by value. -/
def sameKey : Datum → Datum → Bool
  | null, null => true
  | text s, text t => s == t
  | float x, float y => x.le y && y.le x
  | moment m, moment n => m.same n
  | a, b =>
    match a.fraction?, b.fraction? with
    | some (m, p), some (n, q) => m * (q : Int) == n * (p : Int)
    | _, _ => false

/-- Adds an entry. A key that is there already keeps its place and takes the new value. -/
def insert (same : Datum → Datum → Bool) (entries : List (Datum × Datum)) (key value : Datum) :
    List (Datum × Datum) :=
  if entries.any (fun entry => same entry.1 key) then
    entries.map fun entry => if same entry.1 key then (entry.1, value) else entry
  else entries ++ [(key, value)]

/-- The mapping with the given entries, inserted one after the other. -/
def ofEntries (same : Datum → Datum → Bool) (entries : List (Datum × Datum)) : Datum :=
  mapping (entries.foldl (fun held entry => insert same held entry.1 entry.2) [])

/-- The value under a text key. -/
def get? (entries : List (Datum × Datum)) (name : String) : Option Datum :=
  (entries.find? fun entry => entry.1.sameKey (text name)).map Prod.snd

end Datum

end Placement
