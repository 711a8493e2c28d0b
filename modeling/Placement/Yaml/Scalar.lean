import Placement.Binary.Arithmetic
import Placement.Datum

/-!
Plain scalars and the types they are read as: words for truth values and null, integers in four
bases and in sixties, numbers with a point, dates, and text for all else. The form of a scalar
decides on its type, and a few scalars of the right form have no value.
-/

namespace Placement.Yaml

/-- Why a scalar in the form of a number or a date has no value. -/
inductive ScalarError where
  | noDigits (base : Nat)
  | tooManyDigits (count : Nat)
  | moment (error : MomentError)
  deriving DecidableEq, Repr

def ScalarError.message : ScalarError → String
  | noDigits base => "invalid literal for int() with base " ++ writeInt base ++ ": ''"
  | tooManyDigits count =>
    "Exceeds the limit (" ++ writeInt integerDigitLimit ++
      " digits) for integer string conversion: value has " ++ writeInt count ++
      " digits; use sys.set_int_max_str_digits() to increase the limit"
  | moment error => error.message

/-- The error as it is met outside of documents. -/
def ScalarError.foreign (error : ScalarError) : ForeignError where
  kind := "ValueError"
  message := error.message

/-- What a plain scalar stands for. -/
inductive Scalar where
  | null
  | bool (value : Bool)
  | int (value : Int)
  | float (value : Double)
  | moment (value : Moment)
  /-- The sign before what a mapping takes in from others. -/
  | merge
  /-- The sign for the value itself. -/
  | value
  | refused (error : ScalarError)
  | text

def trueWords : List String :=
  ["yes", "Yes", "YES", "true", "True", "TRUE", "on", "On", "ON"]

def falseWords : List String :=
  ["no", "No", "NO", "false", "False", "FALSE", "off", "Off", "OFF"]

def nullWords : List String := ["", "~", "null", "Null", "NULL"]

def isDigitOrLine (c : Char) : Bool := c.isDigit || c == '_'

def isHexDigit (c : Char) : Bool :=
  c.isDigit || ('a' ≤ c && c ≤ 'f') || ('A' ≤ c && c ≤ 'F')

def hexValue (c : Char) : Nat :=
  if c.isDigit then c.toNat - '0'.toNat
  else if 'a' ≤ c then c.toNat - 'a'.toNat + 10
  else c.toNat - 'A'.toNat + 10

/-- The number that digits form in a base. Underscores are passed over. -/
def inBase (base : Nat) (digits : List Char) : Nat :=
  (digits.filter (· != '_')).foldl (fun n c => base * n + hexValue c) 0

/-- The number behind the sign of a base, which needs a digit. -/
def readInBase (base : Nat) (digits : List Char) : Except ScalarError Nat :=
  if digits.all (· == '_') then .error (.noDigits base) else .ok (inBase base digits)

/-- The number that decimal digits form, of which there may not be too many. -/
def readDecimalDigits (digits : List Char) : Except ScalarError Nat :=
  let count := (digits.filter (· != '_')).length
  if integerDigitLimit < count then .error (.tooManyDigits count) else .ok (inBase 10 digits)

/-- One or two digits below sixty. -/
def isSixtieth : List Char → Bool
  | [c] => c.isDigit
  | [c, d] => '0' ≤ c && c ≤ '5' && d.isDigit
  | _ => false

/-- The pieces of a text between colons. -/
def pieces (text : List Char) : List (List Char) :=
  text.foldr (fun c held =>
    match held with
    | [] => [[c]]
    | piece :: rest => if c = ':' then [] :: piece :: rest else (c :: piece) :: rest) [[]]

/-- The size of an integer after its sign, if the text has the form of one. -/
def magnitude? (text : List Char) : Option (Except ScalarError Nat) :=
  match text with
  | ['0'] => some (.ok 0)
  | '0' :: 'b' :: digits =>
    if !digits.isEmpty && digits.all (fun c => c == '0' || c == '1' || c == '_') then
      some (readInBase 2 digits)
    else none
  | '0' :: 'x' :: digits =>
    if !digits.isEmpty && digits.all (fun c => isHexDigit c || c == '_') then
      some (readInBase 16 digits)
    else none
  | '0' :: digits =>
    if digits.all (fun c => ('0' ≤ c && c ≤ '7') || c == '_') then some (.ok (inBase 8 digits))
    else none
  | c :: _ =>
    match pieces text with
    | first :: more =>
      if c.isDigit && first.all isDigitOrLine && more.all isSixtieth then
        some ((readDecimalDigits first).map fun whole =>
          more.foldl (fun n piece => 60 * n + inBase 10 piece) whole)
      else none
    | [] => none
  | [] => none

def int? (text : List Char) : Option (Except ScalarError Int) :=
  let (negative, body) := readSign text
  (magnitude? body).map (·.map fun n => if negative then -(n : Int) else n)

/-- An exponent part, which needs a sign, or nothing. -/
def isExponent : List Char → Bool
  | [] => true
  | [_] => false
  | e :: sign :: digits =>
    (e == 'e' || e == 'E') && (sign == '+' || sign == '-') && !digits.isEmpty &&
      digits.all Char.isDigit

/-- Digits in sixties with a point after the last. -/
def sixties? (text : List Char) : Option Double :=
  match (pieces text).reverse with
  | last :: middle@(_ :: _) =>
    let whole := last.takeWhile Char.isDigit
    let first := middle.getLastD []
    match last.dropWhile Char.isDigit with
    | '.' :: fraction =>
      if isSixtieth whole && fraction.all isDigitOrLine && middle.dropLast.all isSixtieth &&
          (first.headD ' ').isDigit && first.all isDigitOrLine then
        let values : List Double := (last :: middle).map fun piece =>
          ((readDecimal? (piece.filter (· != '_'))).getD ⟨0, 0⟩).toBinary Format.double false
        let units := values.zipIdx.map fun (value, place) => value * Binary.ofNat (Nat.pow 60 place)
        some (units.foldl (· + ·) (.zero false))
      else none
    | _ => none
  | _ => none

/-- A number with a point. Without digits before the point it takes no sign. -/
def float? (text : List Char) : Option Double :=
  let (negative, body) := readSign text
  let number (digits : List Char) : Option Double :=
    (readDecimal? (digits.filter (· != '_'))).map (Decimal.toBinary Format.double negative)
  if String.ofList body ∈ [".inf", ".Inf", ".INF"] then some (.infinity negative)
  else if String.ofList text ∈ [".nan", ".NaN", ".NAN"] then some .nan
  else
    match text, body with
    | '.' :: c :: rest, _ =>
      if c.isDigit && isExponent (rest.dropWhile isDigitOrLine) then number body else none
    | _, c :: rest =>
      match c.isDigit, rest.dropWhile isDigitOrLine with
      | true, '.' :: fraction =>
        if isExponent (fraction.dropWhile isDigitOrLine) then number body else none
      | true, ':' :: _ => (sixties? body).map fun x => if negative then x.neg else x
      | _, _ => none
    | _, [] => none

/-- A number of some digits, and the text behind it. -/
def takeNumber (least most : Nat) (text : List Char) : Option (Nat × List Char) :=
  let digits := text.takeWhile Char.isDigit
  if least ≤ digits.length && digits.length ≤ most then
    some (inBase 10 digits, text.drop digits.length)
  else none

def dropChar (c : Char) : List Char → Option (List Char)
  | d :: rest => if c = d then some rest else none
  | [] => none

def isSpaceOrTab (c : Char) : Bool := c == ' ' || c == '\t'

/-- The zone at the end of a time, which can be missing. Blanks stand only before a zone. -/
def zone? (text : List Char) : Option (Option Int) :=
  match text.dropWhile isSpaceOrTab with
  | [] => if text.isEmpty then some none else none
  | ['Z'] => some (some 0)
  | sign :: rest =>
    if sign == '+' || sign == '-' then do
      let (hours, after) ← takeNumber 1 2 rest
      let (minutes, behind) ← match after with
        | ':' :: more => takeNumber 2 2 more
        | _ => some (0, after)
      let offset : Int := 60 * hours + minutes
      if behind.isEmpty then some (some (if sign == '-' then -offset else offset)) else none
    else none

/-- A time of day behind a date. Of a fraction six digits count. -/
def timeOfDay? (text : List Char) : Option TimeOfDay := do
  let (hour, rest) ← takeNumber 1 2 text
  let (minute, rest) ← takeNumber 2 2 (← dropChar ':' rest)
  let (second, rest) ← takeNumber 2 2 (← dropChar ':' rest)
  let (fraction, rest) := match rest with
    | '.' :: more => (more.takeWhile Char.isDigit, more.dropWhile Char.isDigit)
    | _ => ([], rest)
  let microsecond := inBase 10 ((fraction ++ List.replicate 6 '0').take 6)
  return { hour, minute, second, microsecond, offset? := ← zone? rest }

/-- The parts of a date. Without a time its month and day need two digits. -/
def moment? (text : List Char) : Option Moment := do
  let (year, rest) ← takeNumber 4 4 text
  let (month, rest) ← takeNumber 1 2 (← dropChar '-' rest)
  let (day, rest) ← takeNumber 1 2 (← dropChar '-' rest)
  match rest with
  | [] => if text.length = 10 then some { year, month, day } else none
  | c :: more =>
    if c = 'T' ∨ c = 't' then return { year, month, day, time? := some (← timeOfDay? more) }
    else if isSpaceOrTab c then
      return { year, month, day, time? := some (← timeOfDay? (more.dropWhile isSpaceOrTab)) }
    else none

/-- What a plain scalar is read as. -/
def resolve (text : List Char) : Scalar :=
  let word := String.ofList text
  if word ∈ nullWords then .null
  else if word ∈ trueWords then .bool true
  else if word ∈ falseWords then .bool false
  else if word = "<<" then .merge
  else if word = "=" then .value
  else
    match float? text, int? text, moment? text with
    | some x, _, _ => .float x
    | none, some (.ok n), _ => .int n
    | none, some (.error error), _ => .refused error
    | none, none, some m =>
      match m.error? with
      | none => .moment m
      | some error => .refused (.moment error)
    | none, none, none => .text

end Placement.Yaml
