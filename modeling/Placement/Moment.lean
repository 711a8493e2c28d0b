import Placement.Text.Integer

namespace Placement

/-- A time of day. The offset is the number of minutes by which it is ahead of universal time. -/
structure TimeOfDay where
  hour : Nat
  minute : Nat
  second : Nat
  microsecond : Nat := 0
  offset? : Option Int := none
  deriving DecidableEq, Repr

/-- A date, perhaps with a time of day. -/
structure Moment where
  year : Nat
  month : Nat
  day : Nat
  time? : Option TimeOfDay := none
  deriving DecidableEq, Repr

/-- A span of minutes, as whole days and the seconds beyond them. -/
def writeSpan (minutes : Int) : String :=
  let days := minutes.fdiv 1440
  let seconds := 60 * minutes.fmod 1440
  let parts := (if days = 0 then [] else ["days=" ++ writeInt days]) ++
    (if seconds = 0 then [] else ["seconds=" ++ writeInt seconds])
  "datetime.timedelta(" ++ (if parts.isEmpty then "0" else ", ".intercalate parts) ++ ")"

/-- Why the parts make no date. -/
inductive MomentError where
  | year (value : Nat)
  | month
  | day
  | hour
  | minute
  | second
  | offset (minutes : Int)
  deriving DecidableEq, Repr

def MomentError.message : MomentError → String
  | year value => "year " ++ writeInt value ++ " is out of range"
  | month => "month must be in 1..12"
  | day => "day is out of range for month"
  | hour => "hour must be in 0..23"
  | minute => "minute must be in 0..59"
  | second => "second must be in 0..59"
  | offset minutes =>
    "offset must be a timedelta strictly between -timedelta(hours=24) and timedelta(hours=24), " ++
      "not " ++ writeSpan minutes ++ "."

namespace Moment

def isLeapYear (year : Nat) : Bool := year % 4 == 0 && (year % 100 != 0 || year % 400 == 0)

def daysInMonth (year month : Nat) : Nat :=
  if month = 2 then (if isLeapYear year then 29 else 28)
  else if month ∈ [4, 6, 9, 11] then 30
  else 31

/-- What is wrong with the date. -/
def dateError? (m : Moment) : Option MomentError :=
  if m.year = 0 then some (.year m.year)
  else if m.month = 0 ∨ 12 < m.month then some .month
  else if m.day = 0 ∨ daysInMonth m.year m.month < m.day then some .day
  else none

/-- What is wrong with the offset of a time. It stays below a day. -/
def offsetError? (t : TimeOfDay) : Option MomentError :=
  match t.offset? with
  | some minutes => if minutes.natAbs < 1440 then none else some (.offset minutes)
  | none => none

/-- What is wrong with the time on a clock. -/
def clockError? (t : TimeOfDay) : Option MomentError :=
  if 23 < t.hour then some .hour
  else if 59 < t.minute then some .minute
  else if 59 < t.second then some .second
  else none

/-- What is wrong with the parts, of which the offset is looked at first. -/
def error? (m : Moment) : Option MomentError :=
  match m.time? with
  | none => m.dateError?
  | some t => (offsetError? t).or (m.dateError?.or (clockError? t))

/-- The number of days up to a date. -/
def dayNumber (m : Moment) : Nat :=
  let before := m.year - 1
  365 * before + before / 4 - before / 100 + before / 400 +
    ((List.range m.month).drop 1).foldl (fun days month => days + daysInMonth m.year month) 0 + m.day

/-- The microseconds since the first day in universal time. -/
def instant (m : Moment) (t : TimeOfDay) (offset : Int) : Int :=
  let minutes : Int := (m.dayNumber * 24 + t.hour) * 60 + t.minute
  ((minutes - offset) * 60 + t.second) * 1000000 + t.microsecond

/-- Whether two are the same date, or the same time. Times with an offset are compared in
universal time. -/
def same (m n : Moment) : Bool :=
  match m.time?, n.time? with
  | some s, some t =>
    match s.offset?, t.offset? with
    | some a, some b => m.instant s a == n.instant t b
    | _, _ => m == n
  | _, _ => m == n

/-- Hours and minutes by which a time is ahead or behind. -/
def offsetText (minutes : Int) : String :=
  (if minutes < 0 then "-" else "+") ++ paddedDigits 2 (minutes.natAbs / 60) ++ ":" ++
    paddedDigits 2 (minutes.natAbs % 60)

def timeText (t : TimeOfDay) : String :=
  paddedDigits 2 t.hour ++ ":" ++ paddedDigits 2 t.minute ++ ":" ++ paddedDigits 2 t.second ++
    (if t.microsecond = 0 then "" else "." ++ paddedDigits 6 t.microsecond) ++
    (match t.offset? with
    | some minutes => offsetText minutes
    | none => "")

/-- The date from the year to the day, and the time from the hour on. -/
def text (m : Moment) : String :=
  paddedDigits 4 m.year ++ "-" ++ paddedDigits 2 m.month ++ "-" ++ paddedDigits 2 m.day ++
    (match m.time? with
    | some t => " " ++ timeText t
    | none => "")

/-- The parts of a time in their written form. Seconds and microseconds can be left out. -/
def writtenTime (t : TimeOfDay) : List String :=
  [writeInt t.hour, writeInt t.minute] ++
    (if t.microsecond ≠ 0 then [writeInt t.second, writeInt t.microsecond]
      else if t.second ≠ 0 then [writeInt t.second]
      else []) ++
    (match t.offset? with
    | some 0 => ["tzinfo=datetime.timezone.utc"]
    | some minutes => ["tzinfo=datetime.timezone(" ++ writeSpan minutes ++ ")"]
    | none => [])

/-- The written form, which names the parts in their order. -/
def written (m : Moment) : String :=
  let date := [writeInt m.year, writeInt m.month, writeInt m.day]
  match m.time? with
  | some t => "datetime.datetime(" ++ ", ".intercalate (date ++ writtenTime t) ++ ")"
  | none => "datetime.date(" ++ ", ".intercalate date ++ ")"

/-- The word for the kind of a date. -/
def kind (m : Moment) : String := if m.time?.isSome then "datetime" else "date"

end Moment

end Placement
