import Placement.Binary.Arithmetic
import Placement.Datum

namespace Placement

inductive Bound where
  | number (value : Single)
  | object (value : Datum)

namespace Bound

instance : Inhabited Bound := ⟨object .null⟩

/-- Numbers below 0.0001 and from a million on are written with an exponent. -/
def numbers : Notation := { lowest := -4, highest := 6 }

def isNumber : Bound → Bool
  | number _ => true
  | object _ => false

def written : Bound → String
  | number x => "NumberValue(value=np.float32(" ++ numbers.shortest x ++ "))"
  | object value => "ObjectValue(value=" ++ value.written ++ ")"

/-- What keeps a bound value from being written, however deep it nests. -/
def hindrance? : Bound → Option WritingError
  | number _ => none
  | object value => value.hindrance? none

end Bound

/-- The binary32 value of an integer, rounded to binary64 first. There is none beyond the
binary64 range. -/
def singleOfInt? (n : Int) : Option Single :=
  let wide : Double := .ofInt n
  if wide.isInfinite then none else some wide.toSingle

/-- The binary64 value nearest to a rational number. -/
def doubleOfRat (q : Rat) : Double := .ofRatio (decide (q.num < 0)) q.num.natAbs q.den

/-- The binary32 value of a rational number, rounded to binary64 first. There is none beyond the
binary64 range. -/
def singleOfRat? (q : Rat) : Option Single :=
  let wide := doubleOfRat q
  if wide.isInfinite then none else some wide.toSingle

/-- Numbers become binary32, all else stays as it is. -/
def Bound.ofDatum? : Datum → Option Bound
  | .int n => (singleOfInt? n).map .number
  | .rational q => (singleOfRat? q).map .number
  | .float x => some (.number x.toSingle)
  | value => some (.object value)

/-- What a caller may bind a name to: a datum, or a value that is bound already. -/
inductive Given where
  | datum (value : Datum)
  | bound (value : Bound)

/-- A bound value is taken over unchanged. -/
def Given.bind? : Given → Option Bound
  | .datum value => Bound.ofDatum? value
  | .bound value => some value

end Placement
