import Placement.Binary.Arithmetic

/-!
Elementary functions. They are computed in binary64 by the machine's mathematical library and
rounded once to the format of the argument.
-/

namespace Placement.Binary

/-- The machine's number with the same encoding. -/
def toMachine (x : Double) : Float := Float.ofBits x.bits.toUInt64

def ofMachine (x : Float) : Double := ofBits x.toBits.toNat

/-- Lifts a function of the machine to binary64. -/
def lift (f : Float → Float) (x : Double) : Double := ofMachine (f x.toMachine)

def lift₂ (f : Float → Float → Float) (x y : Double) : Double :=
  ofMachine (f x.toMachine y.toMachine)

def sqrt : Double → Double := lift Float.sqrt
def sin : Double → Double := lift Float.sin
def cos : Double → Double := lift Float.cos
def tan : Double → Double := lift Float.tan
def asin : Double → Double := lift Float.asin
def acos : Double → Double := lift Float.acos
def atan : Double → Double := lift Float.atan
def exp : Double → Double := lift Float.exp
def log : Double → Double := lift Float.log
def log10 : Double → Double := lift Float.log10
def atan2 : Double → Double → Double := lift₂ Float.atan2
def pow : Double → Double → Double := lift₂ Float.pow

end Placement.Binary
