import Placement.Formula.Registry

namespace Placement.Builtin

/-- The ratio of a circle's circumference to its diameter. -/
def pi : Single := .ofRatio false 13176795 4194304

/-- The least positive binary32 value. -/
def epsilon : Single := .ofUnits false 1 1

/-- The constants by name. -/
def constants : List (String × Single) := [("PI", pi), ("EPSILON", epsilon)]

/-- The degrees in one radian. -/
def degreesPerRadian : Single := .ofRatio false 15019745 262144

def one : Single := .ofNat 1

/-- One for zero and positive values, minus one for all others. -/
def signOf (x : Single) : Single := if (Binary.zero false).le x then one else one.neg

/-- The value if it lies between two bounds, otherwise the bound it passes. -/
def clamp (x lower upper : Single) : Single :=
  if x.lt lower then lower else if upper.lt x then upper else x

def saturate (x : Single) : Single := clamp x (.zero false) one

/-- What is left of the whole part. -/
def frac (x : Single) : Single := x - x.trunc

/-- The nearest integer, a half going away from zero. -/
def roundHalfAway (x : Double) : Double := (x.abs + .half).floor.withSign x.isNegative

def degrees (x : Single) : Single := x * degreesPerRadian

def lerp (a b t : Single) : Single := a + (b - a) * saturate t

/-- Cubic interpolation that starts and ends level. -/
def smoothstep (a b t : Single) : Single :=
  let u := saturate t
  let eased := (Binary.ofInt (-2) : Single) * u * u * u + (Binary.ofNat 3 : Single) * u * u
  b * eased + a * (one - eased)

/-- The greater of two values, the first unless the second exceeds it. -/
def greater (a b : Single) : Single := .maxFrom a [b]

/-- The relative tolerance of `approximately`. -/
def tolerance : Single := .ofRatio false 1 1000000

/-- One if two values differ by less than a millionth of the greater and eight times the
least positive value, otherwise zero. -/
def approximately (a b : Single) : Single :=
  let allowed := greater (tolerance * greater a.abs b.abs) (epsilon * .ofNat 8)
  if (b - a).abs.lt allowed then one else .zero false

def unary (f : Single → Single) : List Single → Single
  | x :: _ => f x
  | [] => .nan

def binary (f : Single → Single → Single) : List Single → Single
  | x :: y :: _ => f x y
  | _ => .nan

def ternary (f : Single → Single → Single → Single) : List Single → Single
  | x :: y :: z :: _ => f x y z
  | _ => .nan

/-- A function computed in binary64. -/
def wide (f : Double → Double) : List Single → Single :=
  unary fun x => (f x.toDouble).toSingle

def wide₂ (f : Double → Double → Double) : List Single → Single :=
  binary fun x y => (f x.toDouble y.toDouble).toSingle

/-- The logarithm to base e, or to the base given second. -/
def logarithm : List Single → Single
  | [] => .nan
  | [x] => (Binary.log x.toDouble).toSingle
  | x :: base :: _ => (Binary.log x.toDouble / Binary.log base.toDouble).toSingle

def largest : List Single → Single
  | [] => .nan
  | x :: rest => .maxFrom x rest

def least : List Single → Single
  | [] => .nan
  | x :: rest => .minFrom x rest

/-- All built-in functions in the order of their documentation. -/
def definitions : List (Definition Single) := [
  { name := "abs"
    description := "Returns absolute value"
    category := .arithmetic
    parameters := [{ name := "value", description := "The number" }]
    implementation := unary Binary.abs
    examples := ["abs(this - 1)"] },
  { name := "sign"
    description := "Returns 1 for zero or positive values, -1 for negative values"
    category := .arithmetic
    parameters := [{ name := "value", description := "The number" }]
    implementation := unary signOf
    examples := ["sign(this) * 2"] },
  { name := "sqrt"
    description := "Returns the square root"
    category := .arithmetic
    parameters := [{ name := "value", description := "The number" }]
    implementation := wide Binary.sqrt
    examples := ["sqrt(index)"] },
  { name := "pow"
    description := "Raises a number to a power"
    category := .arithmetic
    parameters := [{ name := "value", description := "The base" },
      { name := "power", description := "The exponent" }]
    implementation := wide₂ Binary.pow
    examples := ["pow(2, index)"] },
  { name := "max"
    description := "Returns the largest argument"
    category := .arithmetic
    parameters := [{ name := "values", description := "Numbers to compare", variadic := true }]
    implementation := largest
    examples := ["max(this, 0)", "max(1, 2, index)"] },
  { name := "min"
    description := "Returns the smallest argument"
    category := .arithmetic
    parameters := [{ name := "values", description := "Numbers to compare", variadic := true }]
    implementation := least
    examples := ["min(this, 10)"] },
  { name := "clamp"
    description := "Restricts a value to the range [min, max]"
    category := .arithmetic
    parameters := [{ name := "value", description := "The number" },
      { name := "min", description := "Lower bound" },
      { name := "max", description := "Upper bound" }]
    implementation := ternary clamp
    examples := ["clamp(this, 0, 1)"] },
  { name := "saturate"
    description := "Restricts a value to the range [0, 1]"
    category := .arithmetic
    parameters := [{ name := "value", description := "The number" }]
    implementation := unary saturate
    examples := ["saturate(this)"] },
  { name := "frac"
    description := "Returns the value minus its integer part (truncated toward zero)"
    category := .arithmetic
    parameters := [{ name := "value", description := "The number" }]
    implementation := unary frac
    examples := ["frac(this)"] },
  { name := "ceil"
    description := "Rounds up to nearest integer"
    category := .rounding
    parameters := [{ name := "value", description := "The number" }]
    implementation := wide Binary.ceil
    examples := ["ceil(this)"] },
  { name := "floor"
    description := "Rounds down to nearest integer"
    category := .rounding
    parameters := [{ name := "value", description := "The number" }]
    implementation := wide Binary.floor
    examples := ["floor(this)"] },
  { name := "round"
    description := "Rounds to nearest integer, halves away from zero"
    category := .rounding
    parameters := [{ name := "value", description := "The number" }]
    implementation := wide roundHalfAway
    examples := ["round(this * 4) / 4"] },
  { name := "sin"
    description := "Returns the sine of an angle"
    category := .trigonometry
    parameters := [{ name := "value", description := "The number" }]
    implementation := wide Binary.sin
    examples := ["sin(this)"] },
  { name := "cos"
    description := "Returns the cosine of an angle"
    category := .trigonometry
    parameters := [{ name := "value", description := "The number" }]
    implementation := wide Binary.cos
    examples := ["cos(this)"] },
  { name := "tan"
    description := "Returns the tangent of an angle"
    category := .trigonometry
    parameters := [{ name := "value", description := "The number" }]
    implementation := wide Binary.tan
    examples := ["tan(this)"] },
  { name := "asin"
    description := "Returns the arc-sine of a value"
    category := .trigonometry
    parameters := [{ name := "value", description := "The number" }]
    implementation := wide Binary.asin
    examples := ["asin(this)"] },
  { name := "acos"
    description := "Returns the arc-cosine of a value"
    category := .trigonometry
    parameters := [{ name := "value", description := "The number" }]
    implementation := wide Binary.acos
    examples := ["acos(this)"] },
  { name := "atan"
    description := "Returns the arc-tangent of a value"
    category := .trigonometry
    parameters := [{ name := "value", description := "The number" }]
    implementation := wide Binary.atan
    examples := ["atan(this)"] },
  { name := "atan2"
    description := "Returns the angle whose tangent is y/x"
    category := .trigonometry
    parameters := [{ name := "y", description := "The y coordinate" },
      { name := "x", description := "The x coordinate" }]
    implementation := wide₂ Binary.atan2
    examples := ["atan2(1, index)"] },
  { name := "degrees"
    description := "Multiplies by the degrees-per-radian factor (180/PI)"
    category := .trigonometry
    parameters := [{ name := "value", description := "Angle in radians" }]
    implementation := unary degrees
    examples := ["degrees(PI / 2)"] },
  { name := "radians"
    description := "Multiplies by the degrees-per-radian factor (180/PI), same as degrees"
    category := .trigonometry
    parameters := [{ name := "value", description := "The number" }]
    implementation := unary degrees
    examples := ["radians(this)"] },
  { name := "exp"
    description := "Returns e raised to a power"
    category := .exponential
    parameters := [{ name := "value", description := "The exponent" }]
    implementation := wide Binary.exp
    examples := ["exp(index)"] },
  { name := "log"
    description := "Returns the natural logarithm, or the logarithm in a given base"
    category := .exponential
    parameters := [{ name := "value", description := "The number" },
      { name := "base", description := "Logarithm base", required := false }]
    implementation := logarithm
    examples := ["log(this)", "log(8, 2)"] },
  { name := "log10"
    description := "Returns the base-10 logarithm"
    category := .exponential
    parameters := [{ name := "value", description := "The number" }]
    implementation := wide Binary.log10
    examples := ["log10(this)"] },
  { name := "lerp"
    description := "Interpolates linearly between a and b by t (t clamped to [0, 1])"
    category := .interpolation
    parameters := [{ name := "a", description := "Start value" },
      { name := "b", description := "End value" },
      { name := "t", description := "Interpolation factor" }]
    implementation := ternary lerp
    examples := ["lerp(0, 10, index / 4)"] },
  { name := "smoothstep"
    description := "Interpolates between from and to with smoothing at the limits"
    category := .interpolation
    parameters := [{ name := "from", description := "Start value" },
      { name := "to", description := "End value" },
      { name := "t", description := "Interpolation factor" }]
    implementation := ternary smoothstep
    examples := ["smoothstep(0, 10, index / 4)"] },
  { name := "approximately"
    description := "Returns 1 if two values are nearly equal, otherwise 0"
    category := .comparison
    parameters := [{ name := "a", description := "First value" },
      { name := "b", description := "Second value" }]
    implementation := binary approximately
    examples := ["approximately(this, 0.1 + 0.2)"] }]

/-- The registry that every evaluation consults first. -/
def registry : Registry Single := ⟨definitions⟩

/-- The value of a constant. -/
def constant? (name : String) : Option Single := constants.lookup name

end Placement.Builtin
