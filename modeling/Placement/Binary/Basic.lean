import Placement.Binary.Format

namespace Placement

/-- A value of the format `F`. Not-a-number carries no payload. -/
inductive Binary (F : Format) where
  | nan
  | signed (negative : Bool) (code : Fin (F.infinityCode + 1))
  deriving DecidableEq

/-- A binary32 value. -/
abbrev Single := Binary Format.single

/-- A binary64 value. -/
abbrev Double := Binary Format.double

namespace Binary

variable {F : Format}

def infinity (negative : Bool) : Binary F :=
  .signed negative ⟨F.infinityCode, Nat.lt_succ_self _⟩

def zero (negative : Bool) : Binary F :=
  .signed negative ⟨0, Nat.succ_pos _⟩

instance : Inhabited (Binary F) := ⟨zero false⟩

/-- The value nearest to `numerator / denominator` units, with the given sign. -/
def ofUnits (negative : Bool) (numerator : Nat) (denominator : Nat) : Binary F :=
  .signed negative ⟨F.nearest numerator denominator, Nat.lt_succ_of_le (F.nearest_le _ _)⟩

/-- The value nearest to a natural number. -/
def ofNat (n : Nat) : Binary F := ofUnits false (n * F.one) 1

/-- The value nearest to an integer. -/
def ofInt (n : Int) : Binary F := ofUnits (decide (n < 0)) (n.natAbs * F.one) 1

def isNaN : Binary F → Bool
  | nan => true
  | signed _ _ => false

def isInfinite : Binary F → Bool
  | nan => false
  | signed _ code => code.val == F.infinityCode

def isFinite : Binary F → Bool
  | nan => false
  | signed _ code => code.val != F.infinityCode

/-- The place of a value in increasing order, the two zeros sharing one. -/
def order? : Binary F → Option Int
  | nan => none
  | signed true code => some (-(code.val : Int))
  | signed false code => some (code.val : Int)

/-- Strictly less by value, which nothing is with not-a-number. -/
def lt (x y : Binary F) : Bool :=
  match x.order?, y.order? with
  | some a, some b => a < b
  | _, _ => false

/-- At most by value. -/
def le (x y : Binary F) : Bool :=
  match x.order?, y.order? with
  | some a, some b => a ≤ b
  | _, _ => false

/-- The first value of a list that no later one exceeds: a later value replaces the one held
only if it is strictly greater. -/
def maxFrom (first : Binary F) (rest : List (Binary F)) : Binary F :=
  rest.foldl (fun held next => if held.lt next then next else held) first

/-- The counterpart of `maxFrom` for the least value. -/
def minFrom (first : Binary F) (rest : List (Binary F)) : Binary F :=
  rest.foldl (fun held next => if next.lt held then next else held) first

/-- The value in another format, rounded to the nearest if it does not fit. -/
def convert {F : Format} (G : Format) : Binary F → Binary G
  | nan => nan
  | signed negative code =>
    if code.val = F.infinityCode then infinity negative
    else ofUnits negative (F.units code.val * G.one) F.one

/-- The nearest binary32 value. -/
def toSingle (x : Binary F) : Single := x.convert Format.single

/-- The nearest binary64 value. For a binary32 value this is exact. -/
def toDouble (x : Binary F) : Double := x.convert Format.double

/-- The interchange encoding: sign, exponent field, fraction. -/
def bits : Binary F → Nat
  | nan => F.infinityCode + Nat.pow 2 (F.fractionBits - 1)
  | signed negative code =>
    (if negative then F.signBit else 0) + code.val

/-- Reads the interchange encoding. Every encoding above infinity is not-a-number. -/
def ofBits (n : Nat) : Binary F :=
  let code := n % F.signBit
  if fits : code ≤ F.infinityCode then
    .signed (n / F.signBit % 2 == 1) ⟨code, Nat.lt_succ_of_le fits⟩
  else nan

end Binary

end Placement
