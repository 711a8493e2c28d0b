import Placement.Binary.Basic

namespace Placement.Binary

variable {F : Format}

def neg : Binary F → Binary F
  | nan => nan
  | signed negative code => signed (!negative) code

def abs : Binary F → Binary F
  | nan => nan
  | signed _ code => signed false code

/-- The magnitude of the first value under the sign of the second. -/
def withSign : Binary F → Bool → Binary F
  | nan, _ => nan
  | signed _ code, negative => signed negative code

def isNegative : Binary F → Bool
  | nan => false
  | signed negative _ => negative

/-- The signed number of units under a sign and a code. -/
def signedUnits (F : Format) (negative : Bool) (code : Nat) : Int :=
  if negative then -(F.units code : Int) else F.units code

/-- A sum of zero is positive unless both operands are negative. -/
def add : Binary F → Binary F → Binary F
  | nan, _ => nan
  | signed _ _, nan => nan
  | signed s a, signed t b =>
    if a.val = F.infinityCode then
      if b.val = F.infinityCode ∧ s ≠ t then nan else infinity s
    else if b.val = F.infinityCode then infinity t
    else
      let sum := signedUnits F s a.val + signedUnits F t b.val
      if sum = 0 then zero (s && t)
      else ofUnits (decide (sum < 0)) sum.natAbs 1

def sub (x y : Binary F) : Binary F := x.add y.neg

def mul : Binary F → Binary F → Binary F
  | nan, _ => nan
  | signed _ _, nan => nan
  | signed s a, signed t b =>
    if a.val = F.infinityCode ∨ b.val = F.infinityCode then
      if a.val = 0 ∨ b.val = 0 then nan else infinity (s ^^ t)
    else ofUnits (s ^^ t) (F.units a.val * F.units b.val) F.one

/-- Division by zero gives an infinity, of zero by zero not-a-number. -/
def div : Binary F → Binary F → Binary F
  | nan, _ => nan
  | signed _ _, nan => nan
  | signed s a, signed t b =>
    if a.val = F.infinityCode then
      if b.val = F.infinityCode then nan else infinity (s ^^ t)
    else if b.val = F.infinityCode then zero (s ^^ t)
    else if b.val = 0 then
      if a.val = 0 then nan else infinity (s ^^ t)
    else ofUnits (s ^^ t) (F.units a.val * F.one) (F.units b.val)

/-- The remainder of truncated division. It is exact and has the sign of the dividend. -/
def rem : Binary F → Binary F → Binary F
  | nan, _ => nan
  | signed _ _, nan => nan
  | signed s a, signed _ b =>
    if a.val = F.infinityCode ∨ b.val = 0 then nan
    else if b.val = F.infinityCode then signed s a
    else ofUnits s (F.units a.val % F.units b.val) 1

/-- The whole part, toward zero. -/
def trunc : Binary F → Binary F
  | nan => nan
  | signed s a =>
    if a.val = F.infinityCode then signed s a
    else ofUnits s (F.units a.val / F.one * F.one) 1

/-- The magnitude raised to a whole number. -/
def roundAway : Binary F → Binary F
  | nan => nan
  | signed s a =>
    if a.val = F.infinityCode then signed s a
    else ofUnits s ((F.units a.val + F.one - 1) / F.one * F.one) 1

def floor (x : Binary F) : Binary F := if x.isNegative then x.roundAway else x.trunc

def ceil (x : Binary F) : Binary F := if x.isNegative then x.trunc else x.roundAway

/-- The whole part as an integer, if there is one. -/
def toInt? : Binary F → Option Int
  | nan => none
  | signed s a =>
    if a.val = F.infinityCode then none
    else some (if s then -((F.units a.val / F.one : Nat) : Int) else (F.units a.val / F.one : Nat))

instance : Neg (Binary F) := ⟨neg⟩
instance : Add (Binary F) := ⟨add⟩
instance : Sub (Binary F) := ⟨sub⟩
instance : Mul (Binary F) := ⟨mul⟩
instance : Div (Binary F) := ⟨div⟩
instance : Mod (Binary F) := ⟨rem⟩

/-- A whole number divided by another, rounded once. -/
def ofRatio (negative : Bool) (numerator denominator : Nat) : Binary F :=
  ofUnits negative (numerator * F.one) denominator

def half : Binary F := ofRatio false 1 2

end Placement.Binary
