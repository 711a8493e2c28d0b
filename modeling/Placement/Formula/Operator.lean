import Placement.Binary.Elementary

namespace Placement

inductive Operator where
  | add
  | subtract
  | multiply
  | divide
  | power
  | modulo
  deriving DecidableEq, Repr

namespace Operator

def symbol : Operator → Char
  | add => '+'
  | subtract => '-'
  | multiply => '*'
  | divide => '/'
  | power => '^'
  | modulo => '%'

/-- The lower the rank, the tighter the operator binds. -/
def rank : Operator → Nat
  | power => 1
  | multiply => 2
  | divide => 2
  | modulo => 2
  | add => 3
  | subtract => 3

def ofSymbol? : Char → Option Operator
  | '+' => some add
  | '-' => some subtract
  | '*' => some multiply
  | '/' => some divide
  | '^' => some power
  | '%' => some modulo
  | _ => none

/-- Powers are computed in binary64, all else in binary32. -/
def apply : Operator → Single → Single → Single
  | add, a, b => a + b
  | subtract, a, b => a - b
  | multiply, a, b => a * b
  | divide, a, b => a / b
  | power, a, b => (Binary.pow a.toDouble b.toDouble).toSingle
  | modulo, a, b => a % b

theorem ofSymbol?_symbol (op : Operator) : ofSymbol? op.symbol = some op := by
  cases op <;> rfl

theorem ofSymbol?_eq_some_iff {c : Char} {op : Operator} :
    ofSymbol? c = some op ↔ c = op.symbol := by
  constructor
  · intro found
    unfold ofSymbol? at found
    split at found <;> cases found <;> rfl
  · rintro rfl
    exact ofSymbol?_symbol op

end Operator

end Placement
