import Placement.Decimal.Read
import Placement.Formula.Conversion

namespace Placement

/-- Why a depth was refused. -/
inductive LimitError where
  | negative (depth : Int)
  | notAnInteger (text : String)
  deriving DecidableEq

def LimitError.message : LimitError → String
  | negative depth => "max_depth must be non-negative, got " ++ writeInt depth
  | notAnInteger text => "TRANSFORMEXPR_MAX_DEPTH must be an integer, got " ++ quoted text

namespace Limits

/-- The limits with a greatest depth. -/
def ofDepth (depth : Int) : Except LimitError Limits :=
  if depth < 0 then .error (.negative depth) else .ok { maxDepth := some depth.toNat }

/-- The limits with a depth that may be left open. -/
def ofDepth? : Option Int → Except LimitError Limits
  | none => .ok {}
  | some depth => ofDepth depth

/-- The limits that a setting asks for. Without a setting, or with a blank one, there are none. -/
def ofSetting (setting : Option String) : Except LimitError Limits :=
  let text := strip ((setting.getD "").toList)
  if text.isEmpty then .ok {}
  else
    match readInt? text with
    | some depth => ofDepth depth
    | none => .error (.notAnInteger (String.ofList text))

end Limits

end Placement
