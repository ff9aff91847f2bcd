import ConstraintLogic.Geometry
/-!
# Labels

Free-standing texts, which no rule looks at.
-/

namespace ConstraintLogic

/-- Where a text lies relative to its position, along one axis. -/
inductive Align where
  | start
  | center
  | finish
deriving DecidableEq, Repr

namespace Align

def parse : String → Except Fault Align
  | "left" | "top" => .ok start
  | "center" => .ok center
  | "right" | "bottom" => .ok finish
  | word => .error (.format (.alignment word))

end Align

structure Label where
  id : Ident
  position : Point
  text : String
  halign : Align
  valign : Align

end ConstraintLogic
