import ConstraintLogic.Fault
/-!
# Positions

Points of the plane and the boxes around them. Positions only place things on paper: no rule of
the game looks at them.
-/

namespace ConstraintLogic

/-- A position, or the step between two. -/
structure Point where
  x : Float
  y : Float
deriving Repr, Inhabited

namespace Point

def origin : Point := ⟨0, 0⟩

instance : Add Point := ⟨fun p q => ⟨p.x + q.x, p.y + q.y⟩⟩
instance : Sub Point := ⟨fun p q => ⟨p.x - q.x, p.y - q.y⟩⟩
instance : Neg Point := ⟨fun p => ⟨-p.x, -p.y⟩⟩
instance : HDiv Point Float Point := ⟨fun p k => ⟨p.x / k, p.y / k⟩⟩

def norm (p : Point) : Float :=
  (p.x * p.x + p.y * p.y).sqrt

/-- The step of length one in the same direction. -/
def unit? (p : Point) : Option Point :=
  if 0 < p.norm then some (p / p.norm) else none

/-- The lesser coordinates of two points; the first on a tie, the second next to a NaN. -/
def inf (p q : Point) : Point :=
  ⟨if p.x ≤ q.x then p.x else q.x, if p.y ≤ q.y then p.y else q.y⟩

/-- The greater coordinates of two points; the first on a tie, the second next to a NaN. -/
def sup (p q : Point) : Point :=
  ⟨if p.x ≥ q.x then p.x else q.x, if p.y ≥ q.y then p.y else q.y⟩

/-- The negated mean of some directions; to the left if there are none. -/
def away (directions : List Point) : Point :=
  if directions.isEmpty then ⟨-1, 0⟩
  else -(directions.foldl (· + ·) origin / directions.length.toFloat)

end Point

/-- An upright box. -/
structure Bounds where
  min : Point
  max : Point
deriving Repr

namespace Bounds

/-- The least box around some points. -/
def around? : List Point → Option Bounds
  | [] => none
  | p :: ps => some (ps.foldl (fun b q => ⟨b.min.inf q, b.max.sup q⟩) ⟨p, p⟩)

def size (b : Bounds) : Point :=
  b.max - b.min

/-- Half of the size. -/
def extents (b : Bounds) : Point :=
  b.size / (2 : Float)

def center (b : Bounds) : Point :=
  b.min + b.extents

end Bounds

def requireFinite (what : String) (value : Float) : Except Fault Float :=
  if value.isFinite then .ok value else .error (.format (.notFinite what value))

end ConstraintLogic
