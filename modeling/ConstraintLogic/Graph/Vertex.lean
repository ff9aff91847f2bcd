import ConstraintLogic.Graph.Gate
/-!
# Vertices
-/

namespace ConstraintLogic

/-- A vertex knows its edges by their identifiers alone. -/
structure Vertex where
  id : Ident
  position : Point
  visible : Bool
  muted : Bool
  edges : IdentSet
  gate : Gate

namespace Vertex

def isolated (id : Ident) (position : Point) (visible : Bool) (gate : Gate) : Vertex where
  id := id
  position := position
  visible := visible
  muted := false
  edges := ∅
  gate := gate

def list (v : Vertex) (edge : Ident) : Vertex :=
  { v with edges := v.edges.insert edge }

def unlist (v : Vertex) (edge : Ident) : Vertex :=
  { v with edges := v.edges.erase edge }

def text (v : Vertex) : String :=
  s!"{v.id}({Decimal.plain.render v.position.x}, {Decimal.plain.render v.position.y})"

end Vertex

end ConstraintLogic
