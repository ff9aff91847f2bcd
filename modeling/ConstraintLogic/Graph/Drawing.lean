import ConstraintLogic.Graph.Flow
/-!
# Drawing

Where things lie on paper, for those who draw a graph.
-/

namespace ConstraintLogic.Graph

def bounds? (g : Graph) : Option Bounds :=
  Bounds.around? (g.vertices.toList.map fun (_, v) => v.position)

def endPositions? (g : Graph) (e : Edge) : Option (Point × Point) := do
  let source ← g.vertices[e.source]?
  let target ← g.vertices[e.target]?
  return (source.position, target.position)

/-- The middle between the two ends. -/
def center? (g : Graph) (e : Edge) : Option Point :=
  (g.endPositions? e).map fun (p, q) => (p + q) / (2 : Float)

/-- The step from the source to the target. -/
def delta? (g : Graph) (e : Edge) : Option Point :=
  (g.endPositions? e).map fun (p, q) => q - p

private def requireEnds (e : Edge) : Option Point → Except Fault Point
  | some p => .ok p
  | none => .error (.referential (.endpointsGone e.id))

def edgeCenter (g : Graph) (id : Ident) : Except Fault Point := do
  let e ← g.edge id
  requireEnds e (g.center? e)

def edgeDelta (g : Graph) (id : Ident) : Except Fault Point := do
  let e ← g.edge id
  requireEnds e (g.delta? e)

/-- The direction from a vertex to the one across an edge, unless that is the same vertex or lies
at the same place. -/
def neighbourDirection? (g : Graph) (v : Vertex) (e : Edge) : Option Point := do
  let across ← (e.opposite v.id).toOption
  if across = v.id then none
  else
    let neighbour ← g.vertices[across]?
    (neighbour.position - v.position).unit?

/-- The direction in which a vertex has most room for one more edge. -/
def preferredDirection (g : Graph) (v : Vertex) : Point :=
  Point.away ((g.incident v).filterMap (g.neighbourDirection? v))

end ConstraintLogic.Graph
