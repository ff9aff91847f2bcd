import ConstraintLogic.Graph.Basic
/-!
# Flow

What runs into and out of a vertex along its edges.
-/

namespace ConstraintLogic.Graph

/-- The edges that a vertex lists, in order. -/
def incident (g : Graph) (v : Vertex) : List Edge :=
  v.edges.toList.filterMap fun id => g.edges[id]?

/-- The edges of a vertex that point one way, seen from it. -/
def pointing (g : Graph) (v : Vertex) (d : Direction) : List Edge :=
  (g.incident v).filter fun e => e.direction? v.id == some d

def incoming (g : Graph) (v : Vertex) : List Edge :=
  g.pointing v .incoming

def outgoing (g : Graph) (v : Vertex) : List Edge :=
  g.pointing v .outgoing

def totalWeight (edges : List Edge) : Nat :=
  edges.foldr (fun e sum => e.weight.value + sum) 0

def inflow (g : Graph) (v : Vertex) : Nat :=
  totalWeight (g.incoming v)

def outflow (g : Graph) (v : Vertex) : Nat :=
  totalWeight (g.outgoing v)

/-- Some edge from another vertex points into this one. -/
def receives (g : Graph) (v : Vertex) : Bool :=
  (g.incoming v).any fun e => !e.circular

/-- Some edge to another vertex points out of this one. -/
def drives (g : Graph) (v : Vertex) : Bool :=
  (g.outgoing v).any fun e => !e.circular

/-- The edges of the vertex are exactly as many of either weight as asked. -/
def isWired (g : Graph) (v : Vertex) (arity : Arity) : Bool :=
  (g.incident v).countP (fun e => e.weight == .single) == arity.singles &&
    (g.incident v).countP (fun e => e.weight == .double) == arity.doubles

end ConstraintLogic.Graph
