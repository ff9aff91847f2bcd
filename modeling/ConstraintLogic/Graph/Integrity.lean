import ConstraintLogic.Graph.Flow
/-!
# Integrity

Whether all references in a graph lead somewhere and are answered: edges by the lists of their
ends, lists by edges, and the ports of a component by gates that name it. The first breach found
is reported; edges come first, then vertices, then components.
-/

namespace ConstraintLogic.Graph

private def breach (b : Breach) : Except Fault Unit :=
  .error (.referential b)

/-- Both ends exist and list the edge. -/
def checkEdge (g : Graph) (e : Edge) : Except Fault Unit :=
  [e.source, e.target].forM fun endpoint =>
    match g.vertices[endpoint]? with
    | none => breach (.endpointMissing e.id endpoint)
    | some v => if e.id ∈ v.edges then .ok () else breach (.edgeNotListed endpoint e.id)

/-- A listed edge exists and ends at the vertex. -/
def checkListed (g : Graph) (v : Vertex) (id : Ident) : Except Fault Unit :=
  match g.edges[id]? with
  | none => breach (.listedEdgeMissing v.id id)
  | some e =>
    if e.source = v.id ∨ e.target = v.id then .ok () else breach (.listedEdgeElsewhere v.id id)

/-- All listed edges are in order, and what they carry is what flows in and out. -/
def checkVertex (g : Graph) (v : Vertex) : Except Fault Unit := do
  v.edges.toList.forM (g.checkListed v)
  let total := totalWeight (g.incident v)
  if g.inflow v + g.outflow v = total then .ok () else breach (.flowUnbalanced v.id total)

/-- All ports exist and name the component as their owner. -/
def checkComponent (g : Graph) (c : Component) : Except Fault Unit :=
  c.ports.toList.forM fun (name, port) =>
    match g.vertices[port]? with
    | none => breach (.portMissing name c.id)
    | some v => if v.gate.owner? = some c.id then .ok () else breach (.portUntagged port c.id)

/-- Refuses with the first breach there is. -/
def checkIntegrity (g : Graph) : Except Fault Unit := do
  g.edges.toList.forM fun (_, e) => g.checkEdge e
  g.vertices.toList.forM fun (_, v) => g.checkVertex v
  g.components.toList.forM fun (_, c) => g.checkComponent c

end ConstraintLogic.Graph
