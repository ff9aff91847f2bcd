import ConstraintLogic.Graph.Pass
/-!
# Moves

A move turns one edge round. It is legal if both ends of the edge are satisfied afterwards; then
the latches are settled, and all of it is one change. An edge whose ends are the same vertex never
moves.
-/

namespace ConstraintLogic.Graph

def flip (g : Graph) (e : Edge) : Graph :=
  { g with edges := g.edges.insert e.id e.reverse }

/-- The graph with its latches as the gadgets ask for them now. -/
def settled (g : Graph) : Graph :=
  g.fullPass.settle g

def move? (g : Graph) (e : Edge) : Option Graph :=
  if e.circular then none
  else if (g.flip e).isEdgeSatisfied e.reverse then some (g.flip e).settled.touch
  else none

end ConstraintLogic.Graph
