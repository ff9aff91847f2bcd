import ConstraintLogic.Graph.Flow
/-!
# The rules of the game

When a vertex is satisfied. A plain vertex needs an inflow of two unless it is hidden, and the
port of a converter an inflow of one. The ports of the other gadgets are satisfied together:
each needs its own wiring, and the gadget as a whole has to obey its rule.
-/

namespace ConstraintLogic

/-- What the six ports of a quantifier are doing. -/
structure Signals where
  /-- The gadget is asked to try. -/
  tryIn : Bool
  /-- The gadget asks the next one to try. -/
  tryOut : Bool
  /-- The gadget is told of a success. -/
  satIn : Bool
  /-- The gadget tells of its success. -/
  satOut : Bool
  /-- The letter is driven true. -/
  out : Bool
  /-- The letter is driven false. -/
  inv : Bool
deriving DecidableEq, Repr

namespace Signals

/-- Who tries was asked to and has chosen at most one value; who tells of a success was told. -/
def existentialHolds (s : Signals) : Bool :=
  !(s.tryOut && !s.tryIn) && !(s.tryOut && s.out && s.inv) && !(s.satOut && !s.satIn)

/-- Who tries was asked to and has chosen one value; who tells of a success has won the negated
branch before and is told that the other one is won now. -/
def universalHolds (s : Signals) (latch : Bool) : Bool :=
  !(s.tryOut && !s.tryIn) && !(s.tryOut && s.out == s.inv) &&
    !(s.satOut && (!s.satIn || !latch || !s.out))

theorem universalHolds_mono (s : Signals) (h : s.universalHolds false) : s.universalHolds true := by
  revert h
  simp only [universalHolds]
  grind

end Signals

namespace Graph

/-- The vertex that a component has as its port of this name. -/
def port? (g : Graph) (c : Component) (name : String) : Option Vertex :=
  c.ports[name]?.bind fun id => g.vertices[id]?

/-- An edge points into the port of this name. -/
def portReceives (g : Graph) (c : Component) (name : String) : Bool :=
  (g.port? c name).any g.receives

/-- An edge points out of the port of this name. -/
def portDrives (g : Graph) (c : Component) (name : String) : Bool :=
  (g.port? c name).any g.drives

def signals (g : Graph) (c : Component) : Signals where
  tryIn := g.portReceives c QuantifierPort.tryIn.name
  tryOut := g.portDrives c QuantifierPort.tryOut.name
  satIn := g.portReceives c QuantifierPort.satIn.name
  satOut := g.portDrives c QuantifierPort.satOut.name
  out := g.portDrives c QuantifierPort.out.name
  inv := g.portDrives c QuantifierPort.inv.name

/-- The formula is true where the literals count as true whose ports receive. -/
def formulaHolds (g : Graph) (c : Component) (f : Cnf) : Bool :=
  f.evaluate fun l => g.portReceives c (EvaluatorPort.literal l).name

/-- The rule of a gadget as a whole. -/
def gadgetHolds (g : Graph) (c : Component) : Bool :=
  match c.gadget with
  | .converter => true
  | .existential _ => (g.signals c).existentialHolds
  | .universal _ latch => (g.signals c).universalHolds latch
  | .evaluator f => !g.portDrives c EvaluatorPort.satisfied.name || g.formulaHolds c f

def ownerHolds (g : Graph) (owner : Ident) : Bool :=
  g.components[owner]?.any g.gadgetHolds

/-- The inflow that a visible plain vertex needs. -/
def leastInflow : Nat := 2

def isSatisfied (g : Graph) (v : Vertex) : Bool :=
  match v.gate with
  | .plain => !v.visible || leastInflow ≤ g.inflow v
  | .converter _ => g.isWired v ⟨1, 1⟩ && 1 ≤ g.inflow v
  | .existential owner port | .universal owner port =>
    g.isWired v port.arity && g.ownerHolds owner
  | .evaluator owner port => g.isWired v port.arity && g.ownerHolds owner

def isEdgeSatisfied (g : Graph) (e : Edge) : Bool :=
  g.vertices[e.source]?.any g.isSatisfied && g.vertices[e.target]?.any g.isSatisfied

def isComponentSatisfied (g : Graph) (c : Component) : Bool :=
  c.ports.toList.all fun (_, id) => g.vertices[id]?.any g.isSatisfied

end Graph

end ConstraintLogic
