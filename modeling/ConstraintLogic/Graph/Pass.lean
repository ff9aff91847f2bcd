import ConstraintLogic.Graph.Latch
/-!
# Validation passes

A pass visits vertices of a graph that stays as it is, and notes for each whether it is satisfied
and what its gadget asks for its latch. Only afterwards are all latches changed at once, so that
neither the verdicts nor the new latches depend on the order of the visits.
-/

namespace ConstraintLogic

/-- What the visits so far have found. -/
structure Pass where
  verdicts : Registry Bool
  requests : Registry LatchRequest

/-- The verdicts of a pass and the latches that it has changed. -/
structure Validation where
  satisfied : List Ident
  unsatisfied : List Ident
  /-- The gadgets whose latch changed, with its new value. -/
  latchChanges : List (Ident × Bool)
deriving DecidableEq, Repr

namespace Validation

def allSatisfied (r : Validation) : Bool :=
  r.unsatisfied.isEmpty

end Validation

namespace Graph

/-- What the gadget of a vertex asks for its latch, with the name of the gadget. -/
def ownerRequest? (g : Graph) (v : Vertex) : Option (Ident × LatchRequest) := do
  let owner ← v.gate.owner?
  let c ← g.components[owner]?
  let request ← g.latchRequest? c
  return (owner, request)

end Graph

namespace Pass

def empty : Pass := ⟨∅, ∅⟩

instance : EmptyCollection Pass := ⟨empty⟩
instance : Inhabited Pass := ⟨empty⟩

def request (p : Pass) (owner : Ident) (r : LatchRequest) : Pass :=
  { p with requests := p.requests.alter owner fun pending => some (pending.elim r (·.merge r)) }

def visitVertex (p : Pass) (g : Graph) (v : Vertex) : Pass :=
  let asked : Pass :=
    match g.ownerRequest? v with
    | some (owner, r) => p.request owner r
    | none => p
  { asked with verdicts := asked.verdicts.insert v.id (g.isSatisfied v) }

def visit (p : Pass) (g : Graph) (id : Ident) : Except Fault (Bool × Pass) :=
  (g.vertex id).map fun v => (g.isSatisfied v, p.visitVertex g v)

def visitAll (p : Pass) (g : Graph) : Pass :=
  (g.vertices.toList.map (·.2)).foldl (fun p v => p.visitVertex g v) p

/-- The latch of the component that a request would change, with its new value. -/
def change? (g : Graph) (id : Ident) (r : LatchRequest) : Option (Ident × Bool) :=
  match g.components[id]?.bind Component.latch? with
  | some latch => if latch = r.target then none else some (id, r.target)
  | none => none

/-- What the pass tells about a graph before it settles it. -/
def outcome (p : Pass) (g : Graph) : Validation where
  satisfied := (p.verdicts.filter fun _ ok => ok).keys
  unsatisfied := (p.verdicts.filter fun _ ok => !ok).keys
  latchChanges := p.requests.toList.filterMap fun (id, r) => change? g id r

/-- The graph with every latch as asked. -/
def settle (p : Pass) (g : Graph) : Graph :=
  { g with
    components := g.components.map fun id c =>
      match p.requests[id]? with
      | some r => c.withLatch r.target
      | none => c }

/-- Settles the graph, which counts as a change if a latch changed. -/
def commit (p : Pass) (g : Graph) : Validation × Graph :=
  let result := p.outcome g
  let settled := p.settle g
  (result, if result.latchChanges.isEmpty then settled else settled.touch)

end Pass

namespace Graph

def fullPass (g : Graph) : Pass :=
  Pass.empty.visitAll g

def validate (g : Graph) : Validation × Graph :=
  g.fullPass.commit g

end Graph

end ConstraintLogic
