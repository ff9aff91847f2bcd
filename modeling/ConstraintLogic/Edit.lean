import ConstraintLogic.Graph.Move
/-!
# Changing a graph

Edits are actions on a graph that may be refused. A refused edit keeps the graph that it has made
of the given one so far, so that it is a theorem and not a convention where nothing was changed.
An edit that succeeds is one change, however many entities it reaches.
-/

namespace ConstraintLogic

/-- An action on a graph, which may be refused. -/
abbrev Edit := EStateM Fault Graph

namespace Edit

/-- Puts an edit on record as one change. -/
def record : Edit Unit :=
  modify Graph.touch

/-- Refuses the root scope as the name of an entity. -/
def requireNamed (id : Ident) : Edit Unit :=
  if id.isRoot then throw (.format .unnamed) else pure ()

def requireFree {α : Type} (kind : EntityKind) (entries : Registry α) (id : Ident) : Edit Unit :=
  if id ∈ entries then throw (.duplicate kind id) else pure ()

/-! ## Vertices -/

/-- Adds a vertex with the plain rule. -/
def addVertex (id : Ident) (position : Point) (visible : Bool) : Edit Vertex := do
  requireNamed id
  requireFree .vertex (← get).vertices id
  let v := Vertex.isolated id position visible .plain
  modify fun g => g.putVertex v
  record
  return v

def setVertexMuted (id : Ident) (muted : Bool) : Edit Unit := do
  let v ← ofExcept ((← get).vertex id)
  modify fun g => { g with vertices := g.vertices.insert id { v with muted := muted } }
  record

/-! ## Edges -/

def requireEndpoint (edge endpoint : Ident) : Edit Unit := do
  if endpoint ∈ (← get).vertices then pure ()
  else throw (.referential (.endpointMissing edge endpoint))

/-- Joins two vertices, which may be the same. -/
def addEdge (id source target : Ident) (weight : Weight) : Edit Edge := do
  requireNamed id
  requireFree .edge (← get).edges id
  requireEndpoint id source
  requireEndpoint id target
  let e : Edge := ⟨id, source, target, weight, false, false⟩
  modify fun g => (g.changeVertex source (·.list id)).changeVertex target (·.list id)
  modify fun g => { g with edges := g.edges.insert id e }
  record
  return e

/-- Replaces the edge of this name by what a function makes of it. -/
def changeEdge (id : Ident) (f : Edge → Edge) : Edit Edge := do
  let e ← ofExcept ((← get).edge id)
  modify fun g => { g with edges := g.edges.insert id (f e) }
  record
  return f e

def setEdgeMuted (id : Ident) (muted : Bool) : Edit Unit :=
  discard (changeEdge id fun e => { e with muted := muted })

def setEdgeLabelVisible (id : Ident) (visible : Bool) : Edit Unit :=
  discard (changeEdge id fun e => { e with labelVisible := visible })

/-- Turns an edge round, whatever comes of it. -/
def reverseEdge (id : Ident) : Edit Edge :=
  changeEdge id Edge.reverse

/-- Takes an edge out of the graph and out of the lists of its ends. -/
def detachEdge (id : Ident) : Edit Edge := do
  let e ← ofExcept ((← get).edge id)
  modify fun g => { g with edges := g.edges.erase id }
  modify fun g => (g.changeVertex e.source (·.unlist id)).changeVertex e.target (·.unlist id)
  return e

def removeEdge (id : Ident) : Edit Edge := do
  let e ← detachEdge id
  record
  return e

/-- Takes a vertex out of the graph, after all its edges. -/
def detachVertex (id : Ident) : Edit Vertex := do
  let listed ← ofExcept ((← get).vertex id)
  listed.edges.toList.forM fun edge => discard (detachEdge edge)
  let v ← ofExcept ((← get).vertex id)
  modify fun g => { g with vertices := g.vertices.erase id }
  return v

def removeVertex (id : Ident) : Edit Vertex := do
  let v ← detachVertex id
  record
  return v

/-- Makes a move if it is legal, and tells whether it was. -/
def tryReverse (id : Ident) : Edit Bool := do
  let g ← get
  let e ← ofExcept (g.edge id)
  match g.move? e with
  | some next =>
    set next
    return true
  | none => return false

/-! ## Components -/

/-- Makes a gadget and its ports. Nothing is added unless all names are free. -/
def addComponent (id : Ident) (position : Point) (blueprint : Blueprint) : Edit Component := do
  requireNamed id
  requireFree .component (← get).components id
  let gadget ← ofExcept (Gadget.ofBlueprint blueprint)
  let plans := gadget.ports id
  plans.forM fun plan => do requireFree .vertex (← get).vertices (id.child plan.name)
  let vertex (plan : PortPlan) : Vertex :=
    Vertex.isolated (id.child plan.name) (position + plan.offset) true plan.gate
  modify fun g => (plans.map vertex).foldl Graph.putVertex g
  let c := Component.ofGadget id position gadget
  modify fun g => { g with components := g.components.insert id c }
  record
  return c

def setComponentMuted (id : Ident) (muted : Bool) : Edit Unit := do
  let c ← ofExcept ((← get).component id)
  modify fun g => { g with components := g.components.insert id { c with muted := muted } }
  record

/-- Moves a component together with those of its ports that still exist. -/
def moveComponent (id : Ident) (position : Point) : Edit Unit := do
  let c ← ofExcept ((← get).component id)
  let step := position - c.position
  modify fun g => { g with components := g.components.insert id { c with position := position } }
  modify fun g => c.ports.toList.foldl
    (fun g (_, port) => g.changeVertex port fun v => { v with position := v.position + step }) g
  record

/-- Removes a component together with those of its ports that still exist, and their edges. -/
def removeComponent (id : Ident) : Edit Component := do
  let c ← ofExcept ((← get).component id)
  modify fun g => { g with components := g.components.erase id }
  c.ports.toList.forM fun (_, port) => do
    if port ∈ (← get).vertices then discard (detachVertex port) else pure ()
  record
  return c

/-! ## Labels -/

def addLabel (id : Ident) (position : Point) (text : String) (halign valign : Align) :
    Edit Label := do
  requireNamed id
  requireFree .label (← get).labels id
  let l : Label := ⟨id, position, text, halign, valign⟩
  modify fun g => { g with labels := g.labels.insert id l }
  record
  return l

def removeLabel (id : Ident) : Edit Label := do
  let l ← ofExcept ((← get).label id)
  modify fun g => { g with labels := g.labels.erase id }
  record
  return l

/-! ## The whole graph -/

def clear : Edit Unit := do
  modify fun g => { g with vertices := ∅, edges := ∅, components := ∅, labels := ∅ }
  record

/-- Tells whether there was a change since the last time, and forgets it. -/
def takeChanged : Edit Bool :=
  modifyGet fun g => (g.changed, { g with changed := false })

def commit (p : Pass) : Edit Validation :=
  modifyGet p.commit

def validate : Edit Validation :=
  modifyGet Graph.validate

end Edit

end ConstraintLogic
