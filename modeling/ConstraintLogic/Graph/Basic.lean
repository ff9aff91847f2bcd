import ConstraintLogic.Graph.Edge
import ConstraintLogic.Graph.Component
import ConstraintLogic.Graph.Label
/-!
# Constraint graphs

A graph holds its vertices, edges, components and labels under their identifiers, counts the
changes made to it, and remembers whether there was one since somebody last asked.
-/

namespace ConstraintLogic

structure Graph where
  vertices : Registry Vertex
  edges : Registry Edge
  components : Registry Component
  labels : Registry Label
  /-- The number of changes so far. -/
  revision : Nat
  changed : Bool

namespace Graph

def empty : Graph where
  vertices := ∅
  edges := ∅
  components := ∅
  labels := ∅
  revision := 0
  changed := false

instance : EmptyCollection Graph := ⟨empty⟩
instance : Inhabited Graph := ⟨empty⟩

/-- The graph with one more change on record. -/
def touch (g : Graph) : Graph :=
  { g with revision := g.revision + 1, changed := true }

def isEmpty (g : Graph) : Bool :=
  g.vertices.isEmpty && g.edges.isEmpty && g.components.isEmpty && g.labels.isEmpty

/-- The value under an identifier, or the fault that there is none. -/
def find {α : Type} (kind : EntityKind) (entries : Registry α) (id : Ident) : Except Fault α :=
  match entries[id]? with
  | some a => .ok a
  | none => .error (.notFound kind id)

def vertex (g : Graph) (id : Ident) : Except Fault Vertex := find .vertex g.vertices id

def edge (g : Graph) (id : Ident) : Except Fault Edge := find .edge g.edges id

def component (g : Graph) (id : Ident) : Except Fault Component := find .component g.components id

def label (g : Graph) (id : Ident) : Except Fault Label := find .label g.labels id

def putVertex (g : Graph) (v : Vertex) : Graph :=
  { g with vertices := g.vertices.insert v.id v }

/-- The graph in which a vertex, if there is one, has changed. -/
def changeVertex (g : Graph) (id : Ident) (f : Vertex → Vertex) : Graph :=
  { g with vertices := g.vertices.modify id f }

end Graph

end ConstraintLogic
