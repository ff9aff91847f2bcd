import ConstraintLogic.Description.Document
import ConstraintLogic.Description.Entry
import ConstraintLogic.Ident.Parser
/-!
# Loading documents

A document becomes a graph. Names are taken inside the groups around them, and positions are moved
by those of the groups. Vertices and components come first, scope by scope, then all edges and then
all labels, so that an edge may name a vertex of any group. An entry that is refused is reported
and left out; only the name of a group can stop the whole load, which then changes nothing.
-/

namespace ConstraintLogic.Description

/-- The kinds of entry, as they are reported. -/
abbrev EntryKind := EntityKind

/-- An entry that was left out. -/
structure Issue where
  kind : EntryKind
  /-- The name of the entry as it is written, inside its scope. -/
  name : String
  fault : Fault

namespace Issue

def text (i : Issue) : String :=
  s!"{i.kind} {i.name}: {i.fault.message}"

end Issue

/-- The entries that were left out, in the order of loading. -/
structure Report where
  issues : List Issue

def Report.isClean (r : Report) : Bool :=
  r.issues.isEmpty

/-! ## Scopes -/

/-- A document in its place: the names around it and how far it is moved. -/
structure Scope where
  id : Ident
  offset : Point
  document : Document

namespace Scope

def entryName (s : Scope) (key : String) : String :=
  if s.id.isRoot then key else s!"{s.id}.{key}"

def entryId (s : Scope) (key : String) : Except Fault Ident :=
  (Ident.parse key).map s.id.join

/-- A reference means a vertex of the scope if there is one, or else one from the root. What is in
neither place is taken to be missing from the scope. -/
def resolve (s : Scope) (g : Graph) (reference : String) : Except Fault Ident :=
  (Ident.parse reference).map fun id =>
    if s.id.join id ∈ g.vertices ∨ id ∉ g.vertices then s.id.join id else id

end Scope

mutual

/-- A document and the groups inside it, each before its own groups. -/
def scopes (id : Ident) (offset : Point) : Document → Except Fault (List Scope)
  | ⟨position, vertices, edges, components, labels, groups⟩ => do
    let inner ← groupScopes id offset groups
    return ⟨id, offset, ⟨position, vertices, edges, components, labels, groups⟩⟩ :: inner

def groupScopes (id : Ident) (offset : Point) : List (String × Document) → Except Fault (List Scope)
  | [] => .ok []
  | (name, d) :: rest => do
    let own ← Ident.parse name
    let here ← scopes (id.join own) (offset + d.offset) d
    let others ← groupScopes id offset rest
    return here ++ others

end

/-! ## Entries -/

def loadVertex (s : Scope) (key : String) (args : List Argument) : Edit Unit := do
  let id ← ofExcept (s.entryId key)
  let entry ← ofExcept (VertexEntry.ofArguments s.offset args)
  discard (Edit.addVertex id entry.position !(entry.flags.contains .hidden))
  if entry.flags.contains .muted then Edit.setVertexMuted id true

/-- What a flag does to an edge. -/
def applyFlag (id : Ident) : Flag → Edit Unit
  | .muted => Edit.setEdgeMuted id true
  | .label => Edit.setEdgeLabelVisible id true
  | .flip => discard (Edit.reverseEdge id)
  | .hidden => pure ()

def loadEdge (s : Scope) (key : String) (args : List Argument) : Edit Unit := do
  let id ← ofExcept (s.entryId key)
  let entry ← ofExcept (EdgeEntry.ofArguments args)
  let g ← get
  let source ← ofExcept (s.resolve g entry.source)
  let target ← match entry.target? with
    | some reference => ofExcept (s.resolve g reference)
    | none => pure source
  discard (Edit.addEdge id source target (entry.weight?.getD .single))
  entry.flags.forM (applyFlag id)

def loadComponent (s : Scope) (key : String) (args : List Argument) : Edit Unit := do
  let id ← ofExcept (s.entryId key)
  let entry ← ofExcept (ComponentEntry.ofArguments s.offset args)
  let made ← match entry.construction with
    | .gadget blueprint =>
      discard (Edit.addComponent id entry.position blueprint)
      pure [id]
    | .circuit formula =>
      let circuit ← Circuit.compileInto id entry.position formula
      pure (circuit.quantifiers ++ [circuit.formula])
  if entry.muted then made.forM fun id => Edit.setComponentMuted id true

def loadLabel (s : Scope) (key : String) (args : List Argument) : Edit Unit := do
  let id ← ofExcept (s.entryId key)
  let entry ← ofExcept (LabelEntry.ofArguments s.offset args)
  discard (Edit.addLabel id entry.position entry.text entry.halign entry.valign)

abbrev EntryLoader := Scope → String → List Argument → Edit Unit

/-- Loads one entry, or reports why not. -/
def loadEntry (kind : EntryKind) (load : EntryLoader) (s : Scope) (entry : String × Yaml.Value) :
    Edit (List Issue) := do
  let (key, v) := entry
  try
    let args ← ofExcept (Argument.list v)
    load s key args
    return []
  catch fault => return [⟨kind, s.entryName key, fault⟩]

def loadSection (kind : EntryKind) (load : EntryLoader) (s : Scope) (entries : Section Yaml.Value) :
    Edit (List Issue) := do
  return (← entries.mapM (loadEntry kind load s)).flatten

def loadPlaces (s : Scope) : Edit (List Issue) := do
  let vertices ← loadSection .vertex loadVertex s s.document.vertices
  let components ← loadSection .component loadComponent s s.document.components
  return vertices ++ components

def loadEdges (s : Scope) : Edit (List Issue) :=
  loadSection .edge loadEdge s s.document.edges

def loadLabels (s : Scope) : Edit (List Issue) :=
  loadSection .label loadLabel s s.document.labels

/-! ## Documents -/

def Document.scopes (d : Document) : Except Fault (List Scope) :=
  Description.scopes .root d.offset d

/-- Replaces the contents of a graph by those of a document. -/
def loadInto (d : Document) : Edit Report := do
  let all ← ofExcept d.scopes
  Edit.clear
  let places ← all.mapM loadPlaces
  let edges ← all.mapM loadEdges
  let labels ← all.mapM loadLabels
  return ⟨(places ++ edges ++ labels).flatten⟩

end ConstraintLogic.Description
