import ConstraintLogic.Description.Load
/-!
# Histories

Everything that can be done to a graph from outside, as data. A graph is reachable if some history
of such changes, each of which may have been refused, leads to it from the empty graph.
-/

namespace ConstraintLogic

inductive Change where
  | addVertex (id : Ident) (position : Point) (visible : Bool)
  | setVertexMuted (id : Ident) (muted : Bool)
  | removeVertex (id : Ident)
  | addEdge (id source target : Ident) (weight : Weight)
  | setEdgeMuted (id : Ident) (muted : Bool)
  | setEdgeLabelVisible (id : Ident) (visible : Bool)
  | removeEdge (id : Ident)
  | reverseEdge (id : Ident)
  | tryReverse (id : Ident)
  | addComponent (id : Ident) (position : Point) (blueprint : Blueprint)
  | setComponentMuted (id : Ident) (muted : Bool)
  | moveComponent (id : Ident) (position : Point)
  | removeComponent (id : Ident)
  | addLabel (id : Ident) (position : Point) (text : String) (halign valign : Align)
  | removeLabel (id : Ident)
  | clear
  | takeChanged
  | validate
  | commit (p : Pass)
  | compileInto (scope : Ident) (offset : Point) (text : String)
  | loadInto (d : Description.Document)

namespace Change

/-- The edit that makes the change, without its answer. -/
def edit : Change → Edit Unit
  | addVertex id position visible => discard (Edit.addVertex id position visible)
  | setVertexMuted id muted => Edit.setVertexMuted id muted
  | removeVertex id => discard (Edit.removeVertex id)
  | addEdge id source target weight => discard (Edit.addEdge id source target weight)
  | setEdgeMuted id muted => Edit.setEdgeMuted id muted
  | setEdgeLabelVisible id visible => Edit.setEdgeLabelVisible id visible
  | removeEdge id => discard (Edit.removeEdge id)
  | reverseEdge id => discard (Edit.reverseEdge id)
  | tryReverse id => discard (Edit.tryReverse id)
  | addComponent id position blueprint => discard (Edit.addComponent id position blueprint)
  | setComponentMuted id muted => Edit.setComponentMuted id muted
  | moveComponent id position => Edit.moveComponent id position
  | removeComponent id => discard (Edit.removeComponent id)
  | addLabel id position text halign valign =>
    discard (Edit.addLabel id position text halign valign)
  | removeLabel id => discard (Edit.removeLabel id)
  | clear => Edit.clear
  | takeChanged => discard Edit.takeChanged
  | validate => discard Edit.validate
  | commit p => discard (Edit.commit p)
  | compileInto scope offset text => discard (Circuit.compileInto scope offset text)
  | loadInto d => discard (Description.loadInto d)

/-- What the change leaves of a graph, whether it was refused or not. -/
def after (g : Graph) (c : Change) : Graph :=
  match c.edit.run g with
  | .ok _ next | .error _ next => next

end Change

namespace Graph

def afterAll (g : Graph) (history : List Change) : Graph :=
  history.foldl Change.after g

/-- Some history leads from the empty graph to this one. -/
def Reachable (g : Graph) : Prop :=
  ∃ history, afterAll ∅ history = g

theorem reachable_empty : Reachable ∅ :=
  ⟨[], rfl⟩

theorem Reachable.after {g : Graph} (h : g.Reachable) (c : Change) : (c.after g).Reachable := by
  obtain ⟨history, rfl⟩ := h
  exact ⟨history ++ [c], by simp [afterAll]⟩

end Graph

end ConstraintLogic
