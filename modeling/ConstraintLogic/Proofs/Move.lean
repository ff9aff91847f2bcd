import ConstraintLogic.Proofs.Edit
import ConstraintLogic.Proofs.Pass
/-!
# What a move changes

A move turns one edge round, settles the latches and puts this on record. So a play keeps the
vertices, the labels and, apart from their latches, the components of a graph.
-/

namespace ConstraintLogic

namespace Component

/-- The component with its latch cleared, if it has one. -/
def unlatched (c : Component) : Component :=
  c.withLatch false

@[simp] theorem unlatched_withLatch (c : Component) (value : Bool) :
    (c.withLatch value).unlatched = c.unlatched := by
  cases h : c.gadget <;> simp [unlatched, withLatch, Gadget.withLatch, h]

@[simp] theorem latch?_unlatched (c : Component) :
    c.unlatched.latch? = c.latch?.map fun _ => false :=
  Gadget.latch?_withLatch false c.gadget

/-- A component is what it is without its latch, and its latch. -/
theorem eq_of_unlatched {c c' : Component} (h : c.unlatched = c'.unlatched)
    (hl : c.latch? = c'.latch?) : c = c' := by
  obtain ⟨id, position, gadget, ports, size, label, muted⟩ := c
  obtain ⟨id', position', gadget', ports', size', label', muted'⟩ := c'
  simp only [unlatched, withLatch, mk.injEq] at h
  have hgadget : gadget = gadget' := by
    obtain ⟨-, -, hgadget, -⟩ := h
    cases gadget <;> cases gadget' <;> simp_all [Gadget.withLatch, latch?, Gadget.latch?]
  simp_all

end Component

namespace Graph

/-- The graphs differ at most in what is on record about their changes. -/
structure SameEntities (g g' : Graph) : Prop where
  vertices : g.vertices = g'.vertices
  edges : g.edges = g'.edges
  components : g.components = g'.components
  labels : g.labels = g'.labels

theorem SameEntities.eq {g g' : Graph} (h : g.SameEntities g') (hr : g.revision = g'.revision)
    (hc : g.changed = g'.changed) : g = g' := by
  obtain ⟨hvertices, hedges, hcomponents, hlabels⟩ := h
  cases g
  cases g'
  simp_all

/-- The graphs differ at most in their edges, their latches and what is on record. -/
structure SameFrame (g g' : Graph) : Prop where
  vertices : g.vertices = g'.vertices
  components : ∀ id : Ident,
    g.components[id]?.map Component.unlatched = g'.components[id]?.map Component.unlatched
  labels : g.labels = g'.labels

variable {g g' g'' : Graph}

theorem SameFrame.refl (g : Graph) : g.SameFrame g := ⟨rfl, fun _ => rfl, rfl⟩

theorem SameFrame.symm (h : g.SameFrame g') : g'.SameFrame g :=
  ⟨h.vertices.symm, fun id => (h.components id).symm, h.labels.symm⟩

theorem SameFrame.trans (h : g.SameFrame g') (h' : g'.SameFrame g'') : g.SameFrame g'' :=
  ⟨h.vertices.trans h'.vertices, fun id => (h.components id).trans (h'.components id),
    h.labels.trans h'.labels⟩

theorem sameFrame_settle (p : Pass) (g : Graph) : (p.settle g).SameFrame g where
  vertices := rfl
  components id := by
    rw [Pass.components_settle, Option.map_map]
    congr 1
    funext c
    cases p.requests[id]? with
    | none => rfl
    | some r => exact c.unlatched_withLatch r.target
  labels := rfl

theorem moved?_eq_some_iff {id : Ident} :
    g.moved? id = some g' ↔ ∃ e, g.edges[id]? = some e ∧ e.circular = false ∧
      (g.flip e).isEdgeSatisfied e.reverse = true ∧ (g.flip e).settled.touch = g' := by
  rw [moved?, Option.bind_eq_some_iff]
  refine exists_congr fun e => and_congr_right fun _ => ?_
  rw [move?]
  cases e.circular <;> simp

theorem moved?_eq_some_attempt {id : Ident} (h : (g.moved? id).isSome) :
    g.moved? id = some (g.attempt id) := by
  obtain ⟨next, hnext⟩ := Option.isSome_iff_exists.1 h
  rw [attempt, hnext, Option.getD_some]

theorem record_of_moved? {id : Ident} (h : g.moved? id = some g') :
    g'.revision = g.revision + 1 ∧ g'.changed = true := by
  obtain ⟨e, -, -, -, rfl⟩ := moved?_eq_some_iff.1 h
  exact ⟨rfl, rfl⟩

theorem sameFrame_of_moved? {id : Ident} (h : g.moved? id = some g') : g'.SameFrame g := by
  obtain ⟨e, -, -, -, rfl⟩ := moved?_eq_some_iff.1 h
  obtain ⟨hvertices, hcomponents, hlabels⟩ := sameFrame_settle (g.flip e).fullPass (g.flip e)
  exact ⟨hvertices, hcomponents, hlabels⟩

theorem sameFrame_play (g : Graph) (moves : List Ident) : (g.play moves).SameFrame g := by
  induction moves generalizing g with
  | nil => exact .refl g
  | cons id rest ih =>
    have hattempt : (g.attempt id).SameFrame g := by
      rw [attempt]
      cases hm : g.moved? id with
      | none => exact .refl g
      | some next => exact sameFrame_of_moved? hm
    exact (ih (g.attempt id)).trans hattempt

end Graph

end ConstraintLogic
