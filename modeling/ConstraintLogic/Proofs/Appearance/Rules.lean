import ConstraintLogic.Proofs.Visits
/-!
# What the rules do not look at

Positions, sizes, texts, muted flags and shown weights are for drawings, and the labels and the
count of changes are no part of the game. The core of a graph has none of them. Everything that the
rules make of a graph they make of its core too: flows, verdicts, requests for latches, the outcome
of passes and of moves, and the breaches that the integrity check finds.
-/

namespace ConstraintLogic

/-! ## Cores -/

namespace Vertex

/-- The vertex without its position and its muted flag. -/
def core (v : Vertex) : Vertex :=
  { v with position := .origin, muted := false }

@[simp] theorem core_isolated (id : Ident) (position : Point) (visible : Bool) (gate : Gate) :
    (isolated id position visible gate).core = isolated id .origin visible gate := rfl

theorem core_eq_iff {v v' : Vertex} :
    v.core = v'.core ↔
      v.id = v'.id ∧ v.visible = v'.visible ∧ v.edges = v'.edges ∧ v.gate = v'.gate := by
  simp [core]

end Vertex

namespace Edge

/-- The edge without its muted flag and the flag that shows its weight. -/
def core (e : Edge) : Edge :=
  { e with muted := false, labelVisible := false }

@[simp] theorem source_core (e : Edge) : e.core.source = e.source := rfl
@[simp] theorem circular_core (e : Edge) : e.core.circular = e.circular := rfl
@[simp] theorem reverse_core (e : Edge) : e.core.reverse = e.reverse.core := rfl

theorem core_eq_iff {e e' : Edge} :
    e.core = e'.core ↔
      e.id = e'.id ∧ e.source = e'.source ∧ e.target = e'.target ∧ e.weight = e'.weight := by
  simp [core]

end Edge

namespace Component

/-- The component without its position, its size, its text and its muted flag. -/
def core (c : Component) : Component :=
  { c with position := .origin, size := .origin, label := "", muted := false }

@[simp] theorem core_ofGadget (id : Ident) (position : Point) (gadget : Gadget) :
    (ofGadget id position gadget).core =
      { ofGadget id .origin gadget with size := .origin, label := "" } := rfl

theorem core_eq_iff {c c' : Component} :
    c.core = c'.core ↔ c.id = c'.id ∧ c.gadget = c'.gadget ∧ c.ports = c'.ports := by
  simp [core]

end Component

namespace Graph

/-- The graph of the cores, without labels and without what is on record. -/
def core (g : Graph) : Graph where
  vertices := g.vertices.map fun _ => Vertex.core
  edges := g.edges.map fun _ => Edge.core
  components := g.components.map fun _ => Component.core
  labels := ∅
  revision := 0
  changed := false

variable (g : Graph) (v : Vertex) (e : Edge) (c : Component) (id : Ident)

@[simp] theorem getElem?_vertices_core : g.core.vertices[id]? = g.vertices[id]?.map Vertex.core :=
  Std.ExtTreeMap.getElem?_map

@[simp] theorem getElem?_edges_core : g.core.edges[id]? = g.edges[id]?.map Edge.core :=
  Std.ExtTreeMap.getElem?_map

@[simp] theorem getElem?_components_core :
    g.core.components[id]? = g.components[id]?.map Component.core :=
  Std.ExtTreeMap.getElem?_map

/-! ## Flow -/

@[simp] theorem incident_core : g.core.incident v = (g.incident v).map Edge.core := by
  simp only [incident, getElem?_edges_core, List.map_filterMap]

@[simp] theorem pointing_core (d : Direction) :
    g.core.pointing v d = (g.pointing v d).map Edge.core := by
  rw [pointing, incident_core, List.filter_map]
  rfl

@[simp] theorem totalWeight_map_core (es : List Edge) :
    totalWeight (es.map Edge.core) = totalWeight es := by
  rw [totalWeight, List.foldr_map]
  rfl

@[simp] theorem inflow_core : g.core.inflow v = g.inflow v := by
  rw [inflow, incoming, pointing_core, totalWeight_map_core]
  rfl

@[simp] theorem outflow_core : g.core.outflow v = g.outflow v := by
  rw [outflow, outgoing, pointing_core, totalWeight_map_core]
  rfl

@[simp] theorem receives_core : g.core.receives v = g.receives v := by
  rw [receives, incoming, pointing_core, List.any_map]
  rfl

@[simp] theorem drives_core : g.core.drives v = g.drives v := by
  rw [drives, outgoing, pointing_core, List.any_map]
  rfl

@[simp] theorem isWired_core (arity : Arity) : g.core.isWired v arity = g.isWired v arity := by
  rw [isWired, incident_core, List.countP_map, List.countP_map]
  rfl

/-! ## Rules -/

@[simp] theorem port?_core (name : String) :
    g.core.port? c name = (g.port? c name).map Vertex.core := by
  simp only [port?, getElem?_vertices_core, Option.map_bind]
  rfl

@[simp] theorem portReceives_core (name : String) :
    g.core.portReceives c name = g.portReceives c name := by
  simp only [portReceives, port?_core, Option.any_map, receives_core]
  rfl

@[simp] theorem portDrives_core (name : String) :
    g.core.portDrives c name = g.portDrives c name := by
  simp only [portDrives, port?_core, Option.any_map, drives_core]
  rfl

@[simp] theorem signals_core : g.core.signals c = g.signals c := by
  simp only [signals, portReceives_core, portDrives_core]

@[simp] theorem gadgetHolds_core : g.core.gadgetHolds c = g.gadgetHolds c := by
  simp only [gadgetHolds, formulaHolds, signals_core, portReceives_core, portDrives_core]

@[simp] theorem ownerHolds_core : g.core.ownerHolds id = g.ownerHolds id := by
  simp only [ownerHolds, getElem?_components_core, Option.any_map, gadgetHolds_core]
  rfl

@[simp] theorem isSatisfied_core : g.core.isSatisfied v = g.isSatisfied v := by
  simp only [isSatisfied, inflow_core, isWired_core, ownerHolds_core]

theorem any_isSatisfied_core (o : Option Vertex) :
    (o.map Vertex.core).any g.core.isSatisfied = o.any g.isSatisfied := by
  rw [Option.any_map]
  congr 1
  funext v
  exact g.isSatisfied_core v

@[simp] theorem isEdgeSatisfied_core : g.core.isEdgeSatisfied e = g.isEdgeSatisfied e := by
  simp only [isEdgeSatisfied, getElem?_vertices_core, any_isSatisfied_core]

@[simp] theorem isComponentSatisfied_core :
    g.core.isComponentSatisfied c = g.isComponentSatisfied c := by
  simp only [isComponentSatisfied, getElem?_vertices_core, any_isSatisfied_core]

/-! ## Latches and passes -/

@[simp] theorem isSatSourceSatisfied_core :
    g.core.isSatSourceSatisfied c = g.isSatSourceSatisfied c := by
  rw [isSatSourceSatisfied, isSatSourceSatisfied, port?_core]
  cases g.port? c QuantifierPort.satIn.name with
  | none => rfl
  | some v =>
    have hfind : (g.core.incoming v.core).find? (fun e => !e.circular) =
        ((g.incoming v).find? fun e => !e.circular).map Edge.core := by
      simp only [incoming, pointing_core, List.find?_map]
      rfl
    simp only [Option.map_some]
    rw [hfind]
    cases (g.incoming v).find? fun e => !e.circular with
    | none => rfl
    | some e => simp [any_isSatisfied_core]

@[simp] theorem latchRequest?_core : g.core.latchRequest? c = g.latchRequest? c := by
  simp only [latchRequest?, signals_core, isSatSourceSatisfied_core]

@[simp] theorem ownerRequest?_core : g.core.ownerRequest? v = g.ownerRequest? v := by
  rw [ownerRequest?, ownerRequest?]
  cases v.gate.owner? with
  | none => rfl
  | some owner =>
    simp only [Option.bind_eq_bind, Option.bind_some, getElem?_components_core]
    cases g.components[owner]? with
    | none => rfl
    | some c =>
      simp only [Option.map_some, Option.bind_some, latchRequest?_core]
      rfl

@[simp] theorem latchOf?_core : g.core.latchOf? id = g.latchOf? id := by
  rw [latchOf?, latchOf?, getElem?_components_core, Option.bind_map]
  rfl

end Graph

namespace Pass

variable (p : Pass) (g : Graph) (v : Vertex)

@[simp] theorem visitVertex_core : p.visitVertex g.core v.core = p.visitVertex g v := by
  simp only [visitVertex, Graph.ownerRequest?_core, Graph.isSatisfied_core]
  rfl

@[simp] theorem visitAll_core : p.visitAll g.core = p.visitAll g := by
  rw [visitAll, visitAll, Graph.core, Std.ExtTreeMap.toList_map, List.map_map, List.foldl_map,
    List.foldl_map]
  congr 1
  funext p entry
  exact p.visitVertex_core g entry.2

@[simp] theorem outcome_core : p.outcome g.core = p.outcome g := by
  simp only [outcome, change?, Graph.getElem?_components_core, Option.bind_map]
  rfl

@[simp] theorem settle_core : p.settle g.core = (p.settle g).core := by
  simp only [settle, Graph.core, Std.ExtTreeMap.map_map]
  congr 2
  funext id c
  cases p.requests[id]? <;> rfl

end Pass

namespace Graph

variable (g : Graph) (v : Vertex) (e : Edge) (c : Component) (id : Ident)

@[simp] theorem core_touch : g.touch.core = g.core := rfl

@[simp] theorem core_core : g.core.core = g.core := by
  simp only [core, Std.ExtTreeMap.map_map]
  rfl

@[simp] theorem fullPass_core : g.core.fullPass = g.fullPass :=
  Pass.visitAll_core ∅ g

@[simp] theorem settled_core : g.core.settled = g.settled.core := by
  rw [settled, fullPass_core, Pass.settle_core]
  rfl

/-! ## Moves -/

@[simp] theorem flip_core : g.core.flip e.core = (g.flip e).core := by
  simp only [flip, core, Registry.map_insert]
  rfl

theorem map_core_move? : (g.core.move? e.core).map core = (g.move? e).map core := by
  have hends : (g.flip e).isEdgeSatisfied e.reverse.core =
      (g.flip e).isEdgeSatisfied e.reverse := rfl
  simp only [move?, flip_core, Edge.circular_core, Edge.reverse_core, settled_core,
    isEdgeSatisfied_core, hends]
  split_ifs
  · rfl
  · simp
  · rfl

theorem map_core_moved? : (g.core.moved? id).map core = (g.moved? id).map core := by
  rw [moved?, moved?, getElem?_edges_core]
  cases g.edges[id]? with
  | none => rfl
  | some e => exact g.map_core_move? e

/-! ## Integrity -/

private theorem forM_toList_map {α β : Type} (t : Registry α) {f : α → β}
    {check : α → Except Fault Unit} {check' : β → Except Fault Unit}
    (h : ∀ a, check' (f a) = check a) :
    ((t.map fun _ => f).toList.forM fun (_, b) => check' b) =
      t.toList.forM fun (_, a) => check a := by
  rw [List.forM_eq_forM, List.forM_eq_forM, Std.ExtTreeMap.toList_map, List.forM_map]
  simp only [h]

@[simp] theorem checkEdge_core : g.core.checkEdge e.core = g.checkEdge e := by
  rw [checkEdge, checkEdge]
  congr 1
  funext endpoint
  rw [getElem?_vertices_core]
  cases g.vertices[endpoint]? <;> rfl

@[simp] theorem checkListed_core : g.core.checkListed v.core id = g.checkListed v id := by
  rw [checkListed, checkListed, getElem?_edges_core]
  cases g.edges[id]? <;> rfl

@[simp] theorem checkVertex_core : g.core.checkVertex v.core = g.checkVertex v := by
  have hlisted : g.core.checkListed v.core = g.checkListed v := funext (g.checkListed_core v)
  simp only [checkVertex, hlisted, incident_core, totalWeight_map_core, inflow_core, outflow_core]
  rfl

@[simp] theorem checkComponent_core : g.core.checkComponent c.core = g.checkComponent c := by
  rw [checkComponent, checkComponent]
  congr 1
  funext port
  obtain ⟨name, port⟩ := port
  simp only [getElem?_vertices_core]
  cases g.vertices[port]? <;> rfl

@[simp] theorem checkIntegrity_core : g.core.checkIntegrity = g.checkIntegrity := by
  have hedges := forM_toList_map g.edges g.checkEdge_core
  have hvertices := forM_toList_map g.vertices g.checkVertex_core
  have hcomponents := forM_toList_map g.components g.checkComponent_core
  rw [checkIntegrity, checkIntegrity, ← hedges, ← hvertices, ← hcomponents]
  rfl

/-! ## What can be read off a graph -/

/-- All that the rules make of a graph, with the faults for names that nothing stands under. -/
structure Readings where
  vertexSatisfied : Ident → Except Fault Bool
  edgeSatisfied : Ident → Except Fault Bool
  componentSatisfied : Ident → Except Fault Bool
  inflow : Ident → Except Fault Nat
  outflow : Ident → Except Fault Nat
  latch : Ident → Option Bool
  /-- Whether a move of the edge is legal. -/
  movable : Ident → Bool
  /-- The verdict of a visit, and what a pass has found after it. -/
  visit : Pass → Ident → Except Fault (Bool × Pass)
  validation : Validation
  integrity : Except Fault Unit

def readings (g : Graph) : Readings where
  vertexSatisfied id := (g.vertex id).map g.isSatisfied
  edgeSatisfied id := (g.edge id).map g.isEdgeSatisfied
  componentSatisfied id := (g.component id).map g.isComponentSatisfied
  inflow id := (g.vertex id).map g.inflow
  outflow id := (g.vertex id).map g.outflow
  latch := g.latchOf?
  movable id := (g.moved? id).isSome
  visit p id := p.visit g id
  validation := g.validate.1
  integrity := g.checkIntegrity

/-- A reading of an entity in the core of a graph is one of the entity as it is. -/
private theorem map_find_core {α β : Type} (kind : EntityKind) (t : Registry α) (id : Ident)
    {f : α → α} {read read' : α → β} (h : ∀ a, read' (f a) = read a) :
    (find kind (t.map fun _ => f) id).map read' = (find kind t id).map read := by
  rw [find, find, Std.ExtTreeMap.getElem?_map]
  cases t[id]? with
  | none => rfl
  | some a => exact congrArg Except.ok (h a)

@[simp] theorem readings_core : g.core.readings = g.readings := by
  simp only [readings, Readings.mk.injEq, funext_iff, checkIntegrity_core, latchOf?_core,
    implies_true, true_and, and_true]
  refine ⟨?vertex, ?edge, ?component, ?inflow, ?outflow, ?movable, ?visit, ?validation⟩
  case vertex => exact fun id => map_find_core _ _ id g.isSatisfied_core
  case edge => exact fun id => map_find_core _ _ id g.isEdgeSatisfied_core
  case component => exact fun id => map_find_core _ _ id g.isComponentSatisfied_core
  case inflow => exact fun id => map_find_core _ _ id g.inflow_core
  case outflow => exact fun id => map_find_core _ _ id g.outflow_core
  case movable =>
    intro id
    rw [← Option.isSome_map (f := core), map_core_moved?, Option.isSome_map]
  case visit =>
    intro p id
    have hvisit (v : Vertex) : (g.core.isSatisfied v.core, p.visitVertex g.core v.core) =
        (g.isSatisfied v, p.visitVertex g v) :=
      Prod.ext (g.isSatisfied_core v) (p.visitVertex_core g v)
    exact map_find_core _ _ id hvisit
  case validation => simp only [validate, Pass.commit, fullPass_core, Pass.outcome_core]

/-! ## Graphs that look alike to the rules -/

/-- The graphs have vertices, edges and components under the same names, which differ at most in
what the rules do not look at. -/
structure Alike (g g' : Graph) : Prop where
  vertices : (g.vertices.map fun _ => Vertex.core) = g'.vertices.map fun _ => Vertex.core
  edges : (g.edges.map fun _ => Edge.core) = g'.edges.map fun _ => Edge.core
  components : (g.components.map fun _ => Component.core) =
    g'.components.map fun _ => Component.core

variable {g g' : Graph}

theorem alike_iff_core_eq : g.Alike g' ↔ g.core = g'.core := by
  constructor
  · intro h
    rw [core, core, h.vertices, h.edges, h.components]
  · intro h
    exact ⟨congrArg vertices h, congrArg edges h, congrArg components h⟩

theorem Alike.readings (h : g.Alike g') : g.readings = g'.readings := by
  rw [← readings_core g, alike_iff_core_eq.1 h, readings_core]

end Graph

end ConstraintLogic
