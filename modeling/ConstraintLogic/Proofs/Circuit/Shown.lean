import ConstraintLogic.Proofs.Circuit.Layout
import ConstraintLogic.Proofs.Flow
/-!
# Boards shown by graphs

A graph shows a board if its vertices are the places of the circuit, its edges are the wires, each
pointing as the board has it, and its gadgets have the latches of the board. Compiling a formula
gives a graph that shows the starting board, and a vertex is satisfied exactly if its cell obeys
its rule.
-/

namespace ConstraintLogic.Circuit

/-- The vertex of a circuit at a place. -/
structure VertexAt (q : Qbf) (p : Place) (v : Vertex) : Prop where
  id_eq : v.id = p.id
  gate_eq : v.gate = p.gate q
  visible : v.visible = true
  mem_edges_iff : ∀ id : Ident, id ∈ v.edges ↔
    ∃ w : Wire, w.IsIn (letters q) ∧ w.Touches (letters q) p ∧ w.id (letters q) = id

/-- The component of a circuit for a binding. -/
structure QuantifierAt (binding : Binding) (latch : Bool) (c : Component) : Prop where
  gadget_eq : c.gadget = bindingGadget binding latch
  ports_eq : ∀ port : QuantifierPort,
    c.ports[port.name]? = some (quantifierPort binding.letter port)

/-- The component of a circuit for its matrix. -/
structure EvaluatorAt (q : Qbf) (c : Component) : Prop where
  gadget_eq : c.gadget = .evaluator q.matrix
  ports_eq : ∀ port : EvaluatorPort, (Place.evaluator port).IsIn (letters q) →
    c.ports[port.name]? = some (evaluatorPort port)

structure Shows (q : Qbf) (g : Graph) (b : Board) : Prop where
  vertex : ∀ p : Place, p.IsIn (letters q) → ∃ v, g.vertices[p.id]? = some v ∧ VertexAt q p v
  place : ∀ (id : Ident) (v : Vertex), g.vertices[id]? = some v →
    ∃ p : Place, p.IsIn (letters q) ∧ p.id = id ∧ VertexAt q p v
  edge_iff : ∀ (id : Ident) (e : Edge), g.edges[id]? = some e ↔
    ∃ w : Wire, w.IsIn (letters q) ∧ w.id (letters q) = id ∧ w.edge (letters q) (b.on w) = e
  quantifier : ∀ binding ∈ q.bindings, ∃ c, g.components[quantifierId binding.letter]? = some c ∧
    QuantifierAt binding (b.latch binding.letter) c
  evaluator : ∃ c, g.components[formulaId]? = some c ∧ EvaluatorAt q c
  binding : ∀ (id : Ident) (c : Component), g.components[id]? = some c → c.latch? ≠ none →
    ∃ binding ∈ q.bindings, quantifierId binding.letter = id

/-! ## The start -/

section Start

variable {q : Qbf}

theorem exists_vertex_of_place (hq : q.IsProper) {p : Place} (hp : p.IsIn (letters q)) :
    ∃ v ∈ (plan q).flatMap (Part.vertices .root .origin), centered v = p.vertex q := by
  have hmem : p.vertex q ∈ (places q).map (Place.vertex q) :=
    List.mem_map_of_mem ((mem_places hq).2 hp)
  rw [← vertices_plan hq] at hmem
  exact List.mem_map.1 hmem

theorem exists_place_of_vertex (hq : q.IsProper) {v : Vertex}
    (hv : v ∈ (plan q).flatMap (Part.vertices .root .origin)) :
    ∃ p : Place, p.IsIn (letters q) ∧ centered v = p.vertex q := by
  have hmem := List.mem_map_of_mem (f := centered) hv
  rw [vertices_plan hq] at hmem
  obtain ⟨p, hp, heq⟩ := List.mem_map.1 hmem
  exact ⟨p, (mem_places hq).1 hp, heq.symm⟩

theorem mem_edges_plan (hq : q.IsProper) {e : Edge} :
    e ∈ (plan q).flatMap (Part.edges .root) ↔
      ∃ w : Wire, w.IsIn (letters q) ∧ w.edge (letters q) false = e := by
  rw [edges_plan hq, List.mem_map]
  simp only [mem_wires]

theorem vertexAt_of_centered (hq : q.IsProper) {v : Vertex} {p : Place}
    (h : centered v = p.vertex q) :
    VertexAt q p (v.listAll ((plan q).flatMap (Part.edges .root))) := by
  have hid : v.id = p.id := congrArg Vertex.id h
  have hgate : v.gate = p.gate q := congrArg Vertex.gate h
  have hvisible : v.visible = true := congrArg Vertex.visible h
  have hedges : v.edges = ∅ := congrArg Vertex.edges h
  refine ⟨hid, hgate, hvisible, ?_⟩
  intro id
  rw [Vertex.mem_edges_listAll, hedges, hid]
  simp only [Std.ExtTreeSet.not_mem_empty, false_or, mem_edges_plan hq]
  constructor
  · rintro ⟨_, ⟨w, hw, rfl⟩, hend, rfl⟩
    refine ⟨w, hw, ?_, rfl⟩
    rcases hend with hr | hd
    · exact .inr (Place.id_injective hr)
    · exact .inl (Place.id_injective hd)
  · rintro ⟨w, hw, hend, rfl⟩
    refine ⟨_, ⟨w, hw, rfl⟩, ?_, rfl⟩
    rcases hend with hd | hr
    · exact .inr (congrArg Place.id hd)
    · exact .inl (congrArg Place.id hr)

theorem quantifierAt_ofGadget (binding : Binding) (position : Point) :
    QuantifierAt binding false
      (.ofGadget (quantifierId binding.letter) position (bindingGadget binding false)) where
  gadget_eq := rfl
  ports_eq port := by
    rw [Component.getElem?_ports_ofGadget, if_pos]
    · rfl
    · obtain ⟨kind, letter⟩ := binding
      cases kind <;>
        exact List.mem_map.2
          ⟨_, List.mem_map_of_mem (QuantifierPort.mem_all port), rfl⟩

theorem evaluatorAt_ofGadget (hq : q.IsProper) (position : Point) :
    EvaluatorAt q (.ofGadget formulaId position (.evaluator q.matrix)) where
  gadget_eq := rfl
  ports_eq port hport := by
    have hids : (((Gadget.evaluator q.matrix).ports formulaId).map
        fun plan => formulaId.child plan.name) = (evaluatorPlaces q).map Place.id := by
      rw [← ids_of_centered (vertices_evaluator hq position), Part.vertices,
        ofBlueprint_evaluator hq]
      simp [Function.comp_def, PortPlan.vertex, Vertex.isolated]
    have hmem : evaluatorPort port ∈ (evaluatorPlaces q).map Place.id :=
      List.mem_map.2 ⟨_, (mem_evaluatorPlaces hq).2 hport, rfl⟩
    rw [← hids] at hmem
    obtain ⟨plan, hplan, heq⟩ := List.mem_map.1 hmem
    have hname : plan.name = port.name := by
      simpa [evaluatorPort, Ident.child] using heq
    rw [Component.getElem?_ports_ofGadget, if_pos (List.mem_map.2 ⟨plan, hplan, hname⟩)]
    rfl

theorem mem_components_plan (hq : q.IsProper) {c : Component}
    (hc : c ∈ (plan q).flatMap (Part.components .root .origin)) :
    ∃ c' ∈ circuitComponents q, c.id = c'.id ∧ c.gadget = c'.gadget ∧ c.ports = c'.ports := by
  have hmem := List.mem_map_of_mem (f := fun c : Component => { c with position := .origin }) hc
  rw [components_plan hq] at hmem
  exact ⟨_, hmem, rfl, rfl, rfl⟩

theorem exists_component_plan (hq : q.IsProper) {c' : Component}
    (hc : c' ∈ circuitComponents q) :
    ∃ c ∈ (plan q).flatMap (Part.components .root .origin),
      c.id = c'.id ∧ c.gadget = c'.gadget ∧ c.ports = c'.ports := by
  rw [← components_plan hq] at hc
  obtain ⟨c, hmem, rfl⟩ := List.mem_map.1 hc
  exact ⟨c, hmem, rfl, rfl, rfl⟩

theorem getElem?_vertices_start (hq : q.IsProper) {id : Ident} {v : Vertex} :
    ((∅ : Graph).withParts .root .origin (plan q)).vertices[id]? = some v ↔
      ∃ v' ∈ (plan q).flatMap (Part.vertices .root .origin),
        v'.id = id ∧ v'.listAll ((plan q).flatMap (Part.edges .root)) = v :=
  Registry.getElem?_insertMany_empty_map (coherent_plan hq).vertices

theorem getElem?_edges_start (hq : q.IsProper) {id : Ident} {e : Edge} :
    ((∅ : Graph).withParts .root .origin (plan q)).edges[id]? = some e ↔
      ∃ e' ∈ (plan q).flatMap (Part.edges .root), e'.id = id ∧ e' = e :=
  Registry.getElem?_insertMany_empty_map (coherent_plan hq).edges

theorem getElem?_components_start (hq : q.IsProper) {id : Ident} {c : Component} :
    ((∅ : Graph).withParts .root .origin (plan q)).components[id]? = some c ↔
      ∃ c' ∈ (plan q).flatMap (Part.components .root .origin), c'.id = id ∧ c' = c :=
  Registry.getElem?_insertMany_empty_map (coherent_plan hq).components

theorem shows_start (hq : q.IsProper) :
    Shows q ((∅ : Graph).withParts .root .origin (plan q)) .start where
  vertex p hp := by
    obtain ⟨v, hv, hcentered⟩ := exists_vertex_of_place hq hp
    have hid : v.id = p.id := congrArg Vertex.id hcentered
    exact ⟨_, (getElem?_vertices_start hq).2 ⟨v, hv, hid, rfl⟩, vertexAt_of_centered hq hcentered⟩
  place id v h := by
    obtain ⟨v', hv', rfl, rfl⟩ := (getElem?_vertices_start hq).1 h
    obtain ⟨p, hp, hcentered⟩ := exists_place_of_vertex hq hv'
    have hid : v'.id = p.id := congrArg Vertex.id hcentered
    exact ⟨p, hp, hid.symm, vertexAt_of_centered hq hcentered⟩
  edge_iff id e := by
    rw [getElem?_edges_start hq]
    simp only [mem_edges_plan hq, Board.start]
    constructor
    · rintro ⟨_, ⟨w, hw, rfl⟩, rfl, rfl⟩
      exact ⟨w, hw, rfl, rfl⟩
    · rintro ⟨w, hw, rfl, rfl⟩
      exact ⟨_, ⟨w, hw, rfl⟩, rfl, rfl⟩
  quantifier binding hb := by
    have hmem : Component.ofGadget (quantifierId binding.letter) .origin
        (bindingGadget binding false) ∈ circuitComponents q :=
      List.mem_append_left _ (List.mem_map_of_mem hb)
    obtain ⟨c, hc, hid, hgadget, hports⟩ := exists_component_plan hq hmem
    have hat := quantifierAt_ofGadget binding .origin
    refine ⟨c, (getElem?_components_start hq).2 ⟨c, hc, hid, rfl⟩, hgadget, ?_⟩
    intro port
    rw [hports, hat.ports_eq]
  evaluator := by
    have hmem : Component.ofGadget formulaId .origin (.evaluator q.matrix) ∈
        circuitComponents q :=
      List.mem_append_right _ List.mem_cons_self
    obtain ⟨c, hc, hid, hgadget, hports⟩ := exists_component_plan hq hmem
    have hat := evaluatorAt_ofGadget hq .origin
    refine ⟨c, (getElem?_components_start hq).2 ⟨c, hc, hid, rfl⟩, hgadget, ?_⟩
    intro port hport
    rw [hports, hat.ports_eq port hport]
  binding id c hc hl := by
    obtain ⟨c, hmem, rfl, rfl⟩ := (getElem?_components_start hq).1 hc
    obtain ⟨c', hmem', hid, hgadget, -⟩ := mem_components_plan hq hmem
    rw [Component.latch?, hgadget] at hl
    simp only [circuitComponents, List.mem_append, List.mem_map, List.mem_cons, List.not_mem_nil,
      or_false] at hmem'
    rcases hmem' with ⟨binding, hb, rfl⟩ | rfl | rfl | rfl
    · exact ⟨binding, hb, hid.symm⟩
    · exact absurd rfl hl
    · exact absurd rfl hl
    · exact absurd rfl hl

end Start

end ConstraintLogic.Circuit
