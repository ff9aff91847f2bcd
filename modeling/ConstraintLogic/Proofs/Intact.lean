import ConstraintLogic.Proofs.Flow
import ConstraintLogic.Proofs.Integrity
import ConstraintLogic.Proofs.Reachable
/-!
# Intact graphs

Whatever was done to a graph, also where it was refused, what the integrity check asks for holds of
its edges and its vertices: the lists of edges are exact, and what an edge carries flows into one of
its ends and out of the other. All that the check can find is a port that was removed on its own.
-/

namespace ConstraintLogic

/-! ## Ports by name -/

namespace Gate

/-- The name under which a gadget lists its port with this gate. -/
def portName (gate : Gate) : String :=
  gate.portName?.getD "port"

theorem portName_of_mem_ports {k : Gadget} {owner : Ident} {plan : PortPlan}
    (h : plan ∈ k.ports owner) : plan.gate.portName = plan.name := by
  cases k with
  | converter =>
    obtain rfl := List.mem_singleton.1 h
    rfl
  | existential letter =>
    obtain ⟨port, -, rfl⟩ := List.mem_map.1 h
    rfl
  | universal letter latch =>
    obtain ⟨port, -, rfl⟩ := List.mem_map.1 h
    rfl
  | evaluator f =>
    simp only [Gadget.ports, Gadget.letterPorts, List.mem_append, List.mem_flatMap, List.mem_cons,
      List.not_mem_nil, or_false] at h
    rcases h with ⟨-, -, rfl | rfl⟩ | rfl <;> rfl

end Gate

/-- The component has the vertex under the name of the port that its gate is for. -/
theorem Component.Lists.port {c : Component} {v : Vertex} (h : c.Lists v) :
    c.ports[v.gate.portName]? = some v.id := by
  obtain ⟨plan, hplan, hgate, hport⟩ := h
  rw [← hgate, Gate.portName_of_mem_ports hplan, hport]

/-- Seen from one of its ends, an edge points either in or out. -/
theorem Edge.EndsAt.incoming_ne_outgoing {e : Edge} {vertex : Ident} (h : e.EndsAt vertex) :
    (e.direction? vertex == some .outgoing) = !(e.direction? vertex == some .incoming) := by
  cases hd : e.direction? vertex with
  | none =>
    have hnone := Edge.direction?_eq_none_iff.1 hd
    rcases h with rfl | rfl
    · exact absurd rfl hnone.1
    · exact absurd rfl hnone.2
  | some d => cases d <;> rfl

namespace Graph

variable {g : Graph} {e : Edge} {v : Vertex} {id : Ident}

/-! ## Flow -/

theorem totalWeight_filter_add_filter_not (p : Edge → Bool) (es : List Edge) :
    totalWeight (es.filter p) + totalWeight (es.filter fun e => !p e) = totalWeight es := by
  induction es with
  | nil => rfl
  | cons e rest ih =>
    simp only [totalWeight, List.foldr_cons] at ih ⊢
    cases hp : p e <;> simp [hp] <;> omega

theorem Linked.endsAt_of_mem_incident (h : g.Linked) (hv : g.vertices[id]? = some v)
    (he : e ∈ g.incident v) : e.EndsAt v.id := by
  obtain ⟨edge, hedge, he⟩ := List.mem_filterMap.1 he
  obtain ⟨e', he', hend⟩ := (h.listed id v hv edge).1 (Std.ExtTreeSet.mem_toList.1 hedge)
  obtain rfl := Option.some.inj (he.symm.trans he')
  rwa [(h.vertices id v hv).1]

/-- What the edges of a vertex carry flows in or out, and nothing of it both ways. -/
theorem Linked.inflow_add_outflow (h : g.Linked) (hv : g.vertices[id]? = some v) :
    g.inflow v + g.outflow v = totalWeight (g.incident v) := by
  have hout : g.outgoing v =
      (g.incident v).filter fun e => !(e.direction? v.id == some .incoming) := by
    apply List.filter_congr
    intro e he
    exact (h.endsAt_of_mem_incident hv he).incoming_ne_outgoing
  rw [outflow, hout]
  exact totalWeight_filter_add_filter_not _ _

/-! ## The check -/

theorem Linked.checkEdge (h : g.Linked) (he : g.edges[id]? = some e) : g.checkEdge e = .ok () := by
  rw [checkEdge_eq_ok_iff]
  intro endpoint hmem
  have hend : e.EndsAt endpoint := by
    simpa [Edge.EndsAt, eq_comm] using hmem
  obtain ⟨v, hv⟩ := Registry.mem_iff_exists.1 (h.ends id e he endpoint hend)
  refine ⟨v, hv, (h.listed endpoint v hv e.id).2 ⟨e, ?_, hend⟩⟩
  rwa [(h.edges id e he).1]

theorem Linked.checkVertex (h : g.Linked) (hv : g.vertices[id]? = some v) :
    g.checkVertex v = .ok () := by
  refine checkVertex_eq_ok_iff.2 ⟨?_, h.inflow_add_outflow hv⟩
  intro edge hedge
  obtain ⟨e, he, hend⟩ := (h.listed id v hv edge).1 hedge
  rw [(h.vertices id v hv).1]
  exact ⟨e, he, hend⟩

/-- Every port that a component lists is a vertex whose gate names the component. -/
def PortsKept (g : Graph) : Prop :=
  ∀ (id : Ident) (c : Component), g.components[id]? = some c →
    ∀ (name : String) (port : Ident), c.ports[name]? = some port →
      ∃ v, g.vertices[port]? = some v ∧ v.gate.owner? = some id

theorem Consistent.checkIntegrity_eq_ok_iff_portsKept (h : g.Consistent) :
    g.checkIntegrity = .ok () ↔ g.PortsKept := by
  rw [checkIntegrity_eq_ok_iff]
  constructor
  · rintro ⟨-, -, hcomponents⟩ id c hc name port hport
    have hnamed := (h.components id c hc).1
    rw [← hnamed]
    exact checkComponent_eq_ok_iff.1 (hcomponents id c hc) name port hport
  · intro hports
    refine ⟨fun id e he => h.toLinked.checkEdge he, fun id v hv => h.toLinked.checkVertex hv, ?_⟩
    intro id c hc
    rw [checkComponent_eq_ok_iff, (h.components id c hc).1]
    exact hports id c hc

/-! ## Histories -/

/-- What is stored is as the names, the lists of edges and the gates say, and the integrity check
finds nothing but ports that are gone. -/
structure Intact (g : Graph) : Prop extends Consistent g where
  port : ∀ (id : Ident) (v : Vertex) (owner : Ident), g.vertices[id]? = some v →
    v.gate.owner? = some owner → ∃ c, g.components[owner]? = some c ∧
      c.ports[v.gate.portName]? = some id ∧ c.gadget.gateKind = v.gate.kind
  checked : g.checkIntegrity = .ok () ↔ g.PortsKept

/-- Whatever was done to a graph since it was empty, it is intact. -/
theorem Reachable.intact (h : g.Reachable) : g.Intact where
  toConsistent := h.consistent
  port id v owner hv howner := by
    obtain ⟨c, hc, hlists⟩ := h.consistent.owned id v owner hv howner
    refine ⟨c, hc, ?_, hlists.gate.2.symm⟩
    rw [hlists.port, (h.consistent.vertices id v hv).1]
  checked := h.consistent.checkIntegrity_eq_ok_iff_portsKept

/-- A converter that has lost its port with the loop at it, and whose place a plain vertex took;
putting the converter there again is refused. -/
def lostPort : Graph :=
  let converter : Ident := ⟨["c"]⟩
  let port : Ident := converter.child "port"
  afterAll ∅
    [.addComponent converter .origin .converter,
     .addEdge ⟨["loop"]⟩ port port .double,
     .removeVertex port,
     .addVertex port .origin true,
     .addEdge ⟨["loop"]⟩ port port .single,
     .addComponent converter .origin .converter]

/-- The check finds that the vertex under the name of the port is no port. -/
theorem intact_lostPort :
    lostPort.Reachable ∧ lostPort.Intact ∧ lostPort.checkIntegrity ≠ .ok () := by
  have hreach : lostPort.Reachable := ⟨_, rfl⟩
  have hintact := hreach.intact
  refine ⟨hreach, hintact, fun hok => ?_⟩
  have hcomponent : lostPort.components[(⟨["c"]⟩ : Ident)]? =
      some (.ofGadget ⟨["c"]⟩ .origin .converter) := rfl
  obtain ⟨v, hv, howner⟩ :=
    hintact.checked.1 hok _ _ hcomponent "port" ⟨["c", "port"]⟩ (by decide +kernel)
  have hplain : lostPort.vertices[(⟨["c", "port"]⟩ : Ident)]?.map Vertex.gate = some .plain := by
    decide +kernel
  rw [hv, Option.map_some, Option.some.injEq] at hplain
  rw [hplain] at howner
  cases howner

end Graph

end ConstraintLogic
