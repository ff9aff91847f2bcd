import ConstraintLogic.Proofs.Circuit.Shown
/-!
# The rules of vertices and of cells

Where a graph shows a board, a vertex is satisfied exactly if its cell obeys its rule on the board.
-/

namespace ConstraintLogic.Circuit

variable {q : Qbf} {g : Graph} {b : Board} {p : Place} {v : Vertex}

/-! ## Wires seen from their ends -/

namespace Wire

variable {ls : List Char} {w : Wire}

theorem id_driver_ne_receiver (hw : w ≠ loop) : (w.driver ls).id ≠ (w.receiver ls).id := by
  intro h
  exact driver_ne_receiver hw (Place.id_injective h)

theorem circular_edge (hw : w ≠ loop) (on : Bool) : (w.edge ls on).circular = false := by
  have hne : (w.driver ls).id ≠ (w.receiver ls).id := id_driver_ne_receiver hw
  cases on <;> simp [edge, Edge.circular, hne, hne.symm]

theorem direction?_edge_receiver (hw : w ≠ loop) (on : Bool) :
    (w.edge ls on).direction? (w.receiver ls).id =
      some (if on then .incoming else .outgoing) := by
  have hne : (w.driver ls).id ≠ (w.receiver ls).id := id_driver_ne_receiver hw
  cases on <;> simp [edge, Edge.direction?, hne.symm]

theorem direction?_edge_driver (hw : w ≠ loop) (on : Bool) :
    (w.edge ls on).direction? (w.driver ls).id =
      some (if on then .outgoing else .incoming) := by
  have hne : (w.driver ls).id ≠ (w.receiver ls).id := id_driver_ne_receiver hw
  cases on <;> simp [edge, Edge.direction?, hne]

theorem incoming_of_receiver (hw : w ≠ loop) (hp : w.receiver ls = p) (on : Bool) :
    ((w.edge ls on).direction? p.id == some .incoming) = on := by
  rw [← hp, direction?_edge_receiver hw]
  cases on <;> rfl

theorem incoming_of_driver (hw : w ≠ loop) (hp : w.driver ls = p) (on : Bool) :
    ((w.edge ls on).direction? p.id == some .incoming) = !on := by
  rw [← hp, direction?_edge_driver hw]
  cases on <;> rfl

end Wire

theorem isIn_of_mem_wiresAt (hp : p.IsIn (letters q)) {w : Wire}
    (hw : w ∈ wiresAt (letters q) p) : w.IsIn (letters q) := by
  cases p with
  | port letter port =>
    have hlt : (letters q).idxOf letter < (letters q).length := List.idxOf_lt_length_of_mem hp
    obtain rfl := List.mem_singleton.1 hw
    cases port with
    | tryIn | satOut => exact Nat.le_of_lt hlt
    | tryOut | satIn => exact hlt
    | out | inv => exact hp
  | evaluator port =>
    cases port with
    | literal l =>
      obtain rfl := List.mem_singleton.1 hw
      exact hp
    | satisfied =>
      obtain rfl := List.mem_singleton.1 hw
      trivial
  | _ =>
    simp only [wiresAt, List.mem_cons, List.not_mem_nil, or_false] at hw
    rcases hw with rfl | rfl | rfl <;> simp [Wire.IsIn]

theorem nodup_wiresAt (ls : List Char) (p : Place) : (wiresAt ls p).Nodup := by
  cases p with
  | evaluator port => cases port <;> simp [wiresAt]
  | _ => simp [wiresAt]

/-- The edges at a vertex are the wires at its place. -/
theorem Shows.incident_perm (hq : q.IsProper) (h : Shows q g b) (hp : p.IsIn (letters q))
    (hv : VertexAt q p v) :
    (g.incident v).Perm ((wiresAt (letters q) p).map fun w => w.edge (letters q) (b.on w)) := by
  have hids : ((wiresAt (letters q) p).map (Wire.id (letters q))).Nodup :=
    (nodup_wiresAt _ _).map fun _ _ h => Wire.id_injective h
  have hmem (id : Ident) :
      id ∈ v.edges ↔ id ∈ (wiresAt (letters q) p).map (Wire.id (letters q)) := by
    rw [hv.mem_edges_iff, List.mem_map]
    constructor
    · rintro ⟨w, hw, ht, rfl⟩
      exact ⟨w, (touches_iff hq.nodup (letters_ne_nil hq) hp hw).1 ht, rfl⟩
    · rintro ⟨w, hw, rfl⟩
      have hin := isIn_of_mem_wiresAt hp hw
      exact ⟨w, hin, (touches_iff hq.nodup (letters_ne_nil hq) hp hin).2 hw, rfl⟩
  have hperm := Graph.incident_perm (g := g) hids hmem
  have hedges : ((wiresAt (letters q) p).map (Wire.id (letters q))).filterMap (g.edges[·]?) =
      (wiresAt (letters q) p).map fun w => w.edge (letters q) (b.on w) := by
    rw [List.filterMap_map, ← List.filterMap_eq_map]
    apply List.filterMap_congr
    intro w hw
    exact (h.edge_iff _ _).2 ⟨w, isIn_of_mem_wiresAt hp hw, rfl, rfl⟩
  rwa [hedges] at hperm

/-! ## Signals -/

section Signals

variable {w : Wire} {c : Component}

theorem Shows.receives_eq (hq : q.IsProper) (h : Shows q g b) (hp : p.IsIn (letters q))
    (hv : VertexAt q p v) (hw : w ≠ .loop) (hat : wiresAt (letters q) p = [w])
    (hr : w.receiver (letters q) = p) : g.receives v = b.on w := by
  rw [Graph.receives_of_incident (h.incident_perm hq hp hv), hat, List.map_singleton,
    List.any_cons, List.any_nil, Bool.or_false, Graph.enters, Wire.circular_edge hw, hv.id_eq, ← hr,
    Wire.direction?_edge_receiver hw]
  cases b.on w <;> rfl

theorem Shows.drives_eq (hq : q.IsProper) (h : Shows q g b) (hp : p.IsIn (letters q))
    (hv : VertexAt q p v) (hw : w ≠ .loop) (hat : wiresAt (letters q) p = [w])
    (hd : w.driver (letters q) = p) : g.drives v = b.on w := by
  rw [Graph.drives_of_incident (h.incident_perm hq hp hv), hat, List.map_singleton,
    List.any_cons, List.any_nil, Bool.or_false, Graph.leaves, Wire.circular_edge hw, hv.id_eq, ← hd,
    Wire.direction?_edge_driver hw]
  cases b.on w <;> rfl

theorem Shows.portReceives_eq (hq : q.IsProper) (h : Shows q g b) {name : String}
    (hc : c.ports[name]? = some p.id) (hp : p.IsIn (letters q)) (hw : w ≠ .loop)
    (hat : wiresAt (letters q) p = [w]) (hr : w.receiver (letters q) = p) :
    g.portReceives c name = b.on w := by
  obtain ⟨v, hv, hvat⟩ := h.vertex p hp
  rw [Graph.portReceives, Graph.port?, hc, Option.bind_some, hv, Option.any_some,
    h.receives_eq hq hp hvat hw hat hr]

theorem Shows.portDrives_eq (hq : q.IsProper) (h : Shows q g b) {name : String}
    (hc : c.ports[name]? = some p.id) (hp : p.IsIn (letters q)) (hw : w ≠ .loop)
    (hat : wiresAt (letters q) p = [w]) (hd : w.driver (letters q) = p) :
    g.portDrives c name = b.on w := by
  obtain ⟨v, hv, hvat⟩ := h.vertex p hp
  rw [Graph.portDrives, Graph.port?, hc, Option.bind_some, hv, Option.any_some,
    h.drives_eq hq hp hvat hw hat hd]

theorem driver_portWire {ls : List Char} {index : Nat} {letter : Char}
    (hl : ls[index]? = some letter) :
    (portWire index letter .tryOut).driver ls = .port letter .tryOut ∧
      (portWire index letter .satOut).driver ls = .port letter .satOut := by
  simp [portWire, Wire.driver, portOr, hl]

theorem receiver_portWire {ls : List Char} {index : Nat} {letter : Char}
    (hl : ls[index]? = some letter) :
    (portWire index letter .tryIn).receiver ls = .port letter .tryIn ∧
      (portWire index letter .satIn).receiver ls = .port letter .satIn := by
  simp [portWire, Wire.receiver, portOr, hl]

theorem Shows.signals_eq (hq : q.IsProper) (h : Shows q g b) {index : Nat} {binding : Binding}
    (hb : q.bindings[index]? = some binding) {latch : Bool} (hc : QuantifierAt binding latch c) :
    g.signals c = b.signals index binding.letter := by
  have hl := getElem?_letters hb
  have hat (port : QuantifierPort) : wiresAt (letters q) (.port binding.letter port) =
      [portWire index binding.letter port] := by
    rw [wiresAt, idxOf_letter hq.nodup hb]
  have hin (port : QuantifierPort) : (Place.port binding.letter port).IsIn (letters q) :=
    List.mem_of_getElem? hl
  have hd := driver_portWire hl
  have hr := receiver_portWire hl
  rw [Graph.signals,
    h.portReceives_eq hq (hc.ports_eq .tryIn) (hin _) (by simp [portWire]) (hat .tryIn) hr.1,
    h.portDrives_eq hq (hc.ports_eq .tryOut) (hin _) (by simp [portWire]) (hat .tryOut) hd.1,
    h.portReceives_eq hq (hc.ports_eq .satIn) (hin _) (by simp [portWire]) (hat .satIn) hr.2,
    h.portDrives_eq hq (hc.ports_eq .satOut) (hin _) (by simp [portWire]) (hat .satOut) hd.2,
    h.portDrives_eq hq (hc.ports_eq .out) (hin _) (by simp [portWire]) (hat .out) rfl,
    h.portDrives_eq hq (hc.ports_eq .inv) (hin _) (by simp [portWire]) (hat .inv) rfl]
  rfl

theorem Shows.formulaHolds_eq (hq : q.IsProper) (h : Shows q g b) (hc : EvaluatorAt q c) :
    g.formulaHolds c q.matrix = b.formulaHolds q.matrix := by
  apply Cnf.evaluate_congr
  intro clause hclause l hl
  have hin : (Place.evaluator (.literal l)).IsIn (letters q) := hq.letter_mem clause hclause l hl
  have hport : c.ports[(EvaluatorPort.literal l).name]? =
      some (Place.evaluator (.literal l)).id := hc.ports_eq _ hin
  exact h.portReceives_eq hq hport hin (by simp) rfl rfl

theorem Shows.ownerHolds_quantifier (hq : q.IsProper) (h : Shows q g b) {index : Nat}
    {binding : Binding} (hb : q.bindings[index]? = some binding) :
    g.ownerHolds (quantifierId binding.letter) = b.quantifierHolds index binding := by
  obtain ⟨c, hc, hat⟩ := h.quantifier binding (List.mem_of_getElem? hb)
  have hsignals := h.signals_eq hq hb hat
  rw [Graph.ownerHolds, hc, Option.any_some, Graph.gadgetHolds, hat.gadget_eq]
  obtain ⟨kind, letter⟩ := binding
  cases kind <;> simp [bindingGadget, hsignals, Board.quantifierHolds]

theorem Shows.ownerHolds_evaluator (hq : q.IsProper) (h : Shows q g b) :
    g.ownerHolds formulaId = b.holds q .evaluator := by
  obtain ⟨c, hc, hat⟩ := h.evaluator
  have hin : (Place.evaluator .satisfied).IsIn (letters q) := trivial
  rw [Graph.ownerHolds, hc, Option.any_some, Graph.gadgetHolds, hat.gadget_eq]
  simp only [h.formulaHolds_eq hq hat, Board.holds]
  have hport : c.ports[EvaluatorPort.satisfied.name]? =
      some (Place.evaluator .satisfied).id := hat.ports_eq _ hin
  rw [h.portDrives_eq hq hport hin (by simp) rfl rfl]

end Signals

/-! ## Flow -/

theorem Shows.isWired_eq (hq : q.IsProper) (h : Shows q g b) (hp : p.IsIn (letters q))
    (hv : VertexAt q p v) (arity : Arity) :
    g.isWired v arity =
      ((wiresAt (letters q) p).countP (fun w => w.weight == .single) == arity.singles &&
        (wiresAt (letters q) p).countP (fun w => w.weight == .double) == arity.doubles) := by
  rw [Graph.isWired_of_incident (h.incident_perm hq hp hv), List.countP_map, List.countP_map]
  rfl

theorem Shows.inflow_eq (hq : q.IsProper) (h : Shows q g b) (hp : p.IsIn (letters q))
    (hv : VertexAt q p v) :
    g.inflow v = Graph.totalWeight (((wiresAt (letters q) p).map fun w =>
      w.edge (letters q) (b.on w)).filter fun e => e.direction? p.id == some .incoming) := by
  rw [Graph.inflow_of_incident (h.incident_perm hq hp hv), hv.id_eq]

/-- A vertex is satisfied exactly if the cell of its place obeys its rule. -/
theorem Shows.isSatisfied_eq (hq : q.IsProper) (h : Shows q g b) (hp : p.IsIn (letters q))
    (hv : VertexAt q p v) : g.isSatisfied v = b.holds q (p.cell (letters q)) := by
  have hinflow := h.inflow_eq hq hp hv
  rw [Graph.isSatisfied, hv.gate_eq, hv.visible]
  cases p with
  | port letter port =>
    obtain ⟨binding, hb, rfl⟩ := List.mem_map.1 hp
    obtain ⟨index, hi⟩ := List.mem_iff_getElem?.1 hb
    have hwired : g.isWired v port.arity = true := by
      rw [h.isWired_eq hq hp hv, wiresAt]
      cases port <;> rfl
    have howner := h.ownerHolds_quantifier hq hi
    rw [gate_port hq.nodup hi, portGate, Place.cell, idxOf_letter hq.nodup hi, Board.holds, hi]
    cases binding.quantifier <;> simp [hwired, howner]
  | evaluator port =>
    have hwired : g.isWired v port.arity = true := by
      rw [h.isWired_eq hq hp hv]
      cases port <;> rfl
    have howner := h.ownerHolds_evaluator hq
    simp [Place.gate, Place.cell, hwired, howner]
  | callProbe =>
    have hwired : g.isWired v ⟨1, 1⟩ = true := by
      rw [h.isWired_eq hq hp hv]
      rfl
    have hcall : (Wire.call (letters q).length).receiver (letters q) = .callProbe :=
      portOr_of_length_le (Nat.le_refl _) _ _
    simp only [wiresAt, List.map_cons, List.map_nil, List.filter_cons, List.filter_nil,
      Wire.incoming_of_receiver (w := .call (letters q).length) (by simp) hcall,
      Wire.incoming_of_driver (w := .called) (p := .callProbe) (by simp) rfl] at hinflow
    simp only [Place.gate, Place.cell, Board.holds, hinflow, hwired, ← length_letters]
    cases b.on (.call (letters q).length) <;> cases b.on .called <;> rfl
  | resultProbe =>
    have hwired : g.isWired v ⟨1, 1⟩ = true := by
      rw [h.isWired_eq hq hp hv]
      rfl
    simp only [wiresAt, List.map_cons, List.map_nil, List.filter_cons, List.filter_nil,
      Wire.incoming_of_receiver (w := .result) (p := .resultProbe) (by simp) rfl,
      Wire.incoming_of_driver (w := .told) (p := .resultProbe) (by simp) rfl] at hinflow
    simp only [Place.gate, Place.cell, Board.holds, hinflow, hwired]
    cases b.on .result <;> cases b.on .told <;> rfl
  | junction =>
    have hsuccess : (Wire.success (letters q).length).driver (letters q) = .junction :=
      portOr_of_length_le (Nat.le_refl _) _ _
    simp only [wiresAt, List.map_cons, List.map_nil, List.filter_cons, List.filter_nil,
      Wire.incoming_of_receiver (w := .called) (p := .junction) (by simp) rfl,
      Wire.incoming_of_receiver (w := .told) (p := .junction) (by simp) rfl,
      Wire.incoming_of_driver (w := .success (letters q).length) (by simp) hsuccess] at hinflow
    simp only [Place.gate, Place.cell, Board.holds, hinflow, ← length_letters]
    cases b.on .called <;> cases b.on .told <;> cases b.on (.success (letters q).length) <;> rfl
  | source =>
    have hloop : (((Wire.loop).edge (letters q) (b.on .loop)).direction? Place.source.id ==
        some .incoming) = true := by
      cases b.on .loop <;> rfl
    simp only [wiresAt, List.map_cons, List.map_nil, List.filter_cons, List.filter_nil, hloop,
      Wire.incoming_of_driver (w := .call 0) (p := .source) (by simp) rfl] at hinflow
    simp only [Place.gate, Place.cell, Board.holds, hinflow]
    cases b.on (.call 0) <;> rfl
  | sinkA =>
    simp only [wiresAt, List.map_cons, List.map_nil, List.filter_cons, List.filter_nil,
      Wire.incoming_of_receiver (w := .ringAB) (p := .sinkA) (by simp) rfl,
      Wire.incoming_of_driver (w := .ringCA) (p := .sinkA) (by simp) rfl,
      Wire.incoming_of_receiver (w := .success 0) (p := .sinkA) (by simp) rfl] at hinflow
    simp only [Place.gate, Place.cell, Board.holds, hinflow]
    cases b.on .ringAB <;> cases b.on .ringCA <;> cases b.on (.success 0) <;> rfl
  | sinkB =>
    simp only [wiresAt, List.map_cons, List.map_nil, List.filter_cons, List.filter_nil,
      Wire.incoming_of_driver (w := .ringAB) (p := .sinkB) (by simp) rfl,
      Wire.incoming_of_receiver (w := .ringBC) (p := .sinkB) (by simp) rfl] at hinflow
    simp only [Place.gate, Place.cell, Board.holds, hinflow]
    cases b.on .ringAB <;> cases b.on .ringBC <;> rfl
  | sinkC =>
    simp only [wiresAt, List.map_cons, List.map_nil, List.filter_cons, List.filter_nil,
      Wire.incoming_of_driver (w := .ringBC) (p := .sinkC) (by simp) rfl,
      Wire.incoming_of_receiver (w := .ringCA) (p := .sinkC) (by simp) rfl] at hinflow
    simp only [Place.gate, Place.cell, Board.holds, hinflow]
    cases b.on .ringBC <;> cases b.on .ringCA <;> rfl

end ConstraintLogic.Circuit
