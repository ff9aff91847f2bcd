import ConstraintLogic.Proofs.Copy
import ConstraintLogic.Proofs.Intact
import ConstraintLogic.Proofs.Circuit.Settled
/-!
# Circuits inside scopes

The parts of a circuit can be placed inside any scope whose names are free, and they bring the same
as on their own, only with other names and at other positions. So a graph into which a circuit is
compiled holds a copy of it, and since the latches of a circuit are always settled, the copy is
played as the circuit on its own, whatever is played elsewhere in the graph.
-/

namespace ConstraintLogic

/-! ## Entities of parts -/

namespace Vertex

variable (scope : Ident) (position : Point)

theorem within_isolated (id : Ident) (position' : Point) (visible : Bool) (gate : Gate) :
    (isolated id position' visible gate).within scope position =
      .isolated (scope.join id) position visible (gate.within scope) :=
  eq_of_mem_edges rfl fun edge => by
    simp [within, isolated, IdentSet.mem_within, Std.ExtTreeSet.not_mem_empty]

theorem within_listAll (v : Vertex) (es : List Edge) :
    (v.listAll es).within scope position =
      (v.within scope position).listAll (es.map (Edge.within scope)) := by
  refine eq_of_mem_edges rfl fun edge => ?_
  have hends (e : Edge) : ((e.within scope).source = scope.join v.id ↔ e.source = v.id) ∧
      ((e.within scope).target = scope.join v.id ↔ e.target = v.id) :=
    ⟨(Ident.join_injective scope).eq_iff, (Ident.join_injective scope).eq_iff⟩
  have hid : (v.within scope position).id = scope.join v.id := rfl
  rw [mem_edges_listAll, hid]
  simp only [within, IdentSet.mem_within, mem_edges_listAll, List.mem_map]
  constructor
  · rintro ⟨inner, hold | ⟨e, he, hend, rfl⟩, rfl⟩
    · exact .inl ⟨inner, hold, rfl⟩
    · exact .inr ⟨_, ⟨e, he, rfl⟩, hend.imp (hends e).1.2 (hends e).2.2, rfl⟩
  · rintro (⟨inner, hold, rfl⟩ | ⟨_, ⟨e, he, rfl⟩, hend, rfl⟩)
    · exact ⟨inner, .inl hold, rfl⟩
    · exact ⟨e.id, .inr ⟨e, he, hend.imp (hends e).1.1 (hends e).2.1, rfl⟩, rfl⟩

end Vertex

theorem Gadget.ports_join (scope owner : Ident) (k : Gadget) :
    k.ports (scope.join owner) =
      (k.ports owner).map fun plan => { plan with gate := plan.gate.within scope } := by
  cases k with
  | converter => rfl
  | existential | universal => rfl
  | evaluator f => simp [ports, letterPorts, List.map_flatMap, Gate.within]

theorem Gadget.ports_ne_nil (k : Gadget) (owner : Ident) : k.ports owner ≠ [] := by
  cases k <;> simp [ports, QuantifierPort.all]

theorem Component.within_ofGadget (scope id : Ident) (position position' : Point) (k : Gadget) :
    (ofGadget id position' k).within scope position = ofGadget (scope.join id) position k := by
  have hports : ((ofGadget id position' k).within scope position).ports =
      (ofGadget (scope.join id) position k).ports := by
    apply Std.ExtTreeMap.ext_getElem?
    intro name
    rw [getElem?_ports_within, getElem?_ports_ofGadget, getElem?_ports_ofGadget,
      Gadget.ports_join, List.map_map]
    simp only [Function.comp_def]
    split_ifs
    · rw [Option.map_some, Ident.join_child]
    · rfl
  have hrest : (ofGadget id position' k).within scope position =
      { ofGadget (scope.join id) position k with
        ports := ((ofGadget id position' k).within scope position).ports } := rfl
  rw [hrest, hports]

namespace Part

open Circuit (centered)

variable (scope : Ident) (offset : Point)

theorem vertices_inside (p : Part) :
    (p.vertices scope offset).map centered =
      (p.vertices .root .origin).map (Vertex.within scope .origin) := by
  have hcentered (id : Ident) (position : Point) (gate : Gate) :
      centered (.isolated id position true gate) = .isolated id .origin true gate := rfl
  cases p with
  | vertex | edge | label => simp [vertices, Vertex.within_isolated, hcentered, Gate.within]
  | component id position blueprint =>
    cases hgadget : Gadget.ofBlueprint blueprint with
    | error fault => simp [vertices, hgadget]
    | ok gadget =>
      simp [vertices, hgadget, Gadget.ports_join, PortPlan.vertex, Vertex.within_isolated,
        hcentered, Ident.join_child]

theorem edges_inside (p : Part) : p.edges scope = (p.edges .root).map (Edge.within scope) := by
  cases p <;> simp [edges, Edge.within]

theorem components_inside (p : Part) :
    (p.components scope offset).map (fun c => { c with position := .origin }) =
      (p.components .root .origin).map (Component.within scope .origin) := by
  cases p with
  | vertex | edge | label => rfl
  | component id position blueprint =>
    cases hgadget : Gadget.ofBlueprint blueprint with
    | error fault => simp [components, hgadget]
    | ok gadget =>
      simp only [components, hgadget, List.map_singleton, Component.within_ofGadget,
        Ident.root_join]
      rfl

theorem labels_inside (p : Part) :
    (p.labels scope offset).map Label.id =
      ((p.labels .root .origin).map Label.id).map scope.join := by
  cases p <;> simp [labels]

end Part

/-! ## Placing parts in a scope -/

section Parts

open Circuit (centered)

variable {scope : Ident} {offset : Point} {ps : List Part} {g : Graph}

theorem flatMap_edges_inside (scope : Ident) (ps : List Part) :
    ps.flatMap (Part.edges scope) = (ps.flatMap (Part.edges .root)).map (Edge.within scope) := by
  rw [List.map_flatMap]
  exact congrArg (ps.flatMap ·) (funext (Part.edges_inside scope))

theorem flatMap_vertices_inside (scope : Ident) (offset : Point) (ps : List Part) :
    (ps.flatMap (Part.vertices scope offset)).map centered =
      (ps.flatMap (Part.vertices .root .origin)).map (Vertex.within scope .origin) := by
  rw [List.map_flatMap, List.map_flatMap]
  exact congrArg (ps.flatMap ·) (funext (Part.vertices_inside scope offset))

theorem flatMap_components_inside (scope : Ident) (offset : Point) (ps : List Part) :
    (ps.flatMap (Part.components scope offset)).map (fun c => { c with position := .origin }) =
      (ps.flatMap (Part.components .root .origin)).map (Component.within scope .origin) := by
  rw [List.map_flatMap, List.map_flatMap]
  exact congrArg (ps.flatMap ·) (funext (Part.components_inside scope offset))

theorem ids_vertices_inside (scope : Ident) (offset : Point) (ps : List Part) :
    (ps.flatMap (Part.vertices scope offset)).map Vertex.id =
      ((ps.flatMap (Part.vertices .root .origin)).map Vertex.id).map scope.join := by
  have hids := congrArg (List.map Vertex.id) (flatMap_vertices_inside scope offset ps)
  rw [List.map_map, List.map_map] at hids
  rw [List.map_map]
  exact hids

theorem ids_components_inside (scope : Ident) (offset : Point) (ps : List Part) :
    (ps.flatMap (Part.components scope offset)).map Component.id =
      ((ps.flatMap (Part.components .root .origin)).map Component.id).map scope.join := by
  have hids := congrArg (List.map Component.id) (flatMap_components_inside scope offset ps)
  rw [List.map_map, List.map_map] at hids
  rw [List.map_map]
  exact hids

theorem ids_edges_inside (scope : Ident) (ps : List Part) :
    (ps.flatMap (Part.edges scope)).map Edge.id =
      ((ps.flatMap (Part.edges .root)).map Edge.id).map scope.join := by
  rw [flatMap_edges_inside, List.map_map, List.map_map]
  rfl

theorem ids_labels_inside (scope : Ident) (offset : Point) (ps : List Part) :
    (ps.flatMap (Part.labels scope offset)).map Label.id =
      ((ps.flatMap (Part.labels .root .origin)).map Label.id).map scope.join := by
  rw [List.map_flatMap, List.map_flatMap, List.map_flatMap]
  exact congrArg (ps.flatMap ·) (funext (Part.labels_inside scope offset))

theorem ordered_inside {known : List Ident} (h : Ordered .root .origin known ps) :
    Ordered scope offset (known.map scope.join) ps := by
  induction ps generalizing known with
  | nil => trivial
  | cons p rest ih =>
    refine ⟨?_, ?_⟩
    · intro e he
      rw [Part.edges_inside] at he
      obtain ⟨e', he', rfl⟩ := List.mem_map.1 he
      exact (h.1 e' he').imp List.mem_map_of_mem List.mem_map_of_mem
    · have hids := ids_vertices_inside scope offset [p]
      rw [List.flatMap_singleton, List.flatMap_singleton] at hids
      rw [hids, ← List.map_append]
      exact ih h.2

theorem Coherent.inside (h : Coherent .root .origin ps) : Coherent scope offset ps where
  vertices := by
    rw [ids_vertices_inside]
    exact h.vertices.map (Ident.join_injective scope)
  edges := by
    rw [ids_edges_inside]
    exact h.edges.map (Ident.join_injective scope)
  components := by
    rw [ids_components_inside]
    exact h.components.map (Ident.join_injective scope)
  labels := by
    rw [ids_labels_inside]
    exact h.labels.map (Ident.join_injective scope)
  named p hp := by
    have hnamed := h.named p hp
    rw [Ident.root_join] at hnamed
    rw [Ident.isRoot_join, hnamed, Bool.and_false]
  sound := h.sound
  ordered := ordered_inside h.ordered

theorem exists_vertex_inside (scope : Ident) (offset : Point) {v : Vertex}
    (hv : v ∈ ps.flatMap (Part.vertices .root .origin)) :
    ∃ position, v.within scope position ∈ ps.flatMap (Part.vertices scope offset) := by
  have hmem := List.mem_map_of_mem (f := Vertex.within scope .origin) hv
  rw [← flatMap_vertices_inside scope offset] at hmem
  obtain ⟨v', hv', hsame⟩ := List.mem_map.1 hmem
  have hcopy : v.within scope v'.position = v' :=
    congrArg (fun v : Vertex => { v with position := v'.position }) hsame.symm
  exact ⟨v'.position, by rwa [hcopy]⟩

theorem exists_component_inside (scope : Ident) (offset : Point) {c : Component}
    (hc : c ∈ ps.flatMap (Part.components .root .origin)) :
    ∃ position, c.within scope position ∈ ps.flatMap (Part.components scope offset) := by
  have hmem := List.mem_map_of_mem (f := Component.within scope .origin) hc
  rw [← flatMap_components_inside scope offset] at hmem
  obtain ⟨c', hc', hsame⟩ := List.mem_map.1 hmem
  have hcopy : c.within scope c'.position = c' :=
    congrArg (fun c : Component => { c with position := c'.position }) hsame.symm
  exact ⟨c'.position, by rwa [hcopy]⟩

/-- What parts bring inside a scope is a copy of what they are on their own. -/
theorem hasCopy_withParts (h : Coherent .root .origin ps) :
    (g.withParts scope offset ps).HasCopy scope ((∅ : Graph).withParts .root .origin ps) where
  vertex id v hv := by
    obtain ⟨v, hmem, rfl, rfl⟩ := (Registry.getElem?_insertMany_empty_map h.vertices).1 hv
    obtain ⟨position, hcopy⟩ := exists_vertex_inside scope offset hmem
    refine ⟨position, ?_⟩
    rw [Vertex.within_listAll, ← flatMap_edges_inside]
    exact Registry.getElem?_insertMany_map_of_mem h.inside.vertices hcopy
  edge id e he := by
    obtain ⟨e, hmem, rfl, rfl⟩ := (Registry.getElem?_insertMany_empty_map h.edges).1 he
    have hcopy : e.within scope ∈ ps.flatMap (Part.edges scope) := by
      rw [flatMap_edges_inside]
      exact List.mem_map_of_mem hmem
    have hcoherent : Coherent scope offset ps := h.inside
    exact Registry.getElem?_insertMany_map_of_mem hcoherent.edges hcopy
  component id c hc := by
    obtain ⟨c, hmem, rfl, rfl⟩ := (Registry.getElem?_insertMany_empty_map h.components).1 hc
    obtain ⟨position, hcopy⟩ := exists_component_inside scope offset hmem
    exact ⟨position, Registry.getElem?_insertMany_map_of_mem h.inside.components hcopy⟩

/-- The ports of a component that is placed are placed with it. -/
theorem ports_of_mem_components {c : Component}
    (hc : c ∈ ps.flatMap (Part.components scope offset)) :
    c.ports = (Component.ofGadget c.id c.position c.gadget).ports ∧
      ∀ plan ∈ c.gadget.ports c.id,
        plan.vertex c.id c.position ∈ ps.flatMap (Part.vertices scope offset) := by
  obtain ⟨p, hp, hc⟩ := List.mem_flatMap.1 hc
  cases p with
  | vertex | edge | label => cases hc
  | component id position blueprint =>
    cases hgadget : Gadget.ofBlueprint blueprint with
    | error fault => simp [Part.components, hgadget] at hc
    | ok gadget =>
      simp only [Part.components, hgadget, List.mem_singleton] at hc
      subst hc
      refine ⟨rfl, fun plan hplan => List.mem_flatMap.2 ⟨_, hp, ?_⟩⟩
      simp only [Part.vertices, hgadget]
      exact List.mem_map_of_mem hplan

/-- The ports of components that are placed name them. -/
theorem portsKept_withParts (h : Coherent .root .origin ps) :
    ((∅ : Graph).withParts .root .origin ps).PortsKept := by
  intro id c hc name port hport
  obtain ⟨c, hmem, rfl, rfl⟩ := (Registry.getElem?_insertMany_empty_map h.components).1 hc
  obtain ⟨hports, hvertices⟩ := ports_of_mem_components hmem
  rw [hports, Component.getElem?_ports_ofGadget] at hport
  split_ifs at hport with hname
  obtain ⟨plan, hplan, rfl⟩ := List.mem_map.1 hname
  obtain rfl := Option.some.inj hport
  exact ⟨_, Registry.getElem?_insertMany_map_of_mem h.vertices (hvertices plan hplan),
    (Gadget.gate_of_mem_ports hplan).1⟩

theorem whole_withParts (h : Coherent .root .origin ps)
    (hc : ((∅ : Graph).withParts .root .origin ps).Consistent) :
    ((∅ : Graph).withParts .root .origin ps).Whole where
  toConsistent := hc
  ports id c hc name port hport := by
    obtain ⟨v, hv, -⟩ := portsKept_withParts h id c hc name port hport
    exact Registry.mem_of_getElem? hv
  owns id c hc := by
    obtain ⟨c, hmem, rfl, rfl⟩ := (Registry.getElem?_insertMany_empty_map h.components).1 hc
    obtain ⟨-, hvertices⟩ := ports_of_mem_components hmem
    obtain ⟨plan, hplan⟩ := List.exists_mem_of_ne_nil _ (c.gadget.ports_ne_nil c.id)
    exact ⟨_, _, Registry.getElem?_insertMany_map_of_mem h.vertices (hvertices plan hplan),
      (Gadget.gate_of_mem_ports hplan).1⟩

/-- No name in the graph stands inside the scope. -/
def Graph.avoids (g : Graph) (scope : Ident) : Bool :=
  (g.vertices.keys ++ g.edges.keys ++ g.components.keys ++ g.labels.keys).all fun id =>
    (scope.inside? id).isNone

theorem Graph.isFree_of_avoids (h : g.avoids scope = true) : g.IsFree scope offset ps := by
  simp only [avoids, List.all_append, Bool.and_eq_true, List.all_eq_true,
    Std.ExtTreeMap.mem_keys, Option.isNone_iff_eq_none] at h
  obtain ⟨⟨⟨hvertices, hedges⟩, hcomponents⟩, hlabels⟩ := h
  have hinside {ids : List Ident} {id : Ident} (hid : id ∈ ids.map scope.join) :
      scope.inside? id ≠ none := by
    obtain ⟨inner, -, rfl⟩ := List.mem_map.1 hid
    rw [Ident.inside?_eq_some_iff.2 rfl]
    exact Option.some_ne_none inner
  constructor
  · intro v hv hmem
    have hid := List.mem_map_of_mem (f := Vertex.id) hv
    rw [ids_vertices_inside] at hid
    exact hinside hid (hvertices _ hmem)
  · intro e he hmem
    have hid := List.mem_map_of_mem (f := Edge.id) he
    rw [ids_edges_inside] at hid
    exact hinside hid (hedges _ hmem)
  · intro c hc hmem
    have hid := List.mem_map_of_mem (f := Component.id) hc
    rw [ids_components_inside] at hid
    exact hinside hid (hcomponents _ hmem)
  · intro l hl hmem
    have hid := List.mem_map_of_mem (f := Label.id) hl
    rw [ids_labels_inside] at hid
    exact hinside hid (hlabels _ hmem)

end Parts

/-! ## Compiling into a graph -/

namespace Circuit

variable {text : String} {q : Qbf} {g built : Graph} {scope : Ident} {offset : Point}

theorem run_compileInto (scope : Ident) (offset : Point) (text : String) (g : Graph) :
    (compileInto scope offset text).run g =
      match Qbf.parse text with
      | .error fault => .error fault g
      | .ok q =>
        match (build scope offset q).run g with
        | .ok _ built => .ok (within scope q) built
        | .error fault _ => .error fault g := by
  simp only [compileInto, EStateM.run_bind, Edit.run_ofExcept, EStateM.run_get]
  cases Qbf.parse text with
  | error fault => rfl
  | ok q =>
    simp only
    cases (build scope offset q).run g <;> rfl

theorem exists_parse_of_compileInto {circuit : Circuit}
    (h : (compileInto scope offset text).run g = .ok circuit built) :
    ∃ q, Qbf.parse text = .ok q ∧ built = g.withParts scope offset (plan q) := by
  rw [run_compileInto] at h
  cases hq : Qbf.parse text with
  | error fault => simp [hq] at h
  | ok q =>
    refine ⟨q, rfl, ?_⟩
    have hcoherent : Coherent scope offset (plan q) :=
      (coherent_plan (Qbf.isProper_of_parse hq)).inside
    cases hrun : (build scope offset q).run g with
    | error fault mid => simp [hq, hrun] at h
    | ok _ mid =>
      simp only [hq, hrun, EStateM.Result.ok.injEq] at h
      have hplaced := run_forM_place hcoherent (isFree_of_run_forM_place hcoherent hrun)
      rw [build] at hrun
      rw [hrun] at hplaced
      cases hplaced
      exact h.2.symm

theorem reachable_of_compileInto (hg : g.Reachable) {circuit : Circuit}
    (h : (compileInto scope offset text).run g = .ok circuit built) : built.Reachable := by
  have hafter : Change.after g (.compileInto scope offset text) = built := by
    rw [Change.after, Change.edit, Edit.run_discard, h]
  exact hafter ▸ hg.after _

theorem reachable_of_compile (h : compile text = .ok g) : g.Reachable := by
  rw [compile] at h
  cases hrun : (compileInto .root .origin text).run ∅ with
  | error fault g => simp [hrun] at h
  | ok circuit built =>
    obtain rfl : built = g := by simpa [hrun] using h
    exact reachable_of_compileInto Graph.reachable_empty hrun

/-- However a graph with a circuit in it is played, the circuit is played as on its own. -/
theorem run_tryReverse_inside (hg : g.Reachable) {circuit : Circuit}
    (hrun : (compileInto scope offset text).run g = .ok circuit built) :
    ∃ alone, compile text = .ok alone ∧ ∀ moves : List Ident,
      (built.play moves).HasCopy scope (alone.play (alone.movesInside scope moves)) ∧
      ∀ id ∈ alone.edges, ∃ answer next next',
        (Edit.tryReverse (scope.join id)).run (built.play moves) = .ok answer next ∧
        (Edit.tryReverse id).run (alone.play (alone.movesInside scope moves)) =
          .ok answer next' := by
  have hbuilt := (reachable_of_compileInto hg hrun).consistent
  obtain ⟨q, hq, rfl⟩ := exists_parse_of_compileInto hrun
  have hproper := Qbf.isProper_of_parse hq
  have hsteady := Board.steady_start q
  have hcompile := compile_of_parse hq
  have hcoherent := coherent_plan hproper
  have hwhole := whole_withParts hcoherent (reachable_of_compile hcompile).consistent
  have hstart := shows_start hproper
  have hsettled (moves : List Ident) :
      (((∅ : Graph).withParts .root .origin (plan q)).play moves).IsSettled := by
    obtain ⟨b, hplay, hreach⟩ := hstart.play hproper hsteady moves
    exact hplay.isSettled hproper (hreach.steady hproper.nodup hsteady)
  refine ⟨_, hcompile, fun moves => ?_⟩
  have hcopy := (hasCopy_withParts hcoherent).play hwhole hsettled hbuilt.toLinked moves
  refine ⟨hcopy, fun id hid => ?_⟩
  have hshape := Graph.SameShape.play hwhole.toLinked
    (((∅ : Graph).withParts .root .origin (plan q)).movesInside scope moves)
  obtain ⟨answer, hanswer, hanswer'⟩ :=
    hcopy.run_tryReverse (hwhole.of_sameShape hshape) (hshape.mem_edges.2 hid)
  exact ⟨answer, _, _, hanswer, hanswer'⟩

/-- A formula that can be read can be compiled into any scope that is not used. -/
theorem exists_compileInto (hq : Qbf.parse text = .ok q) (h : g.avoids scope = true) :
    ∃ circuit built, (compileInto scope offset text).run g = .ok circuit built := by
  have hcoherent : Coherent scope offset (plan q) :=
    (coherent_plan (Qbf.isProper_of_parse hq)).inside
  have hbuild : (build scope offset q).run g = .ok () (g.withParts scope offset (plan q)) :=
    run_forM_place hcoherent (Graph.isFree_of_avoids h)
  exact ⟨_, _, by rw [run_compileInto, hq]; simp only [hbuild]; rfl⟩

/-- The circuit of the copycat formula next to a universal gadget that is not part of it. -/
theorem run_tryReverse_inside_copycat :
    ∃ circuit built alone, (compileInto ⟨["inner"]⟩ ⟨8, 0⟩
        "forall x exists y : (x||!y)&&(!x||y)").run Graph.loneUniversal = .ok circuit built ∧
      compile "forall x exists y : (x||!y)&&(!x||y)" = .ok alone ∧ ∀ moves : List Ident,
        (built.play moves).HasCopy ⟨["inner"]⟩
          (alone.play (alone.movesInside ⟨["inner"]⟩ moves)) ∧
        ∀ id ∈ alone.edges, ∃ answer next next',
          (Edit.tryReverse (Ident.join ⟨["inner"]⟩ id)).run (built.play moves) =
            .ok answer next ∧
          (Edit.tryReverse id).run (alone.play (alone.movesInside ⟨["inner"]⟩ moves)) =
            .ok answer next' := by
  obtain ⟨circuit, built, hbuilt⟩ : ∃ circuit built, (compileInto ⟨["inner"]⟩ ⟨8, 0⟩
      "forall x exists y : (x||!y)&&(!x||y)").run Graph.loneUniversal = .ok circuit built :=
    exists_compileInto Qbf.parse_copycat (by decide +kernel)
  obtain ⟨alone, hcompile, hall⟩ := run_tryReverse_inside ⟨_, rfl⟩ hbuilt
  exact ⟨circuit, built, alone, hbuilt, hcompile, hall⟩

end Circuit

end ConstraintLogic
