import ConstraintLogic.Proofs.Gain
import ConstraintLogic.Proofs.Record
/-!
# What a removal takes with it

To remove a vertex is to remove the edges that end at it, and to remove a component is to remove
those of its ports that are still there with the edges that end at one of them. Nothing is left that
refers to what is gone, and nothing else is different. So a component that was just added can be
removed without a trace.
-/

namespace ConstraintLogic

namespace Graph

variable {g next : Graph} {ids : List Ident} {gone lost : Ident → Prop}

/-- The graph is another one without some vertices and components and without the edges that end
at one of those vertices. -/
structure Loses (next g : Graph) (gone lost : Ident → Prop) : Prop where
  vertices : ∀ id, id ∈ next.vertices ↔ id ∈ g.vertices ∧ ¬gone id
  /-- A vertex that stays loses the edges that are gone, and nothing else. -/
  kept : ∀ (id : Ident) (v : Vertex), g.vertices[id]? = some v → ¬gone id →
    ∃ v', next.vertices[id]? = some v' ∧ v'.bare = v.bare ∧
      ∀ edge, edge ∈ v'.edges ↔ edge ∈ v.edges ∧ edge ∈ next.edges
  edges : ∀ (id : Ident) (e : Edge), next.edges[id]? = some e ↔
    g.edges[id]? = some e ∧ ∀ vertex, e.EndsAt vertex → ¬gone vertex
  components : ∀ (id : Ident) (c : Component), next.components[id]? = some c ↔
    g.components[id]? = some c ∧ ¬lost id
  labels : next.labels = g.labels

theorem Loses.touch (h : next.Loses g gone lost) : next.touch.Loses g gone lost :=
  ⟨h.vertices, h.kept, h.edges, h.components, h.labels⟩

theorem endsIn_eq_false_iff {e : Edge} :
    endsIn ids e = false ↔ ∀ vertex, e.EndsAt vertex → vertex ∉ ids := by
  simp only [endsIn, Edge.EndsAt, decide_eq_false_iff_not, not_or, or_imp, forall_and,
    forall_eq']

theorem getElem?_edges_dropVertices (ids : List Ident) (id : Ident) (e : Edge) :
    (g.dropVertices ids).edges[id]? = some e ↔
      g.edges[id]? = some e ∧ ∀ vertex, e.EndsAt vertex → vertex ∉ ids := by
  have hsame : (g.dropVertices ids).edges = (g.dropEdges (endsIn ids)).edges := rfl
  rw [hsame, getElem?_edges_dropEdges, Option.filter_eq_some_iff, Bool.not_eq_true',
    endsIn_eq_false_iff]

theorem getElem?_vertices_dropVertices (ids : List Ident) {id : Ident} (hid : id ∉ ids) :
    (g.dropVertices ids).vertices[id]? =
      g.vertices[id]?.map (·.without fun edge => g.edges[edge]?.any (endsIn ids)) := by
  rw [dropVertices, getElem?_vertices_eraseVertices, if_neg hid, getElem?_vertices_dropEdges]

theorem mem_vertices_dropVertices (ids : List Ident) (id : Ident) :
    id ∈ (g.dropVertices ids).vertices ↔ id ∈ g.vertices ∧ id ∉ ids := by
  rw [Std.ExtTreeMap.mem_iff_isSome_getElem?, Std.ExtTreeMap.mem_iff_isSome_getElem?]
  by_cases hid : id ∈ ids
  · simp [dropVertices, getElem?_vertices_eraseVertices, hid]
  · rw [getElem?_vertices_dropVertices ids hid, Option.isSome_map, and_iff_left hid]

theorem components_dropVertices (g : Graph) (ids : List Ident) :
    (g.dropVertices ids).components = g.components := rfl

/-- Where vertices list exactly the edges at them, taking some vertices out leaves no other trace
in the lists than the edges that are gone. -/
theorem Linked.loses_dropVertices (h : g.Linked) (ids : List Ident) :
    (g.dropVertices ids).Loses g (· ∈ ids) fun _ => False where
  vertices := mem_vertices_dropVertices ids
  kept id v hv hid := by
    have hkept := getElem?_vertices_dropVertices (g := g) ids hid
    rw [hv, Option.map_some] at hkept
    refine ⟨_, hkept, rfl, fun edge => ?_⟩
    rw [Vertex.mem_edges_without, Registry.mem_iff_exists]
    refine and_congr_right fun hedge => ?_
    obtain ⟨e, he, -⟩ := (h.listed id v hv edge).1 hedge
    simp only [getElem?_edges_dropVertices, he, Option.some.injEq, exists_eq_left', Option.any_some,
      endsIn_eq_false_iff]
  edges := getElem?_edges_dropVertices ids
  components id c := by rw [not_false_eq_true, and_true, components_dropVertices]
  labels := rfl

theorem Loses.eraseComponent (h : next.Loses g gone fun _ => False) (id : Ident) :
    { next with components := next.components.erase id }.Loses g gone (· = id) where
  vertices := h.vertices
  kept := h.kept
  edges := h.edges
  components key c := by
    rw [Std.ExtTreeMap.getElem?_erase]
    simp only [Registry.compare_eq_iff, eq_comm (a := id)]
    split
    · next hkey => simp [hkey]
    · next hkey => simp [h.components key c, hkey]
  labels := h.labels

end Graph

/-! ## Removing what was just added -/

namespace Registry

variable {α : Type} {t : Registry α} {id : Ident} {a : α}

theorem erase_insert_of_not_mem (h : id ∉ t) : (t.insert id a).erase id = t := by
  apply Std.ExtTreeMap.ext_getElem?
  intro key
  rw [Std.ExtTreeMap.getElem?_erase, Std.ExtTreeMap.getElem?_insert]
  simp only [compare_eq_iff]
  split
  · next hkey => rw [← hkey, Std.ExtTreeMap.getElem?_eq_none h]
  · rfl

end Registry

namespace Graph

variable {g : Graph} {ids : List Ident}

/-- Vertices at which no edge ends can be taken out by themselves. -/
theorem dropVertices_of_forall_edges
    (h : ∀ (id : Ident) (e : Edge), g.edges[id]? = some e → ∀ vertex, e.EndsAt vertex →
      vertex ∉ ids) : g.dropVertices ids = g.eraseVertices ids := by
  rw [dropVertices, dropEdges_of_forall fun id e he => endsIn_eq_false_iff.2 (h id e he)]

theorem mem_portIds_ofGadget {id : Ident} {position : Point} {k : Gadget} {port : Ident} :
    port ∈ (Component.ofGadget id position k).portIds ↔
      ∃ plan ∈ k.ports id, id.child plan.name = port := by
  rw [Component.mem_portIds]
  simp only [Component.getElem?_ports_ofGadget, Option.ite_none_right_eq_some, Option.some.injEq,
    List.mem_map]
  constructor
  · rintro ⟨_, ⟨plan, hplan, rfl⟩, rfl⟩
    exact ⟨plan, hplan, rfl⟩
  · rintro ⟨plan, hplan, rfl⟩
    exact ⟨_, ⟨plan, hplan, rfl⟩, rfl⟩

/-- Taken out again, a component and its ports leave what was there before them. -/
theorem Linked.dropVertices_putComponent (h : g.Linked) {id : Ident} (position : Point)
    {k : Gadget} (hports : ∀ plan ∈ k.ports id, id.child plan.name ∉ g.vertices) :
    ((g.putComponent (.ofGadget id position k)).dropVertices
      (Component.ofGadget id position k).portIds).vertices = g.vertices ∧
    ((g.putComponent (.ofGadget id position k)).dropVertices
      (Component.ofGadget id position k).portIds).edges = g.edges := by
  have hfree : ∀ port ∈ (Component.ofGadget id position k).portIds, port ∉ g.vertices := by
    intro port hport
    obtain ⟨plan, hplan, rfl⟩ := mem_portIds_ofGadget.1 hport
    exact hports plan hplan
  have hedges : (g.putComponent (.ofGadget id position k)).edges = g.edges := by
    rw [putComponent_eq]
  rw [dropVertices_of_forall_edges]
  · refine ⟨Std.ExtTreeMap.ext_getElem? fun {x} => ?_, hedges⟩
    rw [getElem?_vertices_eraseVertices]
    split
    · next hx => rw [Std.ExtTreeMap.getElem?_eq_none (hfree x hx)]
    · next hx =>
      rw [putComponent_eq]
      refine Registry.getElem?_insertMany_map_of_not_mem (f := fun v => v) fun hmem => hx ?_
      obtain ⟨v, hv, rfl⟩ := List.mem_map.1 hmem
      obtain ⟨plan, hplan, rfl⟩ := List.mem_map.1 hv
      exact mem_portIds_ofGadget.2 ⟨plan, hplan, rfl⟩
  · intro key e he vertex hend hport
    rw [hedges] at he
    exact hfree vertex hport (h.ends key e he vertex hend)

end Graph

namespace Edit

open ConstraintLogic.Graph

variable {g next : Graph} {id : Ident}

theorem run_removeComponent_of_addComponent (h : g.Consistent) {position : Point}
    {blueprint : Blueprint} {c : Component}
    (hrun : (addComponent id position blueprint).run g = .ok c next) :
    ∃ last, (removeComponent id).run next = .ok c last ∧ last.vertices = g.vertices ∧
      last.edges = g.edges ∧ last.components = g.components ∧ last.labels = g.labels := by
  have hnext : next.Linked := by
    have hleft := keeps_addComponent id position blueprint g h
    rw [left, hrun] at hleft
    exact hleft.toLinked
  rw [run_addComponent] at hrun
  split_ifs at hrun with hroot hfree
  cases hk : Gadget.ofBlueprint blueprint with
  | error fault => simp [hk] at hrun
  | ok k =>
    cases hfind : (k.ports id).find? fun plan => id.child plan.name ∈ g.vertices with
    | some plan => simp [hk, hfind] at hrun
    | none =>
      simp only [hk, hfind] at hrun
      cases hrun
      have hports : ∀ plan ∈ k.ports id, id.child plan.name ∉ g.vertices := by
        simpa using List.find?_eq_none.1 hfind
      have hput : (g.putComponent (.ofGadget id position k)).touch.components[id]? =
          some (.ofGadget id position k) := Std.ExtTreeMap.getElem?_insert_self
      have hremove := run_removeComponent hnext id
      rw [hput] at hremove
      obtain ⟨hvertices, hedges⟩ :=
        h.toLinked.dropVertices_putComponent position hports
      refine ⟨_, hremove, hvertices, hedges, ?_, ?_⟩
      · rw [touch, touch, putComponent_eq]
        exact Registry.erase_insert_of_not_mem hfree
      · rw [putComponent_eq]
        rfl

end Edit

namespace Graph

variable {g next : Graph} {id : Ident}

theorem Linked.loses_of_run_removeVertex (h : g.Linked) {v : Vertex}
    (hrun : (Edit.removeVertex id).run g = .ok v next) :
    next.Loses g (· = id) fun _ => False := by
  rw [Edit.run_removeVertex h] at hrun
  split at hrun
  · cases hrun
    have hloses := h.loses_dropVertices [id]
    simp only [List.mem_singleton] at hloses
    exact hloses.touch
  · cases hrun

theorem Linked.loses_of_run_removeComponent (h : g.Linked) {c : Component}
    (hrun : (Edit.removeComponent id).run g = .ok c next) : g.components[id]? = some c ∧
      next.Loses g (fun port => ∃ name : String, c.ports[name]? = some port) (· = id) := by
  rw [Edit.run_removeComponent h] at hrun
  split at hrun
  · next hc =>
    cases hrun
    have hloses := (h.loses_dropVertices c.portIds).eraseComponent id
    simp only [Component.mem_portIds] at hloses
    exact ⟨hc, hloses.touch⟩
  · cases hrun

/-- Whatever was done to a graph since it was empty, a removal takes what depends on the removed
entity and nothing else, and a component that is added and removed again leaves no trace. -/
theorem Reachable.removes_exactly (h : g.Reachable) :
    (∀ id, ((∃ v next, (Edit.removeVertex id).run g = .ok v next) ↔ id ∈ g.vertices) ∧
      ∀ v next, (Edit.removeVertex id).run g = .ok v next →
        next.Loses g (· = id) fun _ => False) ∧
    (∀ id, ((∃ c next, (Edit.removeComponent id).run g = .ok c next) ↔ id ∈ g.components) ∧
      ∀ c next, (Edit.removeComponent id).run g = .ok c next → g.components[id]? = some c ∧
        next.Loses g (fun port => ∃ name : String, c.ports[name]? = some port) (· = id)) ∧
    ∀ id position blueprint c next,
      (Edit.addComponent id position blueprint).run g = .ok c next →
        ∃ last, (Edit.removeComponent id).run next = .ok c last ∧ last.vertices = g.vertices ∧
          last.edges = g.edges ∧ last.components = g.components ∧ last.labels = g.labels := by
  have hconsistent := h.consistent
  have hlinked := hconsistent.toLinked
  exact ⟨fun _ => ⟨hlinked.exists_run_removeVertex_iff,
      fun _ _ => hlinked.loses_of_run_removeVertex⟩,
    fun _ => ⟨hlinked.exists_run_removeComponent_iff,
      fun _ _ => hlinked.loses_of_run_removeComponent⟩,
    fun _ _ _ _ _ => Edit.run_removeComponent_of_addComponent hconsistent⟩

/-- A gadget with an edge to another one, an edge between two of its ports and a loop at a third.
Of its other ports one is gone, and another one's place was taken by a plain vertex. -/
def crossed : Graph :=
  let gadget : Ident := ⟨["gadget"]⟩
  let port (p : QuantifierPort) : Ident := gadget.child p.name
  let outside : Ident := Ident.child ⟨["converter"]⟩ "port"
  afterAll ∅
    [.addComponent gadget .origin (.universal 'x'),
     .addComponent ⟨["converter"]⟩ .origin .converter,
     .addEdge ⟨["across"]⟩ (port .out) outside .single,
     .addEdge ⟨["between"]⟩ (port .tryIn) (port .satOut) .double,
     .addEdge ⟨["loop"]⟩ (port .inv) (port .inv) .single,
     .addEdge ⟨["outside"]⟩ outside outside .double,
     .removeVertex (port .tryOut),
     .removeVertex (port .satIn),
     .addVertex (port .satIn) .origin true,
     .addLabel ⟨["title"]⟩ .origin "crossed" .center .center]

/-- The vertex in the place of a port goes with the gadget, and one edge at the converter stays. -/
theorem removes_exactly_crossed :
    crossed.Reachable ∧ ∃ c next, (Edit.removeComponent ⟨["gadget"]⟩).run crossed = .ok c next ∧
      next.Loses crossed (fun port => ∃ name : String, c.ports[name]? = some port)
        (· = ⟨["gadget"]⟩) ∧
      (⟨["gadget", "satin"]⟩ : Ident) ∉ next.vertices ∧ (⟨["outside"]⟩ : Ident) ∈ next.edges := by
  have hreach : crossed.Reachable := ⟨_, rfl⟩
  have hmem : (⟨["gadget"]⟩ : Ident) ∈ crossed.components := by decide +kernel
  obtain ⟨-, hremove, -⟩ := hreach.removes_exactly
  obtain ⟨hfound, hexactly⟩ := hremove ⟨["gadget"]⟩
  obtain ⟨c, next, hrun⟩ := hfound.2 hmem
  obtain ⟨hc, hloses⟩ := hexactly c next hrun
  refine ⟨hreach, c, next, hrun, hloses, ?_, ?_⟩
  · have hport : crossed.components[(⟨["gadget"]⟩ : Ident)]?.bind (fun c => c.ports["satin"]?) =
        some ⟨["gadget", "satin"]⟩ := by decide +kernel
    rw [hc] at hport
    rw [hloses.vertices]
    exact fun h => h.2 ⟨"satin", hport⟩
  · have hedge : crossed.edges[(⟨["outside"]⟩ : Ident)]? =
        some ⟨⟨["outside"]⟩, ⟨["converter", "port"]⟩, ⟨["converter", "port"]⟩, .double, false,
          false⟩ := by decide +kernel
    have hapart : crossed.components[(⟨["gadget"]⟩ : Ident)]?.all
        (fun c => (⟨["converter", "port"]⟩ : Ident) ∉ c.portIds) = true := by decide +kernel
    rw [hc, Option.all_some, decide_eq_true_eq, Component.mem_portIds] at hapart
    refine Registry.mem_of_getElem? ((hloses.edges _ _).2 ⟨hedge, ?_⟩)
    rintro vertex (rfl | rfl) <;> exact hapart

end Graph

end ConstraintLogic
