import ConstraintLogic.Proofs.Move
import Mathlib.Data.Sym.Sym2
/-!
# Consistency

In a consistent graph every entity stands under its own name, vertices list exactly the edges that
end at them, the ends of edges exist, and a vertex that names a component as its owner is one of
the ports of that component. What an edit adds to a consistent graph keeps it consistent, and so
does every change that leaves alone what consistency is about.
-/

namespace ConstraintLogic

/-! ## Ports -/

namespace Gadget

theorem gate_of_mem_ports {k : Gadget} {owner : Ident} {plan : PortPlan}
    (h : plan ∈ k.ports owner) : plan.gate.owner? = some owner ∧ plan.gate.kind = k.gateKind := by
  cases k with
  | converter =>
    obtain rfl := List.mem_singleton.1 h
    exact ⟨rfl, rfl⟩
  | existential letter =>
    obtain ⟨port, -, rfl⟩ := List.mem_map.1 h
    exact ⟨rfl, rfl⟩
  | universal letter latch =>
    obtain ⟨port, -, rfl⟩ := List.mem_map.1 h
    exact ⟨rfl, rfl⟩
  | evaluator f =>
    simp only [ports, letterPorts, List.mem_append, List.mem_flatMap, List.mem_cons,
      List.not_mem_nil, or_false] at h
    rcases h with ⟨-, -, rfl | rfl⟩ | rfl <;> exact ⟨rfl, rfl⟩

@[simp] theorem ports_withLatch (k : Gadget) (value : Bool) (owner : Ident) :
    (k.withLatch value).ports owner = k.ports owner := by
  cases k <;> rfl

end Gadget

/-- The vertex is the port of the component that its gate says it is. -/
def Component.Lists (c : Component) (v : Vertex) : Prop :=
  ∃ plan ∈ c.gadget.ports c.id, plan.gate = v.gate ∧ c.ports[plan.name]? = some v.id

theorem Component.Lists.gate {c : Component} {v : Vertex} (h : c.Lists v) :
    v.gate.owner? = some c.id ∧ v.gate.kind = c.gadget.gateKind := by
  obtain ⟨plan, hplan, hgate, -⟩ := h
  rw [← hgate]
  exact Gadget.gate_of_mem_ports hplan

def Edge.EndsAt (e : Edge) (vertex : Ident) : Prop :=
  e.source = vertex ∨ e.target = vertex

namespace Graph

/-- Vertices and edges know of each other. -/
structure Linked (g : Graph) : Prop where
  vertices : Registry.Named g.vertices Vertex.id
  edges : Registry.Named g.edges Edge.id
  listed : ∀ (id : Ident) (v : Vertex), g.vertices[id]? = some v → ∀ edge : Ident,
    edge ∈ v.edges ↔ ∃ e, g.edges[edge]? = some e ∧ e.EndsAt id
  ends : ∀ (id : Ident) (e : Edge), g.edges[id]? = some e → ∀ vertex : Ident, e.EndsAt vertex →
    vertex ∈ g.vertices

structure Consistent (g : Graph) : Prop extends Linked g where
  components : Registry.Named g.components Component.id
  labels : Registry.Named g.labels Label.id
  owned : ∀ (id : Ident) (v : Vertex) (owner : Ident), g.vertices[id]? = some v →
    v.gate.owner? = some owner → ∃ c, g.components[owner]? = some c ∧ c.Lists v

/-- The owner of a vertex exists and is a gadget of the kind that the gate carries. -/
theorem Consistent.exists_owner {g : Graph} (h : g.Consistent) {id owner : Ident} {v : Vertex}
    (hv : g.vertices[id]? = some v) (howner : v.gate.owner? = some owner) :
    ∃ c, g.components[owner]? = some c ∧ v.gate.kind = c.gadget.gateKind := by
  obtain ⟨c, hc, hlists⟩ := h.owned id v owner hv howner
  exact ⟨c, hc, hlists.gate.2⟩

theorem consistent_bare (revision : Nat) (changed : Bool) :
    Consistent ⟨∅, ∅, ∅, ∅, revision, changed⟩ where
  vertices := Registry.named_empty _
  edges := Registry.named_empty _
  listed id v h := by simp at h
  ends id e h := by simp at h
  components := Registry.named_empty _
  labels := Registry.named_empty _
  owned id v owner h := by simp at h

theorem Consistent.touch {g : Graph} (h : g.Consistent) : g.touch.Consistent :=
  ⟨⟨h.vertices, h.edges, h.listed, h.ends⟩, h.components, h.labels, h.owned⟩

end Graph

/-! ## Shapes -/

/-- What consistency is about in a vertex. -/
def Vertex.shape (v : Vertex) : Ident × IdentSet × Gate :=
  (v.id, v.edges, v.gate)

/-- What consistency is about in an edge. -/
def Edge.shape (e : Edge) : Ident × Sym2 Ident :=
  (e.id, s(e.source, e.target))

/-- What consistency is about in a component. -/
def Component.shape (c : Component) : Ident × Std.ExtTreeMap String Ident × Gadget :=
  (c.id, c.ports, c.unlatched.gadget)

theorem Edge.endsAt_iff_of_shape_eq {e e' : Edge} (h : e.shape = e'.shape) (vertex : Ident) :
    e.EndsAt vertex ↔ e'.EndsAt vertex := by
  have hends : vertex ∈ s(e.source, e.target) ↔ vertex ∈ s(e'.source, e'.target) := by
    rw [(Prod.mk.inj h).2]
  simpa [EndsAt, eq_comm] using hends

theorem Component.Lists.of_shape_eq {c c' : Component} {v v' : Vertex} (h : c.Lists v)
    (hc : c.shape = c'.shape) (hv : v.shape = v'.shape) : c'.Lists v' := by
  obtain ⟨hid, hports, hgadget⟩ := by simpa [shape, unlatched, withLatch] using hc
  obtain ⟨hvid, -, hgate⟩ := by simpa [Vertex.shape] using hv
  obtain ⟨plan, hplan, hplanGate, hport⟩ := h
  refine ⟨plan, ?_, hplanGate.trans hgate, by rw [← hports, ← hvid, hport]⟩
  rw [← Gadget.ports_withLatch _ false] at hplan ⊢
  rwa [← hgadget, ← hid]

namespace Graph

/-- Consistency sees no difference between the graphs. -/
structure SameShape (g g' : Graph) : Prop where
  vertices : ∀ id : Ident, g.vertices[id]?.map Vertex.shape = g'.vertices[id]?.map Vertex.shape
  edges : ∀ id : Ident, g.edges[id]?.map Edge.shape = g'.edges[id]?.map Edge.shape
  components : ∀ id : Ident,
    g.components[id]?.map Component.shape = g'.components[id]?.map Component.shape
  labels : ∀ id : Ident, g.labels[id]?.map Label.id = g'.labels[id]?.map Label.id

variable {g g' g'' : Graph}

theorem SameShape.refl (g : Graph) : g.SameShape g :=
  ⟨fun _ => rfl, fun _ => rfl, fun _ => rfl, fun _ => rfl⟩

theorem SameShape.trans (h : g.SameShape g') (h' : g'.SameShape g'') : g.SameShape g'' :=
  ⟨fun id => (h.vertices id).trans (h'.vertices id), fun id => (h.edges id).trans (h'.edges id),
    fun id => (h.components id).trans (h'.components id),
    fun id => (h.labels id).trans (h'.labels id)⟩

private theorem exists_of_map_eq {α β : Type} {o o' : Option α} {f : α → β} {a' : α}
    (h : o.map f = o'.map f) (ha' : o' = some a') : ∃ a, o = some a ∧ f a = f a' := by
  rw [ha', Option.map_some] at h
  exact Option.map_eq_some_iff.1 h

theorem Linked.of_sameShape (h : g.Linked) (hs : g'.SameShape g) : g'.Linked where
  vertices := h.vertices.mono fun id v' hv' => by
    obtain ⟨v, hv, hshape⟩ := exists_of_map_eq (hs.vertices id).symm hv'
    exact ⟨v, hv, congrArg Prod.fst hshape⟩
  edges := h.edges.mono fun id e' he' => by
    obtain ⟨e, he, hshape⟩ := exists_of_map_eq (hs.edges id).symm he'
    exact ⟨e, he, congrArg Prod.fst hshape⟩
  listed id v' hv' edge := by
    obtain ⟨v, hv, hshape⟩ := exists_of_map_eq (hs.vertices id).symm hv'
    have hedges : v.edges = v'.edges := congrArg (fun shape => shape.2.1) hshape
    rw [← hedges, h.listed id v hv]
    constructor
    · rintro ⟨e, he, hend⟩
      obtain ⟨e', he', hsame⟩ := exists_of_map_eq (hs.edges edge) he
      exact ⟨e', he', (Edge.endsAt_iff_of_shape_eq hsame id).2 hend⟩
    · rintro ⟨e', he', hend⟩
      obtain ⟨e, he, hsame⟩ := exists_of_map_eq (hs.edges edge).symm he'
      exact ⟨e, he, (Edge.endsAt_iff_of_shape_eq hsame id).2 hend⟩
  ends id e' he' vertex hend := by
    obtain ⟨e, he, hsame⟩ := exists_of_map_eq (hs.edges id).symm he'
    have hmem := h.ends id e he vertex ((Edge.endsAt_iff_of_shape_eq hsame vertex).2 hend)
    rw [Std.ExtTreeMap.mem_iff_isSome_getElem?] at hmem ⊢
    rwa [← Option.isSome_map, hs.vertices, Option.isSome_map]

theorem Consistent.of_sameShape (h : g.Consistent) (hs : g'.SameShape g) : g'.Consistent where
  toLinked := h.toLinked.of_sameShape hs
  components := h.components.mono fun id c' hc' => by
    obtain ⟨c, hc, hshape⟩ := exists_of_map_eq (hs.components id).symm hc'
    exact ⟨c, hc, congrArg Prod.fst hshape⟩
  labels := h.labels.mono fun id l' hl' => exists_of_map_eq (hs.labels id).symm hl'
  owned id v' owner hv' howner := by
    obtain ⟨v, hv, hshape⟩ := exists_of_map_eq (hs.vertices id).symm hv'
    have hgate : v.gate = v'.gate := congrArg (fun shape => shape.2.2) hshape
    rw [← hgate] at howner
    obtain ⟨c, hc, hlists⟩ := h.owned id v owner hv howner
    obtain ⟨c', hc', hsame⟩ := exists_of_map_eq (hs.components owner) hc
    exact ⟨c', hc', hlists.of_shape_eq hsame.symm hshape⟩

end Graph

/-! ## Changes that consistency does not see -/

namespace Graph

variable {g g' : Graph} {id : Ident}

theorem SameShape.insert_vertex {v v' : Vertex} (hv : g.vertices[id]? = some v)
    (h : v'.shape = v.shape) : SameShape { g with vertices := g.vertices.insert id v' } g :=
  ⟨Registry.map_getElem?_insert hv h, fun _ => rfl, fun _ => rfl, fun _ => rfl⟩

theorem SameShape.insert_edge {e e' : Edge} (he : g.edges[id]? = some e)
    (h : e'.shape = e.shape) : SameShape { g with edges := g.edges.insert id e' } g :=
  ⟨fun _ => rfl, Registry.map_getElem?_insert he h, fun _ => rfl, fun _ => rfl⟩

theorem SameShape.insert_component {c c' : Component} (hc : g.components[id]? = some c)
    (h : c'.shape = c.shape) : SameShape { g with components := g.components.insert id c' } g :=
  ⟨fun _ => rfl, fun _ => rfl, Registry.map_getElem?_insert hc h, fun _ => rfl⟩

theorem SameShape.changeVertex {f : Vertex → Vertex} (h : ∀ v, (f v).shape = v.shape) :
    SameShape (g.changeVertex id f) g where
  vertices key := by
    simp only [Graph.changeVertex, Std.ExtTreeMap.getElem?_modify, Registry.compare_eq_iff]
    split
    · next heq =>
      subst heq
      cases g.vertices[id]? with
      | none => rfl
      | some v => exact congrArg some (h v)
    · rfl
  edges _ := rfl
  components _ := rfl
  labels _ := rfl

theorem SameShape.foldl_changeVertex {ι : Type} {f : Vertex → Vertex}
    (h : ∀ v, (f v).shape = v.shape) (key : ι → Ident) (l : List ι) :
    SameShape (l.foldl (fun g i => g.changeVertex (key i) f) g) g := by
  induction l generalizing g with
  | nil => exact .refl g
  | cons i rest ih => exact ih.trans (.changeVertex h)

theorem SameFrame.sameShape (h : g.SameFrame g')
    (he : ∀ id : Ident, g.edges[id]?.map Edge.shape = g'.edges[id]?.map Edge.shape) :
    g.SameShape g' where
  vertices id := by rw [h.vertices]
  edges := he
  components id := by
    have hshape : Component.shape =
        (fun c => (c.id, c.ports, c.gadget)) ∘ Component.unlatched := rfl
    rw [hshape, ← Option.map_map, h.components, Option.map_map]
  labels id := by rw [h.labels]

theorem Consistent.commit (h : g.Consistent) (p : Pass) : (p.commit g).2.Consistent := by
  have hsettled := h.of_sameShape ((sameFrame_settle p g).sameShape fun _ => rfl)
  rw [Pass.commit]
  split_ifs
  · exact hsettled
  · exact hsettled.touch

theorem Edge.shape_reverse (e : Edge) : e.reverse.shape = e.shape := by
  rw [Edge.shape, Edge.shape, Sym2.eq_swap]
  rfl

theorem SameShape.of_moved? (h : g.Linked) (hm : g.moved? id = some g') : g'.SameShape g := by
  refine (sameFrame_of_moved? hm).sameShape ?_
  obtain ⟨e, he, -, -, rfl⟩ := moved?_eq_some_iff.1 hm
  have hid : e.id = id := (h.edges id e he).1
  have hflip : (g.flip e).edges = g.edges.insert id e.reverse := by rw [flip, hid]
  exact fun key => (congrArg (fun t : Registry Edge => t[key]?.map Edge.shape) hflip).trans
    (Registry.map_getElem?_insert he (Edge.shape_reverse e) key)

end Graph

/-! ## Additions -/

namespace Graph

variable {g g' : Graph}

/-- Vertices without edges may be added under names that are free. -/
theorem Linked.putVertices (h : g.Linked) {vs : List Vertex}
    (hnew : ∀ v ∈ vs, v.id.isRoot = false ∧ v.id ∉ g.vertices ∧ v.edges = ∅) :
    (vs.foldl putVertex g).Linked := by
  rw [foldl_putVertex]
  refine ⟨?_, h.edges, ?_, ?_⟩
  · intro id v hv
    rcases Registry.mem_or_of_getElem?_insertMany hv with ⟨v, hmem, rfl, rfl⟩ | ⟨-, hold⟩
    · exact ⟨rfl, (hnew v hmem).1⟩
    · exact h.vertices id v hold
  · intro id v hv edge
    rcases Registry.mem_or_of_getElem?_insertMany hv with ⟨v, hmem, rfl, rfl⟩ | ⟨-, hold⟩
    · obtain ⟨-, hfree, hedges⟩ := hnew v hmem
      rw [hedges]
      constructor
      · intro hlisted
        exact absurd hlisted (Std.ExtTreeSet.not_mem_empty)
      · rintro ⟨e, he, hend⟩
        exact absurd (h.ends edge e he _ hend) hfree
    · exact h.listed id v hold edge
  · intro id e he vertex hend
    rw [Registry.mem_insertMany_map]
    exact .inl (h.ends id e he vertex hend)

/-- The graph stays consistent where no vertex gets another gate and owners are kept. -/
theorem Consistent.of_linked (h : g.Consistent) (hlinked : g'.Linked)
    (hvertices : ∀ (id : Ident) (v' : Vertex), g'.vertices[id]? = some v' →
      ∃ v, g.vertices[id]? = some v ∧ v.id = v'.id ∧ v.gate = v'.gate)
    (hcomponents : ∀ (id : Ident) (c : Component), g'.components[id]? = some c →
      g.components[id]? = some c)
    (howners : ∀ (id : Ident) (v' : Vertex) (owner : Ident), g'.vertices[id]? = some v' →
      v'.gate.owner? = some owner → g'.components[owner]? = g.components[owner]?)
    (hlabels : ∀ (id : Ident) (l : Label), g'.labels[id]? = some l → g.labels[id]? = some l) :
    g'.Consistent where
  toLinked := hlinked
  components := h.components.mono fun id c hc => ⟨c, hcomponents id c hc, rfl⟩
  labels := h.labels.mono fun id l hl => ⟨l, hlabels id l hl, rfl⟩
  owned id v' owner hv' howner := by
    obtain ⟨v, hv, hid, hgate⟩ := hvertices id v' hv'
    obtain ⟨c, hc, plan, hplan, hplanGate, hport⟩ := h.owned id v owner hv (by rw [hgate, howner])
    refine ⟨c, by rw [howners id v' owner hv' howner, hc], plan, hplan, ?_, ?_⟩
    · rw [hplanGate, hgate]
    · rw [hport, hid]

theorem Consistent.putVertex (h : g.Consistent) {v : Vertex} (hid : v.id.isRoot = false)
    (hfree : v.id ∉ g.vertices) (hedges : v.edges = ∅) (hgate : v.gate.owner? = none) :
    (g.putVertex v).Consistent where
  toLinked := by
    have hnew : ∀ u ∈ [v], u.id.isRoot = false ∧ u.id ∉ g.vertices ∧ u.edges = ∅ := by
      simpa using ⟨hid, hfree, hedges⟩
    exact h.toLinked.putVertices hnew
  components := h.components
  labels := h.labels
  owned id u owner hu howner := by
    rw [Graph.putVertex, Std.ExtTreeMap.getElem?_insert] at hu
    split at hu
    · rw [← Option.some.inj hu, hgate] at howner
      cases howner
    · exact h.owned id u owner hu howner

theorem getElem?_vertices_putEdge (e : Edge) (id : Ident) :
    (g.putEdge e).vertices[id]? =
      g.vertices[id]?.map fun v => if e.source = id ∨ e.target = id then v.list e.id else v :=
  getElem?_changeVertex_changeVertex (fun v => v.list_list e.id) e.source e.target id

theorem Linked.putEdge (h : g.Linked) {e : Edge} (hid : e.id.isRoot = false)
    (hfree : e.id ∉ g.edges) (hends : ∀ vertex, e.EndsAt vertex → vertex ∈ g.vertices) :
    (g.putEdge e).Linked where
  vertices := h.vertices.mono fun id v' hv' => by
    rw [getElem?_vertices_putEdge, Option.map_eq_some_iff] at hv'
    obtain ⟨v, hv, rfl⟩ := hv'
    refine ⟨v, hv, ?_⟩
    split <;> rfl
  edges := h.edges.insert rfl hid
  listed id v' hv' edge := by
    rw [getElem?_vertices_putEdge, Option.map_eq_some_iff] at hv'
    obtain ⟨v, hv, rfl⟩ := hv'
    have hedges : (g.putEdge e).edges[edge]? =
        if e.id = edge then some e else g.edges[edge]? := by
      rw [Graph.putEdge, Std.ExtTreeMap.getElem?_insert]
      simp only [Registry.compare_eq_iff]
    have hold := h.listed id v hv edge
    have hnone : e.id = edge → g.edges[edge]? = none := by
      rintro rfl
      exact Std.ExtTreeMap.getElem?_eq_none hfree
    have hlist : edge ∈ (v.list e.id).edges ↔ e.id = edge ∨ edge ∈ v.edges := by
      rw [Vertex.list, Std.ExtTreeSet.mem_insert, Registry.compare_eq_iff]
    rw [hedges]
    unfold Edge.EndsAt at hold ⊢
    split <;> grind
  ends id e' he' vertex hend := by
    rw [Std.ExtTreeMap.mem_iff_isSome_getElem?, getElem?_vertices_putEdge, Option.isSome_map,
      ← Std.ExtTreeMap.mem_iff_isSome_getElem?]
    rw [Graph.putEdge, Std.ExtTreeMap.getElem?_insert] at he'
    split at he'
    · rw [← Option.some.inj he'] at hend
      exact hends vertex hend
    · exact h.ends id e' he' vertex hend

theorem Consistent.putEdge (h : g.Consistent) {e : Edge} (hid : e.id.isRoot = false)
    (hfree : e.id ∉ g.edges) (hends : ∀ vertex, e.EndsAt vertex → vertex ∈ g.vertices) :
    (g.putEdge e).Consistent := by
  refine h.of_linked (h.toLinked.putEdge hid hfree hends) ?_ (fun _ _ hc => hc)
    (fun _ _ _ _ _ => rfl) (fun _ _ hl => hl)
  intro id v' hv'
  rw [getElem?_vertices_putEdge, Option.map_eq_some_iff] at hv'
  obtain ⟨v, hv, rfl⟩ := hv'
  refine ⟨v, hv, ?_⟩
  split <;> exact ⟨rfl, rfl⟩

theorem Consistent.putComponent (h : g.Consistent) {id : Ident} {position : Point}
    {gadget : Gadget} (hid : id.isRoot = false) (hfree : id ∉ g.components)
    (hports : ∀ plan ∈ gadget.ports id, id.child plan.name ∉ g.vertices) :
    (g.putComponent (.ofGadget id position gadget)).Consistent := by
  have hlinked : (((gadget.ports id).map fun plan => plan.vertex id position).foldl Graph.putVertex
      g).Linked := by
    apply h.toLinked.putVertices
    intro v hv
    obtain ⟨plan, hplan, rfl⟩ := List.mem_map.1 hv
    exact ⟨by simp [PortPlan.vertex, Vertex.isolated, Ident.child, Ident.isRoot], hports plan hplan,
      rfl⟩
  rw [foldl_putVertex] at hlinked
  rw [putComponent_eq]
  refine { toLinked := ⟨hlinked.1, hlinked.2, hlinked.3, hlinked.4⟩
           components := h.components.insert rfl hid, labels := h.labels, owned := ?_ }
  intro key v owner hv howner
  rw [Std.ExtTreeMap.getElem?_insert]
  rcases Registry.mem_or_of_getElem?_insertMany hv with ⟨v, hmem, rfl, rfl⟩ | ⟨-, hold⟩
  · obtain ⟨plan, hplan, rfl⟩ := List.mem_map.1 hmem
    have howned : plan.gate.owner? = some id := (Gadget.gate_of_mem_ports hplan).1
    obtain rfl : id = owner := Option.some.inj (howned.symm.trans howner)
    have hname : plan.name ∈ (gadget.ports id).map PortPlan.name := List.mem_map_of_mem hplan
    refine ⟨_, if_pos (Registry.compare_eq_iff.2 rfl), plan, hplan, rfl, ?_⟩
    rw [Component.getElem?_ports_ofGadget, if_pos hname]
    rfl
  · obtain ⟨c, hc, hlists⟩ := h.owned key v owner hold howner
    have hne : ¬compare id owner = .eq := by
      rw [Registry.compare_eq_iff]
      rintro rfl
      rw [Std.ExtTreeMap.getElem?_eq_none hfree] at hc
      cases hc
    exact ⟨c, (if_neg hne).trans hc, hlists⟩

theorem Consistent.putLabel (h : g.Consistent) {l : Label} (hid : l.id.isRoot = false) :
    Consistent { g with labels := g.labels.insert l.id l } :=
  { h with labels := h.labels.insert rfl hid }

theorem Consistent.eraseLabel (h : g.Consistent) {id : Ident} :
    Consistent { g with labels := g.labels.erase id } :=
  { h with
    labels := h.labels.mono fun key l hl => by
      rw [Std.ExtTreeMap.getElem?_erase] at hl
      split at hl
      · cases hl
      · exact ⟨l, hl, rfl⟩ }

end Graph

end ConstraintLogic
