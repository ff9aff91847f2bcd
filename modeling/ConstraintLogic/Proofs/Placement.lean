import ConstraintLogic.Circuit
import ConstraintLogic.Proofs.Edit
import Mathlib.Data.List.Induction
/-!
# Placing parts

What a list of parts brings to a graph, apart from the order in which the parts are placed. Parts
that are coherent among themselves and whose names are free in a graph can be placed in it, and
then the graph holds what it held before and what the parts bring.
-/

namespace ConstraintLogic

namespace Vertex

/-- The vertex with those of some edges listed that end at it. -/
def listAll (v : Vertex) (es : List Edge) : Vertex :=
  { v with
    edges := v.edges.insertMany
      ((es.filter fun e => e.source = v.id ∨ e.target = v.id).map Edge.id) }

theorem mem_edges_listAll {v : Vertex} {es : List Edge} {id : Ident} :
    id ∈ (v.listAll es).edges ↔
      id ∈ v.edges ∨ ∃ e ∈ es, (e.source = v.id ∨ e.target = v.id) ∧ e.id = id := by
  simp [listAll, Std.ExtTreeSet.mem_insertMany_list, and_assoc]

theorem listAll_of_forall {v : Vertex} {es : List Edge}
    (h : ∀ e ∈ es, e.source ≠ v.id ∧ e.target ≠ v.id) : v.listAll es = v := by
  have hnone : (es.filter fun e => e.source = v.id ∨ e.target = v.id) = [] := by
    rw [List.filter_eq_nil_iff]
    intro e he
    simp [h e he]
  rw [listAll, hnone, List.map_nil, Std.ExtTreeSet.insertMany_nil]

theorem listAll_append_singleton (v : Vertex) (es : List Edge) (e : Edge) :
    v.listAll (es ++ [e]) =
      if e.source = v.id ∨ e.target = v.id then (v.listAll es).list e.id else v.listAll es := by
  split
  · next h =>
    simp only [list, listAll]
    congr 1
    apply Std.ExtTreeSet.ext_mem
    intro id
    simp [h, Std.ExtTreeSet.mem_insertMany_list, Std.ExtTreeSet.mem_insert]
    grind
  · next h => simp [listAll, h]

end Vertex

namespace Part

/-- The vertices that a part brings, still without edges. -/
def vertices (scope : Ident) (offset : Point) : Part → List Vertex
  | .vertex id position => [.isolated (scope.join id) (offset + position) true .plain]
  | .component id position blueprint =>
    match Gadget.ofBlueprint blueprint with
    | .ok gadget =>
      (gadget.ports (scope.join id)).map fun plan => plan.vertex (scope.join id) (offset + position)
    | .error _ => []
  | .edge .. | .label .. => []

def edges (scope : Ident) : Part → List Edge
  | .edge id source target weight =>
    [⟨scope.join id, scope.join source, scope.join target, weight, false, false⟩]
  | .vertex .. | .component .. | .label .. => []

def components (scope : Ident) (offset : Point) : Part → List Component
  | .component id position blueprint =>
    match Gadget.ofBlueprint blueprint with
    | .ok gadget => [.ofGadget (scope.join id) (offset + position) gadget]
    | .error _ => []
  | .vertex .. | .edge .. | .label .. => []

def labels (scope : Ident) (offset : Point) : Part → List Label
  | .label id position text => [⟨scope.join id, offset + position, text, .center, .center⟩]
  | .vertex .. | .edge .. | .component .. => []

end Part

namespace Part

def id : Part → Ident
  | .vertex id .. | .edge id .. | .component id .. | .label id .. => id

/-- A component is made from a blueprint that can be read. -/
def IsSound : Part → Prop
  | .component _ _ blueprint => ∃ gadget, Gadget.ofBlueprint blueprint = .ok gadget
  | .vertex .. | .edge .. | .label .. => True

end Part

/-- The ends of every edge are among some names and the vertices placed before. -/
def Ordered (scope : Ident) (offset : Point) : List Ident → List Part → Prop
  | _, [] => True
  | known, p :: rest =>
    (∀ e ∈ p.edges scope, e.source ∈ known ∧ e.target ∈ known) ∧
      Ordered scope offset (known ++ (p.vertices scope offset).map Vertex.id) rest

/-- Parts that can be placed in this order, as far as only they are concerned. -/
structure Coherent (scope : Ident) (offset : Point) (ps : List Part) : Prop where
  vertices : ((ps.flatMap (Part.vertices scope offset)).map Vertex.id).Nodup
  edges : ((ps.flatMap (Part.edges scope)).map Edge.id).Nodup
  components : ((ps.flatMap (Part.components scope offset)).map Component.id).Nodup
  labels : ((ps.flatMap (Part.labels scope offset)).map Label.id).Nodup
  named : ∀ p ∈ ps, (scope.join p.id).isRoot = false
  sound : ∀ p ∈ ps, p.IsSound
  ordered : Ordered scope offset [] ps

namespace Graph

/-- No name that the parts bring is taken. -/
structure IsFree (g : Graph) (scope : Ident) (offset : Point) (ps : List Part) : Prop where
  vertices : ∀ v ∈ ps.flatMap (Part.vertices scope offset), v.id ∉ g.vertices
  edges : ∀ e ∈ ps.flatMap (Part.edges scope), e.id ∉ g.edges
  components : ∀ c ∈ ps.flatMap (Part.components scope offset), c.id ∉ g.components
  labels : ∀ l ∈ ps.flatMap (Part.labels scope offset), l.id ∉ g.labels

/-- The graph with all that some parts bring. -/
def withParts (g : Graph) (scope : Ident) (offset : Point) (ps : List Part) : Graph where
  vertices := g.vertices.insertMany ((ps.flatMap (Part.vertices scope offset)).map fun v =>
    (v.id, v.listAll (ps.flatMap (Part.edges scope))))
  edges := g.edges.insertMany ((ps.flatMap (Part.edges scope)).map fun e => (e.id, e))
  components :=
    g.components.insertMany ((ps.flatMap (Part.components scope offset)).map fun c => (c.id, c))
  labels := g.labels.insertMany ((ps.flatMap (Part.labels scope offset)).map fun l => (l.id, l))
  revision := g.revision + ps.length
  changed := g.changed || !ps.isEmpty

end Graph

section Append

variable {scope : Ident} {offset : Point}

theorem ordered_append {known : List Ident} {ps ps' : List Part} :
    Ordered scope offset known (ps ++ ps') ↔
      Ordered scope offset known ps ∧
        Ordered scope offset
          (known ++ (ps.flatMap (Part.vertices scope offset)).map Vertex.id) ps' := by
  induction ps generalizing known with
  | nil => simp [Ordered]
  | cons p rest ih => simp [Ordered, ih, and_assoc]

theorem ordered_of_forall {known : List Ident} {ps : List Part}
    (h : ∀ e ∈ ps.flatMap (Part.edges scope), e.source ∈ known ∧ e.target ∈ known) :
    Ordered scope offset known ps := by
  induction ps generalizing known with
  | nil => trivial
  | cons p rest ih =>
    simp only [List.flatMap_cons, List.mem_append] at h
    refine ⟨fun e he => h e (.inl he), ih ?_⟩
    intro e he
    have hends := h e (.inr he)
    exact ⟨List.mem_append_left _ hends.1, List.mem_append_left _ hends.2⟩

theorem Coherent.of_append {ps ps' : List Part} (h : Coherent scope offset (ps ++ ps')) :
    Coherent scope offset ps where
  vertices := by
    have := h.vertices
    simp only [List.flatMap_append, List.map_append] at this
    exact this.of_append_left
  edges := by
    have := h.edges
    simp only [List.flatMap_append, List.map_append] at this
    exact this.of_append_left
  components := by
    have := h.components
    simp only [List.flatMap_append, List.map_append] at this
    exact this.of_append_left
  labels := by
    have := h.labels
    simp only [List.flatMap_append, List.map_append] at this
    exact this.of_append_left
  named p hp := h.named p (List.mem_append_left _ hp)
  sound p hp := h.sound p (List.mem_append_left _ hp)
  ordered := (ordered_append.1 h.ordered).1

theorem Coherent.ends {ps : List Part} (h : Coherent scope offset ps) {e : Edge}
    (he : e ∈ ps.flatMap (Part.edges scope)) :
    e.source ∈ (ps.flatMap (Part.vertices scope offset)).map Vertex.id ∧
      e.target ∈ (ps.flatMap (Part.vertices scope offset)).map Vertex.id := by
  induction ps using List.reverseRecOn with
  | nil => simp at he
  | append_singleton ps p ih =>
    simp only [List.flatMap_append, List.mem_append, List.map_append] at he ⊢
    rcases he with he | he
    · exact (ih h.of_append he).imp .inl .inl
    · have hends := (ordered_append.1 h.ordered).2.1 e (by simpa using he)
      exact hends.imp .inl .inl

theorem Graph.IsFree.of_append {g : Graph} {ps ps' : List Part}
    (h : g.IsFree scope offset (ps ++ ps')) : g.IsFree scope offset ps where
  vertices v hv := h.vertices v (by rw [List.flatMap_append]; exact List.mem_append_left _ hv)
  edges e he := h.edges e (by rw [List.flatMap_append]; exact List.mem_append_left _ he)
  components c hc := h.components c (by rw [List.flatMap_append]; exact List.mem_append_left _ hc)
  labels l hl := h.labels l (by rw [List.flatMap_append]; exact List.mem_append_left _ hl)

/-! ## One part -/

variable {g : Graph} {ps : List Part} {p : Part}

/-- Edges placed before end at vertices placed before. -/
theorem listAll_of_later (h : Coherent scope offset (ps ++ [p])) {v : Vertex}
    (hv : v ∈ p.vertices scope offset) : v.listAll (ps.flatMap (Part.edges scope)) = v := by
  apply Vertex.listAll_of_forall
  intro e he
  have hnew : v.id ∉ (ps.flatMap (Part.vertices scope offset)).map Vertex.id := by
    have := h.vertices
    simp only [List.flatMap_append, List.map_append, List.nodup_append, List.flatMap_singleton]
      at this
    intro hold
    exact this.2.2 _ hold _ (List.mem_map_of_mem hv) rfl
  obtain ⟨hsource, htarget⟩ := h.of_append.ends he
  constructor
  · intro heq
    exact hnew (heq ▸ hsource)
  · intro heq
    exact hnew (heq ▸ htarget)

theorem vertices_withParts_of_later (h : Coherent scope offset (ps ++ [p]))
    (he : p.edges scope = []) :
    (g.withParts scope offset (ps ++ [p])).vertices =
      (g.withParts scope offset ps).vertices.insertMany
        ((p.vertices scope offset).map fun v => (v.id, v)) := by
  have hlater : (p.vertices scope offset).map
      (fun v => (v.id, v.listAll (ps.flatMap (Part.edges scope)))) =
        (p.vertices scope offset).map fun v => (v.id, v) :=
    List.map_congr_left fun v hv => by rw [listAll_of_later h hv]
  simp only [Graph.withParts, List.flatMap_append, List.flatMap_singleton, he, List.append_nil,
    List.map_append, Std.ExtTreeMap.insertMany_append, hlater]

theorem vertices_withParts_of_edge {e : Edge} (h : Coherent scope offset (ps ++ [p]))
    (he : p.edges scope = [e]) (hv : p.vertices scope offset = []) :
    (g.withParts scope offset (ps ++ [p])).vertices =
      ((g.withParts scope offset ps).vertices.modify e.source (·.list e.id)).modify e.target
        (·.list e.id) := by
  have hn := h.of_append.vertices
  have hends := (ordered_append.1 h.ordered).2.1 e (by simp [he])
  rw [List.nil_append] at hends
  apply Std.ExtTreeMap.ext_getElem?
  intro id
  simp only [Std.ExtTreeMap.getElem?_modify, Registry.compare_eq_iff]
  simp only [Graph.withParts, List.flatMap_append, List.flatMap_singleton, he, hv, List.append_nil]
  by_cases hid : id ∈ (ps.flatMap (Part.vertices scope offset)).map Vertex.id
  · obtain ⟨v, hmem, rfl⟩ := List.mem_map.1 hid
    have hold := Registry.getElem?_insertMany_map_of_mem (t := g.vertices)
      (f := fun v => v.listAll (ps.flatMap (Part.edges scope))) hn hmem
    rw [Registry.getElem?_insertMany_map_of_mem hn hmem, hold, Vertex.listAll_append_singleton]
    by_cases hs : e.source = v.id <;> by_cases ht : e.target = v.id <;>
      simp [hs, ht, hold, Vertex.list_list]
  · rw [Registry.getElem?_insertMany_map_of_not_mem hid,
      Registry.getElem?_insertMany_map_of_not_mem hid]
    have hs : e.source ≠ id := fun heq => hid (heq ▸ hends.1)
    have ht : e.target ≠ id := fun heq => hid (heq ▸ hends.2)
    simp [hs, ht]

theorem withParts_append_singleton {vertices : Registry Vertex}
    (h : (g.withParts scope offset (ps ++ [p])).vertices = vertices) :
    g.withParts scope offset (ps ++ [p]) =
      { vertices := vertices
        edges := (g.withParts scope offset ps).edges.insertMany
          ((p.edges scope).map fun e => (e.id, e))
        components := (g.withParts scope offset ps).components.insertMany
          ((p.components scope offset).map fun c => (c.id, c))
        labels := (g.withParts scope offset ps).labels.insertMany
          ((p.labels scope offset).map fun l => (l.id, l))
        revision := (g.withParts scope offset ps).revision + 1
        changed := true } := by
  subst h
  simp only [Graph.withParts, List.flatMap_append, List.flatMap_singleton, List.map_append,
    Std.ExtTreeMap.insertMany_append, List.length_append, List.length_singleton, Nat.add_assoc]
  simp

/-- What is left to place stays free while other parts are placed. -/
theorem Graph.IsFree.withParts (hg : g.IsFree scope offset (ps ++ [p]))
    (h : Coherent scope offset (ps ++ [p])) :
    (g.withParts scope offset ps).IsFree scope offset [p] where
  vertices v hv :=
    Registry.not_mem_insertMany_map (by simpa [List.flatMap_append] using h.vertices)
      (by simpa [List.flatMap_append] using hg.vertices) (by simpa using hv)
  edges e he :=
    Registry.not_mem_insertMany_map (by simpa [List.flatMap_append] using h.edges)
      (by simpa [List.flatMap_append] using hg.edges) (by simpa using he)
  components c hc :=
    Registry.not_mem_insertMany_map (by simpa [List.flatMap_append] using h.components)
      (by simpa [List.flatMap_append] using hg.components) (by simpa using hc)
  labels l hl :=
    Registry.not_mem_insertMany_map (by simpa [List.flatMap_append] using h.labels)
      (by simpa [List.flatMap_append] using hg.labels) (by simpa using hl)

/-- Placing the next part brings what it brings. -/
theorem run_place (h : Coherent scope offset (ps ++ [p])) (hg : g.IsFree scope offset (ps ++ [p])) :
    (p.place scope offset).run (g.withParts scope offset ps) =
      .ok () (g.withParts scope offset (ps ++ [p])) := by
  obtain ⟨hvertices, hedges, hcomponents, hlabels⟩ := hg.withParts h
  simp only [List.flatMap_singleton] at hvertices hedges hcomponents hlabels
  cases p with
  | vertex id position =>
    have hnamed : (scope.join id).isRoot = false := h.named (.vertex id position) (by simp)
    have hfree : scope.join id ∉ (g.withParts scope offset ps).vertices :=
      hvertices _ (List.mem_singleton_self _)
    rw [Part.place, Edit.run_discard, Edit.run_addVertex,
      withParts_append_singleton (vertices_withParts_of_later h rfl)]
    simp [hnamed, hfree, Part.vertices, Part.edges, Part.components, Part.labels, Graph.touch,
      Graph.putVertex]
  | edge id source target weight =>
    have hnamed : (scope.join id).isRoot = false :=
      h.named (.edge id source target weight) (by simp)
    have hfree : scope.join id ∉ (g.withParts scope offset ps).edges :=
      hedges _ (List.mem_singleton_self _)
    obtain ⟨hsource, htarget⟩ :=
      (ordered_append.1 h.ordered).2.1 _ (List.mem_singleton_self _)
    have hs : scope.join source ∈ (g.withParts scope offset ps).vertices :=
      Registry.mem_insertMany_map.2 (.inr hsource)
    have ht : scope.join target ∈ (g.withParts scope offset ps).vertices :=
      Registry.mem_insertMany_map.2 (.inr htarget)
    rw [Part.place, Edit.run_discard, Edit.run_addEdge,
      withParts_append_singleton (vertices_withParts_of_edge h rfl rfl)]
    simp [hnamed, hfree, hs, ht, Part.edges, Part.components, Part.labels, Graph.touch,
      Graph.putEdge, Graph.changeVertex]
  | component id position blueprint =>
    have hnamed : (scope.join id).isRoot = false :=
      h.named (.component id position blueprint) (by simp)
    obtain ⟨gadget, hgadget⟩ : ∃ gadget, Gadget.ofBlueprint blueprint = .ok gadget :=
      h.sound (.component id position blueprint) (by simp)
    have hfree : scope.join id ∉ (g.withParts scope offset ps).components :=
      hcomponents (.ofGadget (scope.join id) (offset + position) gadget)
        (by simp [Part.components, hgadget])
    have hports : (gadget.ports (scope.join id)).find?
        (fun plan => (scope.join id).child plan.name ∈ (g.withParts scope offset ps).vertices) =
          none := by
      rw [List.find?_eq_none]
      intro plan hplan
      have hnot : (scope.join id).child plan.name ∉ (g.withParts scope offset ps).vertices :=
        hvertices (plan.vertex (scope.join id) (offset + position))
          (by simpa [Part.vertices, hgadget] using ⟨plan, hplan, rfl⟩)
      simpa using hnot
    rw [Part.place, Edit.run_discard, Edit.run_addComponent,
      withParts_append_singleton (vertices_withParts_of_later h rfl)]
    simp [hnamed, hfree, hgadget, hports, Part.vertices, Part.edges, Part.components, Part.labels,
      Graph.touch, Graph.putComponent, Graph.foldl_putVertex]
    rfl
  | label id position text =>
    have hnamed : (scope.join id).isRoot = false := h.named (.label id position text) (by simp)
    have hfree : scope.join id ∉ (g.withParts scope offset ps).labels :=
      hlabels _ (List.mem_singleton_self _)
    rw [Part.place, Edit.run_discard, Edit.run_addLabel,
      withParts_append_singleton (vertices_withParts_of_later h rfl)]
    simp [hnamed, hfree, Part.vertices, Part.edges, Part.components, Part.labels, Graph.touch]

/-- Coherent parts can all be placed where their names are free. -/
theorem run_forM_place (h : Coherent scope offset ps) (hg : g.IsFree scope offset ps) :
    (ps.forM (Part.place scope offset) : Edit Unit).run g =
      .ok () (g.withParts scope offset ps) := by
  induction ps using List.reverseRecOn with
  | nil => simp [Graph.withParts]
  | append_singleton ps p ih =>
    have hrest := ih h.of_append hg.of_append
    have hlast := run_place h hg
    simp only [List.forM_eq_forM] at hrest ⊢
    rw [List.forM_append, EStateM.run_bind, hrest]
    simp [hlast]

/-! ## Names that were free -/

/-- A part that could be placed was not there before. -/
theorem isFree_of_run_place {next : Graph} (h : (p.place scope offset).run g = .ok () next) :
    g.IsFree scope offset [p] := by
  cases p with
  | vertex id position =>
    rw [Part.place, Edit.run_discard, Edit.run_addVertex] at h
    split_ifs at h with _ hmem
    exact ⟨by simpa [Part.vertices, Vertex.isolated] using hmem, by simp [Part.edges],
      by simp [Part.components], by simp [Part.labels]⟩
  | edge id source target weight =>
    rw [Part.place, Edit.run_discard, Edit.run_addEdge] at h
    split_ifs at h with _ hmem
    exact ⟨by simp [Part.vertices], by simpa [Part.edges] using hmem, by simp [Part.components],
      by simp [Part.labels]⟩
  | component id position blueprint =>
    rw [Part.place, Edit.run_discard, Edit.run_addComponent] at h
    split_ifs at h with _ hmem
    cases hgadget : Gadget.ofBlueprint blueprint with
    | error fault => simp [hgadget] at h
    | ok gadget =>
      cases hfind : (gadget.ports (scope.join id)).find?
          fun plan => (scope.join id).child plan.name ∈ g.vertices with
      | some plan => simp [hgadget, hfind] at h
      | none =>
        have hports := List.find?_eq_none.1 hfind
        exact ⟨by simpa [Part.vertices, hgadget, PortPlan.vertex, Vertex.isolated] using hports,
          by simp [Part.edges], by simpa [Part.components, hgadget, Component.ofGadget] using hmem,
          by simp [Part.labels]⟩
  | label id position text =>
    rw [Part.place, Edit.run_discard, Edit.run_addLabel] at h
    split_ifs at h with _ hmem
    exact ⟨by simp [Part.vertices], by simp [Part.edges], by simp [Part.components],
      by simpa [Part.labels] using hmem⟩

theorem Graph.IsFree.append_singleton (hg : g.IsFree scope offset ps)
    (h : (g.withParts scope offset ps).IsFree scope offset [p]) :
    g.IsFree scope offset (ps ++ [p]) := by
  obtain ⟨hvertices, hedges, hcomponents, hlabels⟩ := h
  simp only [List.flatMap_singleton] at hvertices hedges hcomponents hlabels
  constructor <;> simp only [List.flatMap_append, List.flatMap_singleton, List.mem_append]
  · rintro v (hv | hv)
    · exact hg.vertices v hv
    · exact fun hmem => hvertices v hv (Registry.mem_insertMany_map.2 (.inl hmem))
  · rintro e (he | he)
    · exact hg.edges e he
    · exact fun hmem => hedges e he (Registry.mem_insertMany_map.2 (.inl hmem))
  · rintro c (hc | hc)
    · exact hg.components c hc
    · exact fun hmem => hcomponents c hc (Registry.mem_insertMany_map.2 (.inl hmem))
  · rintro l (hl | hl)
    · exact hg.labels l hl
    · exact fun hmem => hlabels l hl (Registry.mem_insertMany_map.2 (.inl hmem))

/-- Coherent parts can be placed only where their names are free. -/
theorem isFree_of_run_forM_place (h : Coherent scope offset ps) {next : Graph}
    (hrun : (ps.forM (Part.place scope offset) : Edit Unit).run g = .ok () next) :
    g.IsFree scope offset ps := by
  induction ps using List.reverseRecOn generalizing next with
  | nil => constructor <;> simp
  | append_singleton ps p ih =>
    simp only [List.forM_eq_forM, List.forM_append, EStateM.run_bind] at hrun ih
    cases hfirst : (forM ps (Part.place scope offset) : Edit Unit).run g with
    | error fault mid => simp [hfirst] at hrun
    | ok _ mid =>
      have hfree := ih h.of_append hfirst
      have hplaced := run_forM_place h.of_append hfree
      rw [List.forM_eq_forM, hfirst] at hplaced
      cases hplaced
      have hlast : (p.place scope offset).run (g.withParts scope offset ps) = .ok () next := by
        simpa [hfirst] using hrun
      exact hfree.append_singleton (isFree_of_run_place hlast)

end Append

end ConstraintLogic
