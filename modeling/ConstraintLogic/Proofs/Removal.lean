import ConstraintLogic.Proofs.Consistency
/-!
# Removal

What it means to take edges and vertices out of a graph, and that the edits do this: where vertices
and edges know of each other, none of the removals inside a larger one can fail, and the larger one
takes out the same at once. What is left of a consistent graph is consistent.
-/

namespace ConstraintLogic

/-! ## Vertices without some edges -/

namespace Vertex

variable {v : Vertex} {gone gone' : Ident → Bool}

/-- The vertex without those of its edges that are gone. -/
def without (v : Vertex) (gone : Ident → Bool) : Vertex :=
  { v with edges := v.edges.filter fun id => !gone id }

theorem mem_edges_without {id : Ident} :
    id ∈ (v.without gone).edges ↔ id ∈ v.edges ∧ gone id = false := by
  simp [without, Std.ExtTreeSet.mem_filter, Std.ExtTreeSet.get_eq]

theorem without_congr (h : ∀ id ∈ v.edges, gone id = gone' id) :
    v.without gone = v.without gone' :=
  eq_of_mem_edges rfl fun id => by
    rw [mem_edges_without, mem_edges_without]
    exact and_congr_right fun hid => by rw [h id hid]

theorem without_of_forall (h : ∀ id ∈ v.edges, gone id = false) : v.without gone = v :=
  eq_of_mem_edges rfl fun id => by rw [mem_edges_without, and_iff_left_of_imp (h id)]

theorem without_without (v : Vertex) (first second : Ident → Bool) :
    (v.without first).without second = v.without fun id => first id || second id :=
  eq_of_mem_edges rfl fun id => by simp [mem_edges_without, and_assoc]

theorem without_eq_unlist (v : Vertex) (id : Ident) :
    (v.without fun edge => edge = id) = v.unlist id :=
  eq_of_mem_edges rfl fun edge => by
    rw [mem_edges_without, unlist, Std.ExtTreeSet.mem_erase, Ne, Registry.compare_eq_iff,
      decide_eq_false_iff_not, eq_comm, and_comm]

end Vertex

/-- The vertices of a component's ports. -/
def Component.portIds (c : Component) : List Ident :=
  c.ports.toList.map Prod.snd

theorem Component.mem_portIds {c : Component} {id : Ident} :
    id ∈ c.portIds ↔ ∃ name : String, c.ports[name]? = some id := by
  simp [portIds, Std.ExtTreeMap.mem_toList_iff_getElem?_eq_some]

namespace Graph

/-! ## Graphs without some edges -/

variable {g : Graph} {gone gone' : Edge → Bool}

theorem eq_of_getElem? {g' : Graph} (hv : ∀ id : Ident, g.vertices[id]? = g'.vertices[id]?)
    (he : ∀ id : Ident, g.edges[id]? = g'.edges[id]?)
    (hrest : { g with vertices := ∅, edges := ∅ } = { g' with vertices := ∅, edges := ∅ }) :
    g = g' := by
  have hvertices : g.vertices = g'.vertices := Std.ExtTreeMap.ext_getElem? fun {id} => hv id
  have hedges : g.edges = g'.edges := Std.ExtTreeMap.ext_getElem? fun {id} => he id
  cases g
  cases g'
  simp_all

/-- The graph without the edges that are gone. -/
def dropEdges (g : Graph) (gone : Edge → Bool) : Graph :=
  { g with
    vertices := g.vertices.map fun _ v => v.without fun id => g.edges[id]?.any gone
    edges := g.edges.filter fun _ e => !gone e }

theorem getElem?_edges_dropEdges (id : Ident) :
    (g.dropEdges gone).edges[id]? = g.edges[id]?.filter fun e => !gone e := by
  apply Option.ext
  intro e
  rw [dropEdges, Registry.getElem?_filter, Option.filter_eq_some_iff]

theorem getElem?_vertices_dropEdges (id : Ident) :
    (g.dropEdges gone).vertices[id]? =
      g.vertices[id]?.map (·.without fun edge => g.edges[edge]?.any gone) := by
  rw [dropEdges, Std.ExtTreeMap.getElem?_map]

theorem dropEdges_congr (h : ∀ (id : Ident) (e : Edge), g.edges[id]? = some e → gone e = gone' e) :
    g.dropEdges gone = g.dropEdges gone' := by
  have hany (id : Ident) : g.edges[id]?.any gone = g.edges[id]?.any gone' := by
    cases he : g.edges[id]? with
    | none => rfl
    | some e => exact h id e he
  refine eq_of_getElem? ?_ ?_ rfl
  · intro id
    simp only [getElem?_vertices_dropEdges, hany]
  · intro id
    rw [getElem?_edges_dropEdges, getElem?_edges_dropEdges]
    cases he : g.edges[id]? with
    | none => rfl
    | some e => simp [Option.filter, h id e he]

theorem dropEdges_of_forall
    (h : ∀ (id : Ident) (e : Edge), g.edges[id]? = some e → gone e = false) :
    g.dropEdges gone = g := by
  have hany (id : Ident) : g.edges[id]?.any gone = false := by
    cases he : g.edges[id]? with
    | none => rfl
    | some e => exact h id e he
  refine eq_of_getElem? ?_ ?_ rfl
  · intro id
    simp only [getElem?_vertices_dropEdges, hany, Vertex.without_of_forall fun _ _ => rfl,
      Option.map_id']
  · intro id
    rw [getElem?_edges_dropEdges]
    cases he : g.edges[id]? with
    | none => rfl
    | some e => simp [Option.filter, h id e he]

theorem dropEdges_dropEdges (g : Graph) (first second : Edge → Bool) :
    (g.dropEdges first).dropEdges second = g.dropEdges fun e => first e || second e := by
  refine eq_of_getElem? ?_ ?_ rfl
  · intro id
    simp only [getElem?_vertices_dropEdges, getElem?_edges_dropEdges, Option.map_map]
    congr 1
    funext v
    rw [Function.comp_apply, Vertex.without_without]
    congr 1
    funext edge
    cases g.edges[edge]? with
    | none => rfl
    | some e => cases hgone : first e <;> simp [Option.filter, hgone]
  · intro id
    rw [getElem?_edges_dropEdges, getElem?_edges_dropEdges, getElem?_edges_dropEdges,
      Option.filter_filter]
    congr 1
    funext e
    rw [Bool.not_or, Bool.and_comm]

theorem Linked.dropEdges (h : g.Linked) (gone : Edge → Bool) : (g.dropEdges gone).Linked where
  vertices := h.vertices.mono fun id v' hv' => by
    rw [getElem?_vertices_dropEdges, Option.map_eq_some_iff] at hv'
    obtain ⟨v, hv, rfl⟩ := hv'
    exact ⟨v, hv, rfl⟩
  edges := h.edges.mono fun id e he => by
    rw [getElem?_edges_dropEdges, Option.filter_eq_some_iff] at he
    exact ⟨e, he.1, rfl⟩
  listed id v' hv' edge := by
    rw [getElem?_vertices_dropEdges, Option.map_eq_some_iff] at hv'
    obtain ⟨v, hv, rfl⟩ := hv'
    rw [Vertex.mem_edges_without, h.listed id v hv, getElem?_edges_dropEdges]
    cases g.edges[edge]? with
    | none => simp
    | some e => simp [and_comm]
  ends id e he vertex hend := by
    rw [getElem?_edges_dropEdges, Option.filter_eq_some_iff] at he
    rw [Std.ExtTreeMap.mem_iff_isSome_getElem?, getElem?_vertices_dropEdges, Option.isSome_map,
      ← Std.ExtTreeMap.mem_iff_isSome_getElem?]
    exact h.ends id e he.1 vertex hend

theorem Consistent.dropEdges (h : g.Consistent) (gone : Edge → Bool) :
    (g.dropEdges gone).Consistent := by
  refine h.of_linked (h.toLinked.dropEdges gone) ?_ (fun _ _ hc => hc) (fun _ _ _ _ _ => rfl)
    (fun _ _ hl => hl)
  intro id v' hv'
  rw [getElem?_vertices_dropEdges, Option.map_eq_some_iff] at hv'
  obtain ⟨v, hv, rfl⟩ := hv'
  exact ⟨v, hv, rfl, rfl⟩

/-! ## Graphs without some vertices -/

variable {ids : List Ident}

def eraseVertices (g : Graph) (ids : List Ident) : Graph :=
  { g with vertices := g.vertices.filter fun id _ => id ∉ ids }

/-- The edge ends at one of some vertices. -/
def endsIn (ids : List Ident) (e : Edge) : Bool :=
  e.source ∈ ids ∨ e.target ∈ ids

/-- The graph without some vertices and without the edges that end at one of them. -/
def dropVertices (g : Graph) (ids : List Ident) : Graph :=
  (g.dropEdges (endsIn ids)).eraseVertices ids

theorem endsIn_append (first second : List Ident) :
    endsIn (first ++ second) = fun e => endsIn first e || endsIn second e := by
  funext e
  simp [endsIn, or_or_or_comm]

theorem getElem?_vertices_eraseVertices (id : Ident) :
    (g.eraseVertices ids).vertices[id]? = if id ∈ ids then none else g.vertices[id]? := by
  apply Option.ext
  intro v
  rw [eraseVertices, Registry.getElem?_filter]
  split <;> simp_all

theorem eraseVertices_eraseVertices (g : Graph) (first second : List Ident) :
    (g.eraseVertices first).eraseVertices second = g.eraseVertices (first ++ second) := by
  refine eq_of_getElem? ?_ (fun _ => rfl) rfl
  intro id
  simp only [getElem?_vertices_eraseVertices, List.mem_append]
  grind

theorem dropEdges_eraseVertices (g : Graph) (ids : List Ident) (gone : Edge → Bool) :
    (g.eraseVertices ids).dropEdges gone = (g.dropEdges gone).eraseVertices ids := by
  refine eq_of_getElem? ?_ (fun _ => rfl) rfl
  intro id
  rw [getElem?_vertices_eraseVertices, getElem?_vertices_dropEdges, getElem?_vertices_eraseVertices,
    getElem?_vertices_dropEdges]
  split <;> rfl

theorem dropVertices_dropVertices (g : Graph) (first second : List Ident) :
    (g.dropVertices first).dropVertices second = g.dropVertices (first ++ second) := by
  rw [dropVertices, dropVertices, dropEdges_eraseVertices, eraseVertices_eraseVertices,
    dropEdges_dropEdges, dropVertices, endsIn_append]

theorem eq_eraseVertices_singleton (g : Graph) (id : Ident) :
    { g with vertices := g.vertices.erase id } = g.eraseVertices [id] := by
  refine eq_of_getElem? ?_ (fun _ => rfl) rfl
  intro key
  rw [getElem?_vertices_eraseVertices, Std.ExtTreeMap.getElem?_erase]
  simp only [Registry.compare_eq_iff, List.mem_singleton, @eq_comm _ key id]

theorem Linked.dropVertices (h : g.Linked) (ids : List Ident) : (g.dropVertices ids).Linked := by
  have hdrop := h.dropEdges (endsIn ids)
  have hsub (id : Ident) (v : Vertex) (hv : (g.dropVertices ids).vertices[id]? = some v) :
      (g.dropEdges (endsIn ids)).vertices[id]? = some v := by
    rw [Graph.dropVertices, getElem?_vertices_eraseVertices] at hv
    split at hv
    · cases hv
    · exact hv
  refine ⟨hdrop.vertices.mono fun id v hv => ⟨v, hsub id v hv, rfl⟩, hdrop.edges,
    fun id v hv => hdrop.listed id v (hsub id v hv), ?_⟩
  intro id e he vertex hend
  have hmem := hdrop.ends id e he vertex hend
  have hkept : vertex ∉ ids := by
    have hgone : (g.dropEdges (endsIn ids)).edges[id]? = some e := he
    rw [getElem?_edges_dropEdges, Option.filter_eq_some_iff] at hgone
    have hends := hgone.2
    simp only [endsIn, Bool.not_eq_true', decide_eq_false_iff_not, not_or] at hends
    rcases hend with rfl | rfl
    · exact hends.1
    · exact hends.2
  rw [Std.ExtTreeMap.mem_iff_isSome_getElem?] at hmem ⊢
  rwa [Graph.dropVertices, getElem?_vertices_eraseVertices, if_neg hkept]

theorem exists_of_getElem?_vertices_dropVertices {id : Ident} {v' : Vertex}
    (h : (g.dropVertices ids).vertices[id]? = some v') :
    id ∉ ids ∧ ∃ v, g.vertices[id]? = some v ∧ v.id = v'.id ∧ v.gate = v'.gate := by
  rw [dropVertices, getElem?_vertices_eraseVertices, getElem?_vertices_dropEdges] at h
  split at h
  · cases h
  · next hid =>
    obtain ⟨v, hv, rfl⟩ := Option.map_eq_some_iff.1 h
    exact ⟨hid, v, hv, rfl, rfl⟩

theorem dropVertices_of_forall (h : g.Linked) (hids : ∀ id ∈ ids, id ∉ g.vertices) :
    g.dropVertices ids = g := by
  have hdrop : g.dropEdges (endsIn ids) = g := by
    apply dropEdges_of_forall
    intro id e he
    have hends := h.ends id e he
    simp only [endsIn, decide_eq_false_iff_not, not_or]
    exact ⟨fun hmem => hids _ hmem (hends _ (.inl rfl)),
      fun hmem => hids _ hmem (hends _ (.inr rfl))⟩
  rw [dropVertices, hdrop]
  refine eq_of_getElem? ?_ (fun _ => rfl) rfl
  intro id
  rw [getElem?_vertices_eraseVertices]
  split
  · next hid => rw [Std.ExtTreeMap.getElem?_eq_none (hids id hid)]
  · rfl

theorem Consistent.dropVertices (h : g.Consistent) (ids : List Ident) :
    (g.dropVertices ids).Consistent :=
  h.of_linked (h.toLinked.dropVertices ids)
    (fun _ _ hv => (exists_of_getElem?_vertices_dropVertices hv).2) (fun _ _ hc => hc)
    (fun _ _ _ _ _ => rfl) (fun _ _ hl => hl)

/-- A component can be taken out together with the vertices of its ports. -/
theorem Consistent.dropComponent (h : g.Consistent) {id : Ident} {c : Component}
    (hc : g.components[id]? = some c) :
    Consistent { g.dropVertices c.portIds with components := g.components.erase id } := by
  have hlinked := h.toLinked.dropVertices c.portIds
  refine h.of_linked ⟨hlinked.1, hlinked.2, hlinked.3, hlinked.4⟩
    (fun _ _ hv => (exists_of_getElem?_vertices_dropVertices hv).2) ?_ ?_ (fun _ _ hl => hl)
  · intro key c' hc'
    rw [Std.ExtTreeMap.getElem?_erase] at hc'
    split at hc'
    · cases hc'
    · exact hc'
  · intro key v' owner hv' howner
    obtain ⟨hkey, v, hv, -, hgate⟩ := exists_of_getElem?_vertices_dropVertices hv'
    rw [Std.ExtTreeMap.getElem?_erase, if_neg]
    -- a vertex that names the component as its owner is one of its ports, and none of them is left
    rw [Registry.compare_eq_iff]
    rintro rfl
    obtain ⟨c', hc', plan, -, -, hport⟩ := h.owned key v id hv (by rw [hgate, howner])
    obtain rfl : c = c' := Option.some.inj (hc.symm.trans hc')
    rw [(h.vertices key v hv).1] at hport
    exact hkey (Component.mem_portIds.2 ⟨plan.name, hport⟩)

end Graph

/-! ## The edits -/

namespace Edit

variable {g : Graph}

open ConstraintLogic.Graph

private theorem unlist_eq_of_endsAt (h : g.Linked) {id key : Ident} {e : Edge} {v : Vertex}
    (he : g.edges[id]? = some e) (hv : g.vertices[key]? = some v) :
    (if e.source = key ∨ e.target = key then v.unlist id else v) = v.unlist id := by
  split
  · rfl
  · next hend =>
    refine Vertex.eq_of_mem_edges rfl fun edge => ?_
    rw [Vertex.unlist, Std.ExtTreeSet.mem_erase, Ne, Registry.compare_eq_iff,
      iff_and_self]
    rintro hedge rfl
    obtain ⟨e', he', hends⟩ := (h.listed key v hv id).1 hedge
    obtain rfl : e = e' := Option.some.inj (he.symm.trans he')
    exact hend hends

theorem run_detachEdge_of_linked (h : g.Linked) {id : Ident} {e : Edge}
    (he : g.edges[id]? = some e) :
    (detachEdge id).run g = .ok e (g.dropEdges fun e => e.id = id) := by
  rw [run_detachEdge, he]
  refine congrArg (EStateM.Result.ok e) (eq_of_getElem? ?_ ?_ rfl)
  · intro key
    rw [getElem?_changeVertex_changeVertex (fun v => v.unlist_unlist id),
      getElem?_vertices_dropEdges]
    change g.vertices[key]?.map _ = _
    cases hv : g.vertices[key]? with
    | none => rfl
    | some v =>
      rw [Option.map_some, Option.map_some, unlist_eq_of_endsAt h he hv,
        ← Vertex.without_eq_unlist]
      refine congrArg some (Vertex.without_congr ?_)
      intro edge hedge
      obtain ⟨e', he', -⟩ := (h.listed key v hv edge).1 hedge
      rw [he', Option.any_some, (h.edges edge e' he').1]
  · intro key
    rw [getElem?_edges_dropEdges]
    change (g.edges.erase id)[key]? = _
    rw [Std.ExtTreeMap.getElem?_erase]
    simp only [Registry.compare_eq_iff]
    cases hkey : g.edges[key]? with
    | none => simp
    | some e' =>
      rw [Option.filter_some, (h.edges key e' hkey).1]
      by_cases hid : id = key
      · simp [hid]
      · simp [hid, Ne.symm hid]

theorem run_forM_detachEdge (h : g.Linked) {edges : List Ident} (hn : edges.Nodup)
    (hmem : ∀ id ∈ edges, id ∈ g.edges) :
    (forM edges fun edge => discard (detachEdge edge) : Edit Unit).run g =
      .ok () (g.dropEdges fun e => e.id ∈ edges) := by
  induction edges generalizing g with
  | nil =>
    rw [dropEdges_of_forall (by simp)]
    rfl
  | cons id rest ih =>
    obtain ⟨e, he⟩ := Registry.mem_iff_exists.1 (hmem id List.mem_cons_self)
    obtain ⟨hid, hrest⟩ := List.nodup_cons.1 hn
    have hlinked := h.dropEdges fun e => e.id = id
    have hstep := ih hlinked hrest fun id' hid' => by
      obtain ⟨e', he'⟩ := Registry.mem_iff_exists.1 (hmem id' (List.mem_cons_of_mem _ hid'))
      rw [Std.ExtTreeMap.mem_iff_isSome_getElem?, getElem?_edges_dropEdges, he', Option.filter_some,
        (h.edges id' e' he').1, if_pos]
      · rfl
      · simpa using ne_of_mem_of_not_mem hid' hid
    rw [List.forM_cons, EStateM.run_bind, run_discard, run_detachEdge_of_linked h he]
    simp only [hstep, dropEdges_dropEdges]
    congr 2
    funext e'
    simp [List.mem_cons]

theorem run_detachVertex (h : g.Linked) {id : Ident} {v : Vertex} (hv : g.vertices[id]? = some v) :
    (detachVertex id).run g = .ok { v with edges := ∅ } (g.dropVertices [id]) := by
  have hedges := run_forM_detachEdge h (IdentSet.nodup_toList v.edges) fun edge hedge => by
    obtain ⟨e, he, -⟩ := (h.listed id v hv edge).1 (Std.ExtTreeSet.mem_toList.1 hedge)
    exact Registry.mem_of_getElem? he
  have hsame : (g.dropEdges fun e => e.id ∈ v.edges.toList) = g.dropEdges (endsIn [id]) := by
    apply dropEdges_congr
    intro key e he
    have hlisted : key ∈ v.edges ↔ e.EndsAt id := by
      rw [h.listed id v hv, he]
      simp
    simp only [endsIn, (h.edges key e he).1, Std.ExtTreeSet.mem_toList, hlisted, Edge.EndsAt,
      List.mem_singleton]
  have hbare : (v.without fun edge => g.edges[edge]?.any (endsIn [id])) =
      { v with edges := ∅ } := by
    refine Vertex.eq_of_mem_edges rfl fun edge => ?_
    rw [Vertex.mem_edges_without, h.listed id v hv]
    constructor
    · rintro ⟨⟨e, he, hend⟩, hkept⟩
      rw [he] at hkept
      unfold Edge.EndsAt at hend
      simp [endsIn, hend] at hkept
    · intro hnone
      exact absurd hnone Std.ExtTreeSet.not_mem_empty
  simp only [detachVertex, EStateM.run_bind, EStateM.run_get, run_ofExcept, Graph.vertex,
    Graph.find, hv, List.forM_eq_forM, hedges, hsame, getElem?_vertices_dropEdges, Option.map_some,
    hbare]
  rw [Graph.dropVertices, ← eq_eraseVertices_singleton]
  rfl

/-- Ports that are gone already are passed over. -/
theorem run_forM_detachVertex (h : g.Linked) (ports : List (String × Ident)) :
    (forM ports fun (_, port) => do
      if port ∈ (← get).vertices then discard (detachVertex port) else pure () : Edit Unit).run g =
      .ok () (g.dropVertices (ports.map Prod.snd)) := by
  induction ports generalizing g with
  | nil =>
    rw [List.map_nil, dropVertices_of_forall h (by simp)]
    rfl
  | cons port rest ih =>
    obtain ⟨name, id⟩ := port
    have hstep : (do if id ∈ (← get).vertices then discard (detachVertex id) else pure () :
        Edit Unit).run g = .ok () (g.dropVertices [id]) := by
      rw [EStateM.run_bind, EStateM.run_get]
      simp only
      split
      · next hmem =>
        obtain ⟨v, hv⟩ := Registry.mem_iff_exists.1 hmem
        rw [run_discard, run_detachVertex h hv]
      · next hmem =>
        rw [dropVertices_of_forall h (by simpa using hmem)]
        rfl
    rw [List.forM_cons, EStateM.run_bind]
    simp only [hstep, ih (h.dropVertices [id]), dropVertices_dropVertices]
    rfl

theorem run_removeEdge (h : g.Linked) (id : Ident) :
    (removeEdge id).run g =
      match g.edges[id]? with
      | some e => .ok e (g.dropEdges fun e => e.id = id).touch
      | none => .error (.notFound .edge id) g := by
  rw [removeEdge, EStateM.run_bind]
  cases he : g.edges[id]? with
  | none => rw [run_detachEdge, he]
  | some e =>
    rw [run_detachEdge_of_linked h he]
    rfl

theorem run_removeVertex (h : g.Linked) (id : Ident) :
    (removeVertex id).run g =
      match g.vertices[id]? with
      | some v => .ok { v with edges := ∅ } (g.dropVertices [id]).touch
      | none => .error (.notFound .vertex id) g := by
  rw [removeVertex, EStateM.run_bind]
  cases hv : g.vertices[id]? with
  | none =>
    simp only [detachVertex, EStateM.run_bind, EStateM.run_get, run_ofExcept, Graph.vertex,
      Graph.find, hv]
  | some v =>
    rw [run_detachVertex h hv]
    rfl

theorem run_removeComponent (h : g.Linked) (id : Ident) :
    (removeComponent id).run g =
      match g.components[id]? with
      | some c => .ok c { g.dropVertices c.portIds with components := g.components.erase id }.touch
      | none => .error (.notFound .component id) g := by
  simp only [removeComponent, EStateM.run_bind, EStateM.run_get, run_ofExcept, Graph.component,
    Graph.find]
  cases hc : g.components[id]? with
  | none => rfl
  | some c =>
    have hports := run_forM_detachVertex (g := { g with components := g.components.erase id })
      ⟨h.1, h.2, h.3, h.4⟩ c.ports.toList
    simp only [EStateM.run_modify, List.forM_eq_forM, hports]
    rfl

end Edit

end ConstraintLogic
