import Mathlib.Algebra.GroupWithZero.Nat
import ConstraintLogic.Proofs.Intact
/-!
# Conservation of flow

What flows at a vertex is a sum over the list that the vertex keeps, what there is to flow is a sum
over the edges of the graph. The two agree where vertices and edges know of each other: every edge
flows into exactly one vertex, and out of exactly one unless it is a loop. Turning edges round moves
flow from one vertex to another and never makes any or loses any.
-/

namespace ConstraintLogic

namespace Graph

def edgeList (g : Graph) : List Edge :=
  g.edges.toList.map (·.2)

def vertexList (g : Graph) : List Vertex :=
  g.vertices.toList.map (·.2)

def totalInflow (g : Graph) : Nat :=
  (g.vertexList.map g.inflow).sum

def totalOutflow (g : Graph) : Nat :=
  (g.vertexList.map g.outflow).sum

/-! ## Sums of weights -/

/-- One more weight on top of a sum in a word of 32 bits, unless it overflows. -/
def addWeight? (sum : UInt32) (e : Edge) : Option UInt32 :=
  if sum.toNat + e.weight.value < UInt32.size then some (sum + .ofNat e.weight.value) else none

/-- The sum of weights in words of 32 bits, unless it overflows on the way. -/
def wordWeight? (es : List Edge) : Option UInt32 :=
  es.foldlM addWeight? 0

section Sums

variable {es es' : List Edge} {p : Edge → Bool}

theorem totalWeight_cons (e : Edge) (es : List Edge) :
    totalWeight (e :: es) = e.weight.value + totalWeight es := rfl

theorem totalWeight_filter_le (p : Edge → Bool) (es : List Edge) :
    totalWeight (es.filter p) ≤ totalWeight es := by
  have hsplit := totalWeight_filter_add_filter_not p es
  omega

theorem toNat_addWeight {sum : UInt32} {e : Edge} (h : sum.toNat + e.weight.value < UInt32.size) :
    (sum + .ofNat e.weight.value).toNat = sum.toNat + e.weight.value := by
  have hweight : e.weight.value < UInt32.size := by omega
  rw [UInt32.toNat_add, UInt32.toNat_ofNat_of_lt' hweight]
  exact Nat.mod_eq_of_lt h

private theorem foldlM_addWeight? {sum : UInt32} (h : sum.toNat + totalWeight es < UInt32.size) :
    ∃ w, es.foldlM addWeight? sum = some w ∧ w.toNat = sum.toNat + totalWeight es := by
  induction es generalizing sum with
  | nil => exact ⟨sum, rfl, rfl⟩
  | cons e rest ih =>
    rw [totalWeight_cons] at h ⊢
    have hfits : sum.toNat + e.weight.value < UInt32.size := by omega
    have hrest : (sum + .ofNat e.weight.value).toNat + totalWeight rest < UInt32.size := by
      rw [toNat_addWeight hfits]
      omega
    obtain ⟨w, hw, hvalue⟩ := ih hrest
    rw [toNat_addWeight hfits] at hvalue
    refine ⟨w, ?_, by omega⟩
    rw [List.foldlM_cons, addWeight?, if_pos hfits]
    exact hw

/-- Words are wide enough for every sum below their size. -/
theorem wordWeight?_of_lt (h : totalWeight es < UInt32.size) :
    ∃ w, wordWeight? es = some w ∧ w.toNat = totalWeight es := by
  have hzero : (0 : UInt32).toNat + totalWeight es = totalWeight es := Nat.zero_add _
  rw [← hzero] at h ⊢
  exact foldlM_addWeight? h

/-- Where every edge is counted at one of some places, it is counted once in all. -/
theorem sum_totalWeight_filter {ids : List Ident} (hn : ids.Nodup) (place : Edge → Ident)
    (h : ∀ e ∈ es, place e ∈ ids) :
    (ids.map fun id => totalWeight (es.filter fun e => place e == id)).sum = totalWeight es := by
  induction es with
  | nil => simp [totalWeight]
  | cons e rest ih =>
    have hcons (id : Ident) : totalWeight ((e :: rest).filter fun e => place e == id) =
        (if id = place e then e.weight.value else 0) +
          totalWeight (rest.filter fun e => place e == id) := by
      rw [List.filter_cons]
      by_cases hid : place e = id
      · simp [hid, totalWeight_cons]
      · simp [hid, Ne.symm hid]
    have honce : (ids.map fun id => if id = place e then e.weight.value else 0).sum =
        e.weight.value := by
      rw [List.sum_map_ite, List.sum_map_zero, List.filter_eq,
        List.count_eq_one_of_mem hn (h e List.mem_cons_self)]
      simp
    simp only [hcons]
    rw [List.sum_map_add, honce, ih fun e he => h e (List.mem_cons_of_mem _ he), totalWeight_cons]

end Sums

/-! ## Vertices and edges -/

section Linked

variable {g : Graph} {id : Ident} {v : Vertex} {e : Edge}

theorem mem_edgeList : e ∈ g.edgeList ↔ ∃ id : Ident, g.edges[id]? = some e := by
  simp only [edgeList, List.mem_map, Prod.exists, exists_eq_right,
    Std.ExtTreeMap.mem_toList_iff_getElem?_eq_some]

theorem mem_vertexList : v ∈ g.vertexList ↔ ∃ id : Ident, g.vertices[id]? = some v :=
  mem_vertices_toList

/-- The names of the vertices are those under which they stand. -/
theorem Linked.map_id_vertexList (h : g.Linked) : g.vertexList.map Vertex.id = g.vertices.keys := by
  rw [vertexList, List.map_map, ← Std.ExtTreeMap.map_fst_toList_eq_keys]
  refine List.map_congr_left fun entry hentry => ?_
  exact (h.vertices entry.1 entry.2
    (Std.ExtTreeMap.mem_toList_iff_getElem?_eq_some.1 hentry)).1

/-- A vertex meets each edge that ends at it once, also where both ends do. -/
theorem Linked.incident_perm_filter (h : g.Linked) (hv : g.vertices[id]? = some v) :
    (g.incident v).Perm (g.edgeList.filter fun e => e.source == id || e.target == id) := by
  let entries := g.edges.toList.filter fun entry => entry.2.source == id || entry.2.target == id
  have hnodup : (entries.map (·.1)).Nodup := by
    refine List.Nodup.sublist (List.filter_sublist.map _) ?_
    rw [Std.ExtTreeMap.map_fst_toList_eq_keys]
    exact Std.ExtTreeMap.nodup_keys
  have hlisted (edge : Ident) : edge ∈ v.edges ↔ edge ∈ entries.map (·.1) := by
    rw [h.listed id v hv]
    simp [entries, Edge.EndsAt, Std.ExtTreeMap.mem_toList_iff_getElem?_eq_some]
  have hfound : (entries.map (·.1)).filterMap (fun edge => g.edges[edge]?) =
      entries.map (·.2) := by
    rw [List.filterMap_map, ← List.filterMap_eq_map]
    refine List.filterMap_congr fun entry hentry => ?_
    exact Std.ExtTreeMap.mem_toList_iff_getElem?_eq_some.1 (List.mem_filter.1 hentry).1
  have hperm := incident_perm (g := g) hnodup hlisted
  rw [hfound] at hperm
  rwa [edgeList, List.filter_map]

/-- What flows into a vertex is what the edges carry that point at it. -/
theorem Linked.inflow_eq (h : g.Linked) (hv : g.vertices[id]? = some v) :
    g.inflow v = totalWeight (g.edgeList.filter fun e => e.target == v.id) := by
  rw [inflow_of_incident (h.incident_perm_filter hv), List.filter_filter]
  congr 1
  refine List.filter_congr fun e _ => ?_
  have hin : (e.direction? v.id == some .incoming) = (e.target == v.id) := by
    rw [Bool.eq_iff_iff, beq_iff_eq, beq_iff_eq, Edge.direction?_eq_incoming_iff, eq_comm]
  rw [hin, (h.vertices id v hv).1]
  cases e.target == id <;> simp

/-- What flows out of a vertex is what the edges carry that point from it to another one. -/
theorem Linked.outflow_eq (h : g.Linked) (hv : g.vertices[id]? = some v) :
    g.outflow v =
      totalWeight ((g.edgeList.filter fun e => !e.circular).filter fun e => e.source == v.id) := by
  rw [outflow_of_incident (h.incident_perm_filter hv), List.filter_filter, List.filter_filter]
  congr 1
  refine List.filter_congr fun e _ => ?_
  have hout : (e.direction? v.id == some .outgoing) = (e.source == v.id && !e.circular) := by
    rw [Bool.eq_iff_iff, beq_iff_eq, Edge.direction?_eq_outgoing_iff, eq_comm (a := v.id)]
    simp [Edge.circular]
  rw [hout, (h.vertices id v hv).1]
  cases e.source == id <;> simp

/-- Edges that are each counted at one of the vertices are counted once in all. -/
theorem Linked.sum_vertexList (h : g.Linked) {es : List Edge} (place : Edge → Ident)
    (hplace : ∀ e ∈ es, place e ∈ g.vertices) :
    (g.vertexList.map fun v => totalWeight (es.filter fun e => place e == v.id)).sum =
      totalWeight es := by
  have hnames := h.map_id_vertexList
  have hnodup : (g.vertexList.map Vertex.id).Nodup := by
    rw [hnames]
    exact Std.ExtTreeMap.nodup_keys
  have hmem (e : Edge) (he : e ∈ es) : place e ∈ g.vertexList.map Vertex.id := by
    rw [hnames, Std.ExtTreeMap.mem_keys]
    exact hplace e he
  have hsum := sum_totalWeight_filter hnodup place hmem
  rwa [List.map_map] at hsum

/-- Every edge flows into exactly one vertex. -/
theorem Linked.totalInflow_eq (h : g.Linked) : g.totalInflow = totalWeight g.edgeList := by
  have hinflow (v : Vertex) (hv : v ∈ g.vertexList) :
      g.inflow v = totalWeight (g.edgeList.filter fun e => e.target == v.id) := by
    obtain ⟨id, hid⟩ := mem_vertexList.1 hv
    exact h.inflow_eq hid
  rw [totalInflow, List.map_congr_left hinflow]
  refine h.sum_vertexList Edge.target fun e he => ?_
  obtain ⟨id, hid⟩ := mem_edgeList.1 he
  exact h.ends id e hid e.target (.inr rfl)

/-- Every edge flows out of exactly one vertex, unless it is a loop. -/
theorem Linked.totalOutflow_eq (h : g.Linked) :
    g.totalOutflow = totalWeight (g.edgeList.filter fun e => !e.circular) := by
  have houtflow (v : Vertex) (hv : v ∈ g.vertexList) : g.outflow v =
      totalWeight ((g.edgeList.filter fun e => !e.circular).filter fun e => e.source == v.id) := by
    obtain ⟨id, hid⟩ := mem_vertexList.1 hv
    exact h.outflow_eq hid
  rw [totalOutflow, List.map_congr_left houtflow]
  refine h.sum_vertexList Edge.source fun e he => ?_
  obtain ⟨id, hid⟩ := mem_edgeList.1 (List.mem_filter.1 he).1
  exact h.ends id e hid e.source (.inl rfl)

/-- What is known about the flow in a graph whose edges do not carry too much for a machine word. -/
structure FlowConserved (g : Graph) : Prop where
  /-- A vertex meets the edges that end at it, each of them once. -/
  incident : ∀ (id : Ident) (v : Vertex), g.vertices[id]? = some v →
    (g.incident v).Perm (g.edgeList.filter fun e => e.source == id || e.target == id)
  balanced : ∀ (id : Ident) (v : Vertex), g.vertices[id]? = some v →
    g.inflow v + g.outflow v = totalWeight (g.incident v)
  /-- Sums in machine words do not overflow, and so are balanced too. -/
  words : ∀ (id : Ident) (v : Vertex), g.vertices[id]? = some v → ∃ i o w,
    wordWeight? (g.incoming v) = some i ∧ i.toNat = g.inflow v ∧
    wordWeight? (g.outgoing v) = some o ∧ o.toNat = g.outflow v ∧
    wordWeight? (g.incident v) = some w ∧ i + o = w
  inflows : g.totalInflow = totalWeight g.edgeList
  outflows : g.totalOutflow = totalWeight (g.edgeList.filter fun e => !e.circular)

theorem Linked.totalWeight_incident_le (h : g.Linked) (hv : g.vertices[id]? = some v) :
    totalWeight (g.incident v) ≤ totalWeight g.edgeList := by
  rw [totalWeight_perm (h.incident_perm_filter hv)]
  exact totalWeight_filter_le _ _

theorem Linked.flowConserved (h : g.Linked) (hfits : totalWeight g.edgeList < UInt32.size) :
    g.FlowConserved where
  incident _ _ hv := h.incident_perm_filter hv
  balanced _ _ hv := h.inflow_add_outflow hv
  words id v hv := by
    have hle := h.totalWeight_incident_le hv
    have hbalanced := h.inflow_add_outflow hv
    have hin : g.inflow v < UInt32.size := by omega
    have hout : g.outflow v < UInt32.size := by omega
    have hall : totalWeight (g.incident v) < UInt32.size := by omega
    obtain ⟨i, hi, hivalue⟩ := wordWeight?_of_lt hin
    obtain ⟨o, ho, hovalue⟩ := wordWeight?_of_lt hout
    obtain ⟨w, hw, hwvalue⟩ := wordWeight?_of_lt hall
    refine ⟨i, o, w, hi, hivalue, ho, hovalue, hw, ?_⟩
    have hsum : i.toNat + o.toNat = w.toNat := by
      rw [hivalue, hovalue, hwvalue]
      exact hbalanced
    rw [← UInt32.toNat_inj, UInt32.toNat_add, hsum]
    exact Nat.mod_eq_of_lt w.toNat_lt
  inflows := h.totalInflow_eq
  outflows := h.totalOutflow_eq

end Linked

end Graph

/-! ## Turning edges round -/

/-- What turning an edge round leaves as it is. -/
def Edge.load (e : Edge) : (Ident × Sym2 Ident) × Weight :=
  (e.shape, e.weight)

namespace Edge

variable {e e' : Edge}

theorem load_reverse (e : Edge) : e.reverse.load = e.load := by
  rw [load, Graph.Edge.shape_reverse]
  rfl

theorem circular_eq_of_load_eq (h : e.load = e'.load) : e.circular = e'.circular := by
  have hends : s(e.source, e.target) = s(e'.source, e'.target) := (Prod.mk.inj (Prod.mk.inj h).1).2
  rw [Bool.eq_iff_iff, circular, circular, beq_iff_eq, beq_iff_eq, ← Sym2.mk_isDiag_iff,
    ← Sym2.mk_isDiag_iff, hends]

end Edge

namespace Graph

variable {g g' g'' : Graph} {id : Ident} {v : Vertex} {es es' : List Edge}

theorem totalWeight_filter_congr {p : Edge → Bool} (hp : ∀ e e', e.load = e'.load → p e = p e')
    (h : es.map Edge.load = es'.map Edge.load) :
    totalWeight (es.filter p) = totalWeight (es'.filter p) := by
  induction es generalizing es' with
  | nil =>
    obtain rfl := List.map_eq_nil_iff.1 h.symm
    rfl
  | cons e rest ih =>
    obtain ⟨e', rest', rfl, hload, hrest⟩ := List.map_eq_cons_iff.1 h.symm
    have hweight : e.weight = e'.weight := (Prod.mk.inj hload.symm).2
    have htail := ih hrest.symm
    rw [List.filter_cons, List.filter_cons, hp e e' hload.symm]
    split
    · rw [totalWeight_cons, totalWeight_cons, hweight, htail]
    · exact htail

/-- The graphs have the same vertices, and the same edges but for the ways in which they point. -/
structure SameLoad (g g' : Graph) : Prop where
  vertices : g.vertices = g'.vertices
  edges : ∀ id : Ident, g.edges[id]?.map Edge.load = g'.edges[id]?.map Edge.load

theorem SameLoad.refl (g : Graph) : g.SameLoad g :=
  ⟨rfl, fun _ => rfl⟩

theorem SameLoad.trans (h : g.SameLoad g') (h' : g'.SameLoad g'') : g.SameLoad g'' :=
  ⟨h.vertices.trans h'.vertices, fun id => (h.edges id).trans (h'.edges id)⟩

theorem SameLoad.map_edgeList (h : g.SameLoad g') :
    g.edgeList.map Edge.load = g'.edgeList.map Edge.load := by
  have hloads := Registry.map_eq_map_iff.2 h.edges
  have hlists := congrArg (fun t : Registry _ => t.toList.map (·.2)) hloads
  simp only [Std.ExtTreeMap.toList_map, List.map_map] at hlists
  rw [edgeList, edgeList, List.map_map, List.map_map]
  exact hlists

theorem SameLoad.totalWeight_edgeList (h : g.SameLoad g') :
    totalWeight g.edgeList = totalWeight g'.edgeList := by
  simpa using totalWeight_filter_congr (p := fun _ => true) (fun _ _ _ => rfl) h.map_edgeList

/-- What flows in the whole graph, and through each vertex, does not depend on how edges point. -/
structure SameTotals (g g' : Graph) : Prop where
  inflow : g.totalInflow = g'.totalInflow
  outflow : g.totalOutflow = g'.totalOutflow
  through : ∀ (id : Ident) (v : Vertex), g.vertices[id]? = some v →
    g'.vertices[id]? = some v ∧ g.inflow v + g.outflow v = g'.inflow v + g'.outflow v

theorem SameLoad.sameTotals (h : g.SameLoad g') (hg : g.Linked) (hg' : g'.Linked) :
    g.SameTotals g' where
  inflow := by rw [hg.totalInflow_eq, hg'.totalInflow_eq, h.totalWeight_edgeList]
  outflow := by
    rw [hg.totalOutflow_eq, hg'.totalOutflow_eq]
    refine totalWeight_filter_congr (fun e e' hload => ?_) h.map_edgeList
    rw [Edge.circular_eq_of_load_eq hload]
  through id v hv := by
    have hv' : g'.vertices[id]? = some v := by rwa [← h.vertices]
    refine ⟨hv', ?_⟩
    rw [hg.inflow_add_outflow hv, hg'.inflow_add_outflow hv',
      totalWeight_perm (hg.incident_perm_filter hv),
      totalWeight_perm (hg'.incident_perm_filter hv')]
    refine totalWeight_filter_congr (fun e e' hload => ?_) h.map_edgeList
    rw [Bool.eq_iff_iff]
    simpa [Edge.EndsAt] using Edge.endsAt_iff_of_shape_eq (Prod.mk.inj hload).1 id

end Graph

/-- The change turns an edge round, whatever comes of it or only if that is a legal move. -/
def Change.Turns (c : Change) : Prop :=
  ∃ id, c = .reverseEdge id ∨ c = .tryReverse id

namespace Graph

variable {g : Graph} {id : Ident} {e : Edge}

theorem SameLoad.insert_reverse {g' : Graph} (hv : g'.vertices = g.vertices)
    (he : g.edges[id]? = some e) (hedges : g'.edges = g.edges.insert id e.reverse) :
    g'.SameLoad g where
  vertices := hv
  edges key := by
    rw [hedges]
    exact Registry.map_getElem?_insert he e.load_reverse key

theorem SameLoad.of_moved? {g' : Graph} (h : g.Linked) (hm : g.moved? id = some g') :
    g'.SameLoad g := by
  have hframe := sameFrame_of_moved? hm
  obtain ⟨e, he, -, -, rfl⟩ := moved?_eq_some_iff.1 hm
  obtain rfl : e.id = id := (h.edges id e he).1
  exact .insert_reverse hframe.vertices he rfl

/-- A single turn, which may be refused, changes no more than the way an edge points. -/
theorem SameLoad.after (h : g.Linked) {c : Change} (hc : c.Turns) : (c.after g).SameLoad g := by
  obtain ⟨id, rfl | rfl⟩ := hc
  · simp only [Change.after, Change.edit, Edit.run_discard, Edit.reverseEdge, Edit.run_changeEdge]
    cases he : g.edges[id]? with
    | none => exact .refl g
    | some e => exact .insert_reverse rfl he rfl
  · simp only [Change.after, Change.edit, Edit.run_discard, Edit.run_tryReverse]
    split_ifs
    · change (g.attempt id).SameLoad g
      rw [attempt]
      cases hm : g.moved? id with
      | none => exact .refl g
      | some next => exact .of_moved? h hm
    · exact .refl g

theorem SameLoad.afterAll (h : g.Consistent) {turns : List Change} (ht : ∀ c ∈ turns, c.Turns) :
    (g.afterAll turns).SameLoad g ∧ (g.afterAll turns).Consistent := by
  induction turns generalizing g with
  | nil => exact ⟨.refl g, h⟩
  | cons c rest ih =>
    obtain ⟨hc, hrest⟩ := List.forall_mem_cons.1 ht
    obtain ⟨hload, hconsistent⟩ := ih (h.after c) hrest
    exact ⟨hload.trans (.after h.toLinked hc), hconsistent⟩

/-- Flow is conserved at every vertex and in the whole graph, and no turns of edges change how much
there is of it. -/
theorem Reachable.conserves_flow (h : g.Reachable) (hfits : totalWeight g.edgeList < UInt32.size) :
    g.FlowConserved ∧ ∀ turns : List Change, (∀ c ∈ turns, c.Turns) →
      (g.afterAll turns).FlowConserved ∧ (g.afterAll turns).SameTotals g := by
  have hconsistent := h.consistent
  refine ⟨hconsistent.toLinked.flowConserved hfits, fun turns ht => ?_⟩
  obtain ⟨hload, hafter⟩ := SameLoad.afterAll hconsistent ht
  refine ⟨hafter.toLinked.flowConserved ?_, hload.sameTotals hafter.toLinked hconsistent.toLinked⟩
  rwa [hload.totalWeight_edgeList]

/-- Two vertices with a loop at the first, two single edges to the second and a double one back. -/
def roundTrip : Graph :=
  let first : Ident := ⟨["first"]⟩
  let second : Ident := ⟨["second"]⟩
  afterAll ∅
    [.addVertex first .origin true, .addVertex second .origin true,
     .addEdge ⟨["loop"]⟩ first first .double,
     .addEdge ⟨["left"]⟩ first second .single,
     .addEdge ⟨["right"]⟩ first second .single,
     .addEdge ⟨["back"]⟩ second first .double]

/-- The loop flows into its vertex only, before and after the turns. -/
theorem conserves_flow_roundTrip :
    roundTrip.Reachable ∧ totalWeight roundTrip.edgeList < UInt32.size ∧
      roundTrip.totalInflow = 6 ∧ roundTrip.totalOutflow = 4 ∧
      let turned := roundTrip.afterAll
        [.tryReverse ⟨["left"]⟩, .reverseEdge ⟨["loop"]⟩, .reverseEdge ⟨["back"]⟩]
      turned.totalInflow = 6 ∧ turned.totalOutflow = 4 := by
  have hreach : roundTrip.Reachable := ⟨_, rfl⟩
  have hweight : totalWeight roundTrip.edgeList = 6 := by decide +kernel
  have hloops : totalWeight (roundTrip.edgeList.filter fun e => !e.circular) = 4 := by
    decide +kernel
  have hfits : totalWeight roundTrip.edgeList < UInt32.size := by
    rw [hweight]
    decide
  obtain ⟨hflow, hturns⟩ := hreach.conserves_flow hfits
  have hin := hflow.inflows.trans hweight
  have hout := hflow.outflows.trans hloops
  refine ⟨hreach, hfits, hin, hout, ?_⟩
  obtain ⟨-, hsame⟩ := hturns
    [.tryReverse ⟨["left"]⟩, .reverseEdge ⟨["loop"]⟩, .reverseEdge ⟨["back"]⟩] (by
      simp only [List.forall_mem_cons]
      exact ⟨⟨_, .inr rfl⟩, ⟨_, .inl rfl⟩, ⟨_, .inl rfl⟩, by simp⟩)
  exact ⟨hsame.inflow.trans hin, hsame.outflow.trans hout⟩

end Graph

end ConstraintLogic
