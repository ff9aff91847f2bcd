import ConstraintLogic.Proofs.Acceptance
/-!
# The check of a move is local

A move is accepted on the word of the two ends of its edge. Turning an edge round is seen only
there: at all other vertices the same edges point the same way, and a gadget none of whose ports is
an end reads the same signals. A gadget one of whose ports is an end has its whole rule checked at
that port. So where all vertices were satisfied before, the two ends speak for all of them.
-/

namespace ConstraintLogic.Graph

variable {g : Graph} {e : Edge} {v : Vertex} {c : Component} {id : Ident}

def AllSatisfied (g : Graph) : Prop :=
  ∀ (id : Ident) (v : Vertex), g.vertices[id]? = some v → g.isSatisfied v = true

/-! ## What a flip leaves alone -/

theorem getElem?_edges_flip (e : Edge) (id : Ident) :
    (g.flip e).edges[id]? = if e.id = id then some e.reverse else g.edges[id]? := by
  rw [flip, Std.ExtTreeMap.getElem?_insert]
  simp only [Registry.compare_eq_iff]

/-- The wiring of a vertex does not depend on how its edges point. -/
theorem isWired_flip (he : g.edges[e.id]? = some e) (v : Vertex) (arity : Arity) :
    (g.flip e).isWired v arity = g.isWired v arity := by
  have hweight (id : Ident) :
      (g.flip e).edges[id]?.map Edge.weight = g.edges[id]?.map Edge.weight := by
    rw [getElem?_edges_flip]
    split
    · next hid =>
      subst hid
      rw [he]
      rfl
    · rfl
  have hweights : ((g.flip e).incident v).map Edge.weight = (g.incident v).map Edge.weight := by
    simp only [incident, List.map_filterMap, hweight]
  have hcount (weight : Weight) :
      ((g.flip e).incident v).countP (fun e => e.weight == weight) =
        (g.incident v).countP fun e => e.weight == weight := by
    have hmap (es : List Edge) : es.countP (fun e => e.weight == weight) =
        (es.map Edge.weight).countP (· == weight) := by
      rw [List.countP_map]
      rfl
    rw [hmap, hmap, hweights]
  rw [isWired, isWired, hcount, hcount]

theorem Linked.incident_flip (h : g.Linked) (he : g.edges[e.id]? = some e)
    (hv : g.vertices[id]? = some v) (hend : ¬e.EndsAt id) :
    (g.flip e).incident v = g.incident v := by
  apply List.filterMap_congr
  intro edge hedge
  rw [getElem?_edges_flip, if_neg]
  rintro rfl
  obtain ⟨e', he', hends⟩ := (h.listed id v hv e.id).1 (Std.ExtTreeSet.mem_toList.1 hedge)
  obtain rfl := Option.some.inj (he.symm.trans he')
  exact hend hends

/-- None of the ports of the component is an end of the edge. -/
def Apart (e : Edge) (c : Component) : Prop :=
  ∀ (name : String) (port : Ident), c.ports[name]? = some port → ¬e.EndsAt port

theorem Linked.incident_port_flip (h : g.Linked) (he : g.edges[e.id]? = some e)
    (hapart : Apart e c) {name : String} (hv : g.port? c name = some v) :
    (g.flip e).incident v = g.incident v := by
  obtain ⟨port, hport, hv⟩ := Option.bind_eq_some_iff.1 hv
  exact h.incident_flip he hv (hapart name port hport)

theorem Linked.gadgetHolds_flip (h : g.Linked) (he : g.edges[e.id]? = some e)
    (hapart : Apart e c) : (g.flip e).gadgetHolds c = g.gadgetHolds c := by
  have hreceives (name : String) :
      (g.flip e).portReceives c name = g.portReceives c name := by
    change (g.port? c name).any (g.flip e).receives = (g.port? c name).any g.receives
    cases hv : g.port? c name with
    | none => rfl
    | some v =>
      simp only [Option.any_some, receives, incoming, pointing, h.incident_port_flip he hapart hv]
  have hdrives (name : String) : (g.flip e).portDrives c name = g.portDrives c name := by
    change (g.port? c name).any (g.flip e).drives = (g.port? c name).any g.drives
    cases hv : g.port? c name with
    | none => rfl
    | some v =>
      simp only [Option.any_some, drives, outgoing, pointing, h.incident_port_flip he hapart hv]
  simp only [gadgetHolds, signals, formulaHolds, hreceives, hdrives]

/-! ## Gadgets and their ports -/

/-- A satisfied port speaks for the rule of its gadget. -/
theorem Consistent.ownerHolds_of_isSatisfied (h : g.Consistent) (hv : g.vertices[id]? = some v)
    {owner : Ident} (howner : v.gate.owner? = some owner) (hs : g.isSatisfied v = true) :
    g.ownerHolds owner = true := by
  cases hgate : v.gate with
  | plain =>
    rw [hgate] at howner
    cases howner
  | converter o =>
    obtain ⟨c, hc, hkind⟩ := h.exists_owner hv howner
    rw [ownerHolds, hc, Option.any_some, gadgetHolds]
    rw [hgate] at hkind
    cases hgadget : c.gadget <;> rw [hgadget] at hkind <;> first | rfl | cases hkind
  | existential o port | universal o port | evaluator o port =>
    obtain rfl : o = owner := by
      rw [hgate] at howner
      exact Option.some.inj howner
    simp only [isSatisfied, hgate, Bool.and_eq_true] at hs
    exact hs.2

/-- What an edge that is turned round can change about a vertex that is not one of its ends. -/
theorem Linked.isSatisfied_flip (h : g.Linked) (he : g.edges[e.id]? = some e)
    (hv : g.vertices[id]? = some v) (hend : ¬e.EndsAt id) (hs : g.isSatisfied v = true)
    (howner : ∀ owner, v.gate.owner? = some owner → (g.flip e).ownerHolds owner = true) :
    (g.flip e).isSatisfied v = true := by
  have hinflow : (g.flip e).inflow v = g.inflow v := by
    rw [inflow, incoming, pointing, h.incident_flip he hv hend]
    rfl
  cases hgate : v.gate with
  | plain | converter =>
    simpa only [isSatisfied, hgate, hinflow, isWired_flip he] using hs
  | existential owner port | universal owner port | evaluator owner port =>
    have hholds := howner owner (congrArg Gate.owner? hgate)
    simp only [isSatisfied, hgate, Bool.and_eq_true] at hs
    simp only [isSatisfied, hgate, isWired_flip he, hs.1, hholds, Bool.and_self]

/-! ## The two ends speak for all vertices -/

theorem Consistent.allSatisfied_flip_iff (h : g.Consistent) (hi : g.checkIntegrity = .ok ())
    (hs : g.AllSatisfied) (he : g.edges[e.id]? = some e) :
    (g.flip e).AllSatisfied ↔ (g.flip e).isEdgeSatisfied e.reverse = true := by
  have hflip : (g.flip e).Consistent :=
    h.of_sameShape (SameShape.insert_edge he (Edge.shape_reverse e))
  constructor
  · intro hall
    have hend (vertex : Ident) (hvertex : e.EndsAt vertex) :
        (g.flip e).vertices[vertex]?.any (g.flip e).isSatisfied = true := by
      obtain ⟨v, hv⟩ := Registry.mem_iff_exists.1 (h.ends e.id e he vertex hvertex)
      exact (Option.any_eq_true _ _).2 ⟨v, hv, hall vertex v hv⟩
    rw [isEdgeSatisfied, Bool.and_eq_true]
    exact ⟨hend _ (.inr rfl), hend _ (.inl rfl)⟩
  · intro hends
    rw [isEdgeSatisfied, Bool.and_eq_true] at hends
    have hend {vertex : Ident} {v : Vertex} (hvertex : e.EndsAt vertex)
        (hv : g.vertices[vertex]? = some v) : (g.flip e).isSatisfied v = true := by
      have hany : (g.flip e).vertices[vertex]?.any (g.flip e).isSatisfied = true := by
        rcases hvertex with rfl | rfl
        · exact hends.2
        · exact hends.1
      obtain ⟨v', hv', hsat⟩ := (Option.any_eq_true _ _).1 hany
      obtain rfl : v = v' := Option.some.inj (hv.symm.trans hv')
      exact hsat
    intro id v hv
    by_cases hvertex : e.EndsAt id
    · exact hend hvertex hv
    refine h.toLinked.isSatisfied_flip he hv hvertex (hs id v hv) ?_
    intro owner howner
    obtain ⟨c, hc, -⟩ := h.exists_owner hv howner
    by_cases hapart : Apart e c
    · have hholds := h.ownerHolds_of_isSatisfied hv howner (hs id v hv)
      rw [ownerHolds, hc, Option.any_some] at hholds
      have hc' : (g.flip e).components[owner]? = some c := hc
      rw [ownerHolds, hc', Option.any_some, h.toLinked.gadgetHolds_flip he hapart, hholds]
    -- a port of the gadget is an end, and being satisfied it speaks for the gadget
    · simp only [Apart, not_forall, not_not] at hapart
      obtain ⟨name, port, hport, hportEnd⟩ := hapart
      obtain ⟨u, hu, huowner⟩ := exists_port_of_checkIntegrity hi hc hport
      rw [(h.components owner c hc).1] at huowner
      exact hflip.ownerHolds_of_isSatisfied hu huowner (hend hportEnd hu)

/-! ## Attempts -/

/-- A graph on which the latches are settled in a move has the entities of a validated one. -/
theorem sameEntities_settled_validate (g : Graph) :
    g.settled.touch.SameEntities g.touch.validate.2 := by
  have hpass : g.touch.fullPass = g.fullPass := rfl
  rw [validate, Pass.commit, hpass]
  split <;> exact ⟨rfl, rfl, rfl, rfl⟩

/-- Where all is well, an attempt makes the move exactly if all is well after it. -/
theorem run_tryReverse_of_allSatisfied (hg : g.Reachable) (hi : g.checkIntegrity = .ok ())
    (hs : g.AllSatisfied) (he : g.edges[id]? = some e) :
    ∃ turned report validated next,
      (Edit.reverseEdge id).run g = .ok e.reverse turned ∧
      Edit.validate.run turned = .ok report validated ∧
      next.SameEntities validated ∧ next.revision = g.revision + 1 ∧
      (e.circular = false ∧ turned.AllSatisfied → (Edit.tryReverse id).run g = .ok true next) ∧
      (¬(e.circular = false ∧ turned.AllSatisfied) → (Edit.tryReverse id).run g = .ok false g) := by
  have hconsistent := hg.consistent
  obtain rfl : e.id = id := (hconsistent.edges id e he).1
  have hall : (g.flip e).touch.AllSatisfied ↔ (g.flip e).isEdgeSatisfied e.reverse = true :=
    hconsistent.allSatisfied_flip_iff hi hs he
  have hmoved : g.moved? e.id = g.move? e := by
    rw [moved?, he, Option.bind_some]
  have hmem : e.id ∈ g.edges := Registry.mem_of_getElem? he
  refine ⟨(g.flip e).touch, (g.flip e).touch.validate.1, (g.flip e).touch.validate.2,
    (g.flip e).settled.touch, ?_, rfl, sameEntities_settled_validate _, rfl, ?_, ?_⟩
  · rw [Edit.reverseEdge, Edit.run_changeEdge, he]
    rfl
  · rintro ⟨hcircular, hturned⟩
    rw [Edit.run_tryReverse_eq_ok_true_iff, moved?_eq_some_iff]
    exact ⟨e, he, hcircular, hall.1 hturned, rfl⟩
  · intro hnot
    have hnone : g.moved? e.id = none := by
      rw [hmoved, move?]
      split
      · rfl
      · next hcircular =>
        refine if_neg fun hends => hnot ⟨by simpa using hcircular, hall.2 hends⟩
    rw [Edit.run_tryReverse, if_pos hmem, hnone, attempt_of_moved?_eq_none hnone]
    rfl

theorem allSatisfied_of_all (h : (g.vertices.toList.all fun (_, v) => g.isSatisfied v) = true) :
    g.AllSatisfied := by
  intro id v hv
  exact List.all_eq_true.1 h (id, v) (Std.ExtTreeMap.mem_toList_iff_getElem?_eq_some.2 hv)

theorem run_tryReverse_loneUniversal :
    loneUniversal.checkIntegrity = .ok () ∧ loneUniversal.AllSatisfied ∧
      ∃ e, loneUniversal.edges[(⟨["try"]⟩ : Ident)]? = some e ∧
        ∃ turned report validated next,
          (Edit.reverseEdge ⟨["try"]⟩).run loneUniversal = .ok e.reverse turned ∧
          Edit.validate.run turned = .ok report validated ∧
          next.SameEntities validated ∧ next.revision = loneUniversal.revision + 1 ∧
          (e.circular = false ∧ turned.AllSatisfied →
            (Edit.tryReverse ⟨["try"]⟩).run loneUniversal = .ok true next) ∧
          (¬(e.circular = false ∧ turned.AllSatisfied) →
            (Edit.tryReverse ⟨["try"]⟩).run loneUniversal = .ok false loneUniversal) := by
  have hintegrity := checkIntegrity_of_isOk (g := loneUniversal) (by decide +kernel)
  have hall : loneUniversal.AllSatisfied := allSatisfied_of_all (by decide +kernel)
  have hedge : loneUniversal.edges[(⟨["try"]⟩ : Ident)]? =
      some ⟨⟨["try"]⟩, ⟨["hub"]⟩, ⟨["gadget", "tryin"]⟩, .double, false, false⟩ := by
    decide +kernel
  exact ⟨hintegrity, hall, _, hedge,
    run_tryReverse_of_allSatisfied ⟨_, rfl⟩ hintegrity hall hedge⟩

end ConstraintLogic.Graph
