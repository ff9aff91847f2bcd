import ConstraintLogic.Proofs.Appearance.Rules
import ConstraintLogic.Proofs.Reachable
/-!
# Edits do not depend on looks

The same edit of two graphs that look alike to the rules has the same fault, or answers that differ
in looks only, and it leaves graphs that look alike again. Edits of looks may even be made to one of
the graphs alone.
-/

namespace ConstraintLogic

/-! ## Changes of graphs that look alike -/

namespace Graph

variable {g g' : Graph} {id : Ident}

theorem Alike.refl (g : Graph) : g.Alike g :=
  ⟨rfl, rfl, rfl⟩

theorem Alike.symm (h : g.Alike g') : g'.Alike g :=
  ⟨h.vertices.symm, h.edges.symm, h.components.symm⟩

theorem Alike.trans {g'' : Graph} (h : g.Alike g') (h' : g'.Alike g'') : g.Alike g'' :=
  ⟨h.vertices.trans h'.vertices, h.edges.trans h'.edges, h.components.trans h'.components⟩

theorem Alike.touch (h : g.Alike g') : g.touch.Alike g'.touch :=
  ⟨h.vertices, h.edges, h.components⟩

theorem Alike.mem_vertices (h : g.Alike g') : id ∈ g.vertices ↔ id ∈ g'.vertices :=
  Registry.mem_iff_of_map_eq h.vertices

theorem Alike.mem_edges (h : g.Alike g') : id ∈ g.edges ↔ id ∈ g'.edges :=
  Registry.mem_iff_of_map_eq h.edges

theorem Alike.mem_components (h : g.Alike g') : id ∈ g.components ↔ id ∈ g'.components :=
  Registry.mem_iff_of_map_eq h.components

theorem Alike.insertVertex (h : g.Alike g') {v v' : Vertex} (hv : v.core = v'.core) (id : Ident) :
    Alike { g with vertices := g.vertices.insert id v }
      { g' with vertices := g'.vertices.insert id v' } :=
  ⟨Registry.map_insert_congr h.vertices hv id, h.edges, h.components⟩

theorem Alike.insertEdge (h : g.Alike g') {e e' : Edge} (he : e.core = e'.core) (id : Ident) :
    Alike { g with edges := g.edges.insert id e } { g' with edges := g'.edges.insert id e' } :=
  ⟨h.vertices, Registry.map_insert_congr h.edges he id, h.components⟩

theorem Alike.insertComponent (h : g.Alike g') {c c' : Component} (hc : c.core = c'.core)
    (id : Ident) :
    Alike { g with components := g.components.insert id c }
      { g' with components := g'.components.insert id c' } :=
  ⟨h.vertices, h.edges, Registry.map_insert_congr h.components hc id⟩

/-- The same is done to a vertex of either graph, which must not depend on its looks. -/
theorem Alike.changeVertex (h : g.Alike g') {f : Vertex → Vertex}
    (hf : ∀ v, (f v).core = f v.core) (id : Ident) :
    (g.changeVertex id f).Alike (g'.changeVertex id f) :=
  ⟨Registry.map_modify_congr h.vertices hf id, h.edges, h.components⟩

theorem Alike.putEdge (h : g.Alike g') (e : Edge) : (g.putEdge e).Alike (g'.putEdge e) := by
  have hlist (v : Vertex) : (v.list e.id).core = v.core.list e.id := rfl
  exact ((h.changeVertex hlist e.source).changeVertex hlist e.target).insertEdge (e := e) rfl e.id

theorem Alike.putVertices (h : g.Alike g') {ι : Type} {place place' : ι → Vertex}
    (hplace : ∀ i, (place i).core = (place' i).core) (l : List ι) :
    ((l.map place).foldl putVertex g).Alike ((l.map place').foldl putVertex g') := by
  induction l generalizing g g' with
  | nil => exact h
  | cons i rest ih =>
    have hput : (g.putVertex (place i)).Alike (g'.putVertex (place' i)) := by
      rw [putVertex, putVertex, (Vertex.core_eq_iff.1 (hplace i)).1]
      exact h.insertVertex (hplace i) _
    exact ih hput

/-- A gadget may be put at different places. -/
theorem Alike.putComponent (h : g.Alike g') (id : Ident) (position position' : Point)
    (gadget : Gadget) :
    (g.putComponent (.ofGadget id position gadget)).Alike
      (g'.putComponent (.ofGadget id position' gadget)) := by
  have hports (plan : PortPlan) :
      (plan.vertex id position).core = (plan.vertex id position').core := by
    simp only [PortPlan.vertex, Vertex.core_isolated]
  have hgadget : (Component.ofGadget id position gadget).core =
      (Component.ofGadget id position' gadget).core := by
    simp only [Component.core_ofGadget]
  exact (h.putVertices hports (gadget.ports id)).insertComponent hgadget id

theorem Alike.attempt (h : g.Alike g') (id : Ident) :
    (g.moved? id).isSome = (g'.moved? id).isSome ∧ (g.attempt id).Alike (g'.attempt id) := by
  have hcore := alike_iff_core_eq.1 h
  have hmoved : (g.moved? id).map core = (g'.moved? id).map core := by
    rw [← map_core_moved? g, hcore, map_core_moved? g']
  constructor
  · rw [← Option.isSome_map (f := core), hmoved, Option.isSome_map]
  · rw [alike_iff_core_eq, Graph.attempt, Graph.attempt, ← Option.getD_map core,
      ← Option.getD_map core, hmoved, hcore]

theorem Alike.commit (h : g.Alike g') (p : Pass) :
    (p.commit g).1 = (p.commit g').1 ∧ (p.commit g).2.Alike (p.commit g').2 := by
  have houtcome : p.outcome g = p.outcome g' := by
    rw [← Pass.outcome_core, alike_iff_core_eq.1 h, Pass.outcome_core]
  have hsettle : (p.settle g).Alike (p.settle g') := by
    rw [alike_iff_core_eq, ← Pass.settle_core, alike_iff_core_eq.1 h, Pass.settle_core]
  refine ⟨houtcome, ?_⟩
  rw [Pass.commit, Pass.commit, houtcome]
  split_ifs
  · exact hsettle
  · exact hsettle.touch

theorem Alike.validate (h : g.Alike g') :
    g.validate.1 = g'.validate.1 ∧ g.validate.2.Alike g'.validate.2 := by
  have hpass : g.fullPass = g'.fullPass := by
    rw [← fullPass_core, alike_iff_core_eq.1 h, fullPass_core]
  rw [Graph.validate, Graph.validate, hpass]
  exact h.commit _

end Graph

/-! ## Edits of graphs that look alike -/

namespace Edit

section Matches

variable {α β γ δ ι : Type}

/-- The same fault or answers that are related, and graphs that look alike. -/
inductive Matching (R : α → β → Prop) :
    EStateM.Result Fault Graph α → EStateM.Result Fault Graph β → Prop
  | ok {a : α} {b : β} {g g' : Graph} (hab : R a b) (h : g.Alike g') :
    Matching R (.ok a g) (.ok b g')
  | error {fault : Fault} {g g' : Graph} (h : g.Alike g') :
    Matching R (.error fault g) (.error fault g')

/-- The edits do the same to graphs that look alike. -/
def Matches (R : α → β → Prop) (act : Edit α) (act' : Edit β) : Prop :=
  ∀ g g', g.Alike g' → Matching R (act.run g) (act'.run g')

variable {R : α → β → Prop} {S : γ → δ → Prop} {act : Edit α} {act' : Edit β}

theorem matches_pure {a : α} {b : β} (hab : R a b) : Matches R (pure a) (pure b) :=
  fun _ _ h => .ok hab h

theorem matches_get : Matches Graph.Alike get get :=
  fun _ _ h => .ok h h

theorem matches_modify {f f' : Graph → Graph} (hf : ∀ g g', g.Alike g' → (f g).Alike (f' g')) :
    Matches Eq (modify f) (modify f') :=
  fun g g' h => .ok rfl (hf g g' h)

theorem matches_record : Matches Eq record record :=
  matches_modify fun _ _ h => h.touch

theorem Matches.bind {f : α → Edit γ} {f' : β → Edit δ} (h : Matches R act act')
    (hf : ∀ a b, R a b → Matches S (f a) (f' b)) : Matches S (act >>= f) (act' >>= f') := by
  intro g g' hg
  have hact := h g g' hg
  rw [EStateM.run_bind, EStateM.run_bind]
  generalize act.run g = outcome at hact ⊢
  generalize act'.run g' = outcome' at hact ⊢
  cases hact with
  | ok hab hnext => exact hf _ _ hab _ _ hnext
  | error hnext => exact .error hnext

theorem Matches.map {f : α → γ} {f' : β → δ} (h : Matches R act act')
    (hf : ∀ a b, R a b → S (f a) (f' b)) : Matches S (f <$> act) (f' <$> act') := by
  rw [map_eq_pure_bind, map_eq_pure_bind]
  exact h.bind fun a b hab => matches_pure (hf a b hab)

theorem Matches.discard (h : Matches R act act') :
    Matches Eq (discard act : Edit Unit) (discard act') :=
  h.map fun _ _ _ => rfl

theorem Matches.forM {l : List ι} {f f' : ι → Edit Unit} (h : ∀ i, Matches Eq (f i) (f' i)) :
    Matches Eq (l.forM f) (l.forM f') := by
  rw [List.forM_eq_forM]
  induction l with
  | nil => exact matches_pure rfl
  | cons i rest ih =>
    rw [List.forM_cons, List.forM_cons]
    exact (h i).bind fun _ _ _ => ih

end Matches

/-! ## Single edits -/

/-- Looking an entity up gives the same fault, or the same up to looks. -/
theorem matches_find {α : Type} (kind : EntityKind) (entries : Graph → Registry α) (f : α → α)
    (hf : ∀ g g', g.Alike g' → (entries g).map (fun _ => f) = (entries g').map fun _ => f)
    (id : Ident) :
    Matches (fun a a' => f a = f a') (do ofExcept (Graph.find kind (entries (← get)) id))
      (do ofExcept (Graph.find kind (entries (← get)) id)) := by
  intro g g' h
  simp only [EStateM.run_bind, EStateM.run_get, run_ofExcept, Graph.find]
  rcases Registry.getElem?_cases_of_map_eq (hf g g' h) id with ⟨ha, ha'⟩ | ⟨a, a', ha, ha', hsame⟩
  · rw [ha, ha']
    exact .error h
  · rw [ha, ha']
    exact .ok hsame h

theorem matches_vertex (id : Ident) :
    Matches (fun v v' => v.core = v'.core) (do ofExcept ((← get).vertex id))
      (do ofExcept ((← get).vertex id)) :=
  matches_find .vertex Graph.vertices Vertex.core (fun _ _ h => h.vertices) id

theorem matches_edge (id : Ident) :
    Matches (fun e e' => e.core = e'.core) (do ofExcept ((← get).edge id))
      (do ofExcept ((← get).edge id)) :=
  matches_find .edge Graph.edges Edge.core (fun _ _ h => h.edges) id

theorem matches_component (id : Ident) :
    Matches (fun c c' => c.core = c'.core) (do ofExcept ((← get).component id))
      (do ofExcept ((← get).component id)) :=
  matches_find .component Graph.components Component.core (fun _ _ h => h.components) id

theorem matches_addVertex (id : Ident) (position position' : Point) (visible : Bool) :
    Matches (fun v v' => v.core = v'.core) (addVertex id position visible)
      (addVertex id position' visible) := by
  intro g g' h
  rw [run_addVertex, run_addVertex]
  simp only [h.mem_vertices]
  split_ifs
  · exact .error h
  · exact .error h
  · have hvertex : (Vertex.isolated id position visible .plain).core =
        (Vertex.isolated id position' visible .plain).core := by
      simp only [Vertex.core_isolated]
    exact .ok hvertex (h.insertVertex hvertex id).touch

theorem matches_setVertexMuted (id : Ident) (muted muted' : Bool) :
    Matches Eq (setVertexMuted id muted) (setVertexMuted id muted') := by
  refine (matches_vertex id).bind fun v v' hsame => ?_
  have hmuted : { v with muted := muted }.core = { v' with muted := muted' }.core := hsame
  exact (matches_modify fun _ _ h => h.insertVertex hmuted id).bind fun _ _ _ => matches_record

theorem matches_addEdge (id source target : Ident) (weight : Weight) :
    Matches Eq (addEdge id source target weight) (addEdge id source target weight) := by
  intro g g' h
  rw [run_addEdge, run_addEdge]
  simp only [h.mem_vertices, h.mem_edges]
  split_ifs
  · exact .error h
  · exact .error h
  · exact .ok rfl (h.putEdge _).touch
  · exact .error h
  · exact .error h

theorem matches_changeEdge (id : Ident) {f f' : Edge → Edge}
    (hf : ∀ e e', e.core = e'.core → (f e).core = (f' e').core) :
    Matches (fun e e' => e.core = e'.core) (changeEdge id f) (changeEdge id f') := by
  refine (matches_edge id).bind fun e e' hsame => ?_
  have hchanged := hf e e' hsame
  exact (matches_modify fun _ _ h => h.insertEdge hchanged id).bind fun _ _ _ =>
    matches_record.bind fun _ _ _ => matches_pure hchanged

theorem matches_setEdgeMuted (id : Ident) (muted muted' : Bool) :
    Matches Eq (setEdgeMuted id muted) (setEdgeMuted id muted') := by
  have hsame (e e' : Edge) (h : e.core = e'.core) :
      { e with muted := muted }.core = { e' with muted := muted' }.core := h
  exact (matches_changeEdge id hsame).discard

theorem matches_setEdgeLabelVisible (id : Ident) (visible visible' : Bool) :
    Matches Eq (setEdgeLabelVisible id visible) (setEdgeLabelVisible id visible') := by
  have hsame (e e' : Edge) (h : e.core = e'.core) :
      { e with labelVisible := visible }.core = { e' with labelVisible := visible' }.core := h
  exact (matches_changeEdge id hsame).discard

theorem matches_reverseEdge (id : Ident) :
    Matches (fun e e' => e.core = e'.core) (reverseEdge id) (reverseEdge id) := by
  refine matches_changeEdge id fun e e' hsame => ?_
  rw [← Edge.reverse_core, hsame, Edge.reverse_core]

theorem matches_detachEdge (id : Ident) :
    Matches (fun e e' => e.core = e'.core) (detachEdge id) (detachEdge id) := by
  refine (matches_edge id).bind fun e e' hsame => ?_
  obtain ⟨-, hsource, htarget, -⟩ := Edge.core_eq_iff.1 hsame
  have hunlist (v : Vertex) : (v.unlist id).core = v.core.unlist id := rfl
  refine (matches_modify fun g g' h => ?_).bind fun _ _ _ =>
    (matches_modify fun g g' h => ?_).bind fun _ _ _ => matches_pure hsame
  · exact ⟨h.vertices, Registry.map_erase_congr h.edges id, h.components⟩
  · rw [hsource, htarget]
    exact (h.changeVertex hunlist e'.source).changeVertex hunlist e'.target

theorem matches_removeEdge (id : Ident) :
    Matches (fun e e' => e.core = e'.core) (removeEdge id) (removeEdge id) :=
  (matches_detachEdge id).bind fun _ _ hsame => matches_record.bind fun _ _ _ => matches_pure hsame

theorem matches_detachVertex (id : Ident) :
    Matches (fun v v' => v.core = v'.core) (detachVertex id) (detachVertex id) := by
  refine (matches_vertex id).bind fun listed listed' hlisted => ?_
  rw [(Vertex.core_eq_iff.1 hlisted).2.2.1]
  refine (Matches.forM fun edge => (matches_detachEdge edge).discard).bind fun _ _ _ => ?_
  refine (matches_vertex id).bind fun v v' hsame => ?_
  refine (matches_modify fun g g' h => ?_).bind fun _ _ _ => matches_pure hsame
  exact ⟨Registry.map_erase_congr h.vertices id, h.edges, h.components⟩

theorem matches_removeVertex (id : Ident) :
    Matches (fun v v' => v.core = v'.core) (removeVertex id) (removeVertex id) :=
  (matches_detachVertex id).bind fun _ _ hsame =>
    matches_record.bind fun _ _ _ => matches_pure hsame

theorem matches_tryReverse (id : Ident) : Matches Eq (tryReverse id) (tryReverse id) := by
  intro g g' h
  obtain ⟨hlegal, hnext⟩ := h.attempt id
  rw [run_tryReverse, run_tryReverse, hlegal]
  simp only [h.mem_edges]
  split_ifs
  · exact .ok rfl hnext
  · exact .error h

theorem matches_addComponent (id : Ident) (position position' : Point) (blueprint : Blueprint) :
    Matches (fun c c' => c.core = c'.core) (addComponent id position blueprint)
      (addComponent id position' blueprint) := by
  intro g g' h
  rw [run_addComponent, run_addComponent]
  simp only [h.mem_vertices, h.mem_components]
  split_ifs
  · exact .error h
  · exact .error h
  · cases Gadget.ofBlueprint blueprint with
    | error fault => exact .error h
    | ok gadget =>
      cases hfind : (gadget.ports id).find? fun plan => id.child plan.name ∈ g'.vertices with
      | some plan =>
        simp only [hfind]
        exact .error h
      | none =>
        simp only [hfind]
        have hgadget : (Component.ofGadget id position gadget).core =
            (Component.ofGadget id position' gadget).core := by
          simp only [Component.core_ofGadget]
        exact .ok hgadget (h.putComponent id position position' gadget).touch

theorem matches_removeComponent (id : Ident) :
    Matches (fun c c' => c.core = c'.core) (removeComponent id) (removeComponent id) := by
  refine (matches_component id).bind fun c c' hsame => ?_
  rw [(Component.core_eq_iff.1 hsame).2.2]
  refine (matches_modify fun g g' h => ?_).bind fun _ _ _ => ?_
  · exact ⟨h.vertices, h.edges, Registry.map_erase_congr h.components id⟩
  refine (Matches.forM fun port => ?_).bind fun _ _ _ =>
    matches_record.bind fun _ _ _ => matches_pure hsame
  refine matches_get.bind fun g g' h => ?_
  simp only [h.mem_vertices]
  split_ifs
  · exact (matches_detachVertex port.2).discard
  · exact matches_pure rfl

theorem matches_setComponentMuted (id : Ident) (muted muted' : Bool) :
    Matches Eq (setComponentMuted id muted) (setComponentMuted id muted') := by
  refine (matches_component id).bind fun c c' hsame => ?_
  have hmuted : { c with muted := muted }.core = { c' with muted := muted' }.core := hsame
  exact (matches_modify fun _ _ h => h.insertComponent hmuted id).bind fun _ _ _ => matches_record

theorem alike_foldl_changeVertex {ι : Type} {f : Vertex → Vertex} (hf : ∀ v, (f v).core = v.core)
    (key : ι → Ident) (l : List ι) (g : Graph) :
    (l.foldl (fun g i => g.changeVertex (key i) f) g).Alike g := by
  induction l generalizing g with
  | nil => exact .refl g
  | cons i rest ih =>
    have hchange : (g.changeVertex (key i) f).Alike g :=
      ⟨Registry.map_modify_of_eq hf g.vertices (key i), rfl, rfl⟩
    exact (ih _).trans hchange

/-- Whither a component is moved does not matter, only whether it is there. -/
theorem matches_moveComponent (id : Ident) (position position' : Point) :
    Matches Eq (moveComponent id position) (moveComponent id position') := by
  refine (matches_component id).bind fun c c' hsame => ?_
  have hplaced : { c with position := position }.core = { c' with position := position' }.core :=
    hsame
  have hmoved (step : Point) (ports : List (String × Ident)) (g : Graph) :=
    alike_foldl_changeVertex (f := fun v => { v with position := v.position + step })
      (fun _ => rfl) Prod.snd ports g
  refine (matches_modify fun _ _ h => h.insertComponent hplaced id).bind fun _ _ _ =>
    (matches_modify fun g g' h => ?_).bind fun _ _ _ => matches_record
  exact (hmoved _ _ g).trans (h.trans (hmoved _ _ g').symm)

theorem matches_clear : Matches Eq clear clear :=
  fun _ _ _ => .ok rfl ⟨rfl, rfl, rfl⟩

theorem matches_commit (p : Pass) : Matches Eq (commit p) (commit p) :=
  fun _ _ h => .ok (h.commit p).1 (h.commit p).2

theorem matches_validate : Matches Eq validate validate :=
  fun _ _ h => .ok h.validate.1 h.validate.2

/-! ## Edits of looks -/

theorem left_map {α β : Type} (f : α → β) (act : Edit α) (g : Graph) :
    (f <$> act).left g = act.left g := by
  simp only [left, EStateM.run, Functor.map, EStateM.map]
  cases act g <;> rfl

theorem left_discard {α : Type} (act : Edit α) (g : Graph) :
    (discard act : Edit Unit).left g = act.left g :=
  left_map _ act g

/-- The edit leaves the graph as it is for the rules. -/
def LooksOnly {α : Type} (act : Edit α) : Prop :=
  ∀ g, (act.left g).Alike g

theorem looksOnly_setVertexMuted (id : Ident) (muted : Bool) :
    LooksOnly (setVertexMuted id muted) := by
  intro g
  rw [left, run_setVertexMuted]
  cases hv : g.vertices[id]? with
  | none => exact .refl g
  | some v => exact ⟨Registry.map_insert_of_eq hv rfl, rfl, rfl⟩

theorem looksOnly_changeEdge (id : Ident) {f : Edge → Edge} (hf : ∀ e, (f e).core = e.core) :
    LooksOnly (changeEdge id f) := by
  intro g
  rw [left, run_changeEdge]
  cases he : g.edges[id]? with
  | none => exact .refl g
  | some e => exact ⟨rfl, Registry.map_insert_of_eq he (hf e), rfl⟩

theorem looksOnly_setEdgeMuted (id : Ident) (muted : Bool) : LooksOnly (setEdgeMuted id muted) := by
  have hsame (e : Edge) : { e with muted := muted }.core = e.core := rfl
  intro g
  rw [setEdgeMuted, left_discard]
  exact looksOnly_changeEdge id hsame g

theorem looksOnly_setEdgeLabelVisible (id : Ident) (visible : Bool) :
    LooksOnly (setEdgeLabelVisible id visible) := by
  have hsame (e : Edge) : { e with labelVisible := visible }.core = e.core := rfl
  intro g
  rw [setEdgeLabelVisible, left_discard]
  exact looksOnly_changeEdge id hsame g

theorem looksOnly_setComponentMuted (id : Ident) (muted : Bool) :
    LooksOnly (setComponentMuted id muted) := by
  intro g
  rw [left, run_setComponentMuted]
  cases hc : g.components[id]? with
  | none => exact .refl g
  | some c => exact ⟨rfl, rfl, Registry.map_insert_of_eq hc rfl⟩

theorem looksOnly_moveComponent (id : Ident) (position : Point) :
    LooksOnly (moveComponent id position) := by
  intro g
  rw [left, run_moveComponent]
  cases hc : g.components[id]? with
  | none => exact .refl g
  | some c =>
    have hcomponent : Graph.Alike { g with
        components := g.components.insert id { c with position := position } } g :=
      ⟨rfl, rfl, Registry.map_insert_of_eq hc rfl⟩
    have hports (v : Vertex) :
        { v with position := v.position + (position - c.position) }.core = v.core := rfl
    have hmoved := (alike_foldl_changeVertex hports Prod.snd c.ports.toList _).trans hcomponent
    exact ⟨hmoved.vertices, hmoved.edges, hmoved.components⟩

theorem looksOnly_addLabel (id : Ident) (position : Point) (text : String)
    (halign valign : Align) : LooksOnly (addLabel id position text halign valign) := by
  intro g
  rw [left, run_addLabel]
  split_ifs <;> exact ⟨rfl, rfl, rfl⟩

theorem looksOnly_removeLabel (id : Ident) : LooksOnly (removeLabel id) := by
  intro g
  rw [left, run_removeLabel]
  cases g.labels[id]? <;> exact ⟨rfl, rfl, rfl⟩

theorem looksOnly_takeChanged : LooksOnly takeChanged :=
  fun _ => ⟨rfl, rfl, rfl⟩

end Edit

end ConstraintLogic
