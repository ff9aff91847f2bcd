import ConstraintLogic.Graph.Play
import ConstraintLogic.Proofs.Registry
/-!
# What edits do

The outcome of each edit that adds to a graph: the fault of its first failing check with the graph
as it was, or the new entity with a graph that holds it and has one more change on record. Then the
edits that change or remove one entity, which fail only if there is none of the name. And the
outcome of attempts to move edges, which are accepted exactly where a play has a legal move.
-/

namespace ConstraintLogic

namespace Vertex

/-- Vertices that differ at most in the edges they list are equal if they list the same ones. -/
theorem eq_of_mem_edges {v v' : Vertex} (hrest : { v with edges := ∅ } = { v' with edges := ∅ })
    (h : ∀ id : Ident, id ∈ v.edges ↔ id ∈ v'.edges) : v = v' := by
  have hedges : v.edges = v'.edges := Std.ExtTreeSet.ext_mem fun {id} => h id
  cases v
  cases v'
  simp_all

theorem list_list (v : Vertex) (id : Ident) : (v.list id).list id = v.list id :=
  eq_of_mem_edges rfl fun other => by
    simp only [list, Std.ExtTreeSet.mem_insert]
    tauto

theorem unlist_unlist (v : Vertex) (id : Ident) : (v.unlist id).unlist id = v.unlist id :=
  eq_of_mem_edges rfl fun other => by
    simp only [unlist, Std.ExtTreeSet.mem_erase]
    tauto

end Vertex

namespace Graph

/-- What is done to the two ends of an edge is done once where they are the same. -/
theorem getElem?_changeVertex_changeVertex {g : Graph} {f : Vertex → Vertex}
    (hf : ∀ v, f (f v) = f v) (source target id : Ident) :
    ((g.changeVertex source f).changeVertex target f).vertices[id]? =
      g.vertices[id]?.map fun v => if source = id ∨ target = id then f v else v := by
  simp only [changeVertex, Std.ExtTreeMap.getElem?_modify, Registry.compare_eq_iff]
  by_cases hs : source = id <;> by_cases ht : target = id <;> subst_vars <;>
    cases g.vertices[id]? <;> simp_all

def putEdge (g : Graph) (e : Edge) : Graph :=
  { (g.changeVertex e.source (·.list e.id)).changeVertex e.target (·.list e.id) with
    edges := g.edges.insert e.id e }

end Graph

/-- The vertex of a port that is still without edges. -/
def PortPlan.vertex (plan : PortPlan) (owner : Ident) (position : Point) : Vertex :=
  .isolated (owner.child plan.name) (position + plan.offset) true plan.gate

namespace Component

private theorem getElem?_insertMany_names {t : Std.ExtTreeMap String Ident} {names : List String}
    {f : String → Ident} {name : String} :
    (t.insertMany (names.map fun name => (name, f name)))[name]? =
      if name ∈ names then some (f name) else t[name]? := by
  induction names generalizing t with
  | nil => simp
  | cons first rest ih =>
    rw [List.map_cons, Std.ExtTreeMap.insertMany_cons, ih, Std.ExtTreeMap.getElem?_insert]
    simp only [Std.LawfulEqCmp.compare_eq_iff_eq, List.mem_cons]
    grind

/-- A new component has the ports of its gadget at their usual names, and no others. -/
theorem getElem?_ports_ofGadget {id : Ident} {position : Point} {gadget : Gadget}
    {name : String} :
    (ofGadget id position gadget).ports[name]? =
      if name ∈ (gadget.ports id).map PortPlan.name then some (id.child name) else none := by
  have hmap : (gadget.ports id).map (fun plan => (plan.name, id.child plan.name)) =
      ((gadget.ports id).map PortPlan.name).map fun name => (name, id.child name) := by
    rw [List.map_map]
    rfl
  rw [ofGadget, hmap, Std.ExtTreeMap.ofList_eq_insertMany_empty, getElem?_insertMany_names,
    Std.ExtTreeMap.getElem?_empty]

end Component

namespace Graph

theorem foldl_putVertex (g : Graph) (vs : List Vertex) :
    vs.foldl putVertex g =
      { g with vertices := g.vertices.insertMany (vs.map fun v => (v.id, v)) } := by
  induction vs generalizing g with
  | nil => simp
  | cons v rest ih =>
    rw [List.foldl_cons, ih, List.map_cons, Std.ExtTreeMap.insertMany_cons]
    rfl

def putComponent (g : Graph) (c : Component) : Graph :=
  let placed :=
    ((c.gadget.ports c.id).map fun plan => plan.vertex c.id c.position).foldl putVertex g
  { placed with components := placed.components.insert c.id c }

theorem putComponent_eq (g : Graph) (c : Component) :
    g.putComponent c =
      { g with
        vertices := g.vertices.insertMany
          (((c.gadget.ports c.id).map fun plan => plan.vertex c.id c.position).map
            fun v => (v.id, v))
        components := g.components.insert c.id c } := by
  rw [putComponent, foldl_putVertex]

end Graph

namespace Edit

variable {g : Graph}

theorem run_requireNamed (id : Ident) (g : Graph) :
    (requireNamed id).run g =
      if id.isRoot then .error (.format .unnamed) g else .ok () g := by
  unfold requireNamed
  split <;> rfl

theorem run_requireFree {α : Type} (kind : EntityKind) (entries : Registry α) (id : Ident)
    (g : Graph) :
    (requireFree kind entries id).run g =
      if id ∈ entries then .error (.duplicate kind id) g else .ok () g := by
  unfold requireFree
  split <;> rfl

theorem run_requireEndpoint (edge endpoint : Ident) (g : Graph) :
    (requireEndpoint edge endpoint).run g =
      if endpoint ∈ g.vertices then .ok () g
      else .error (.referential (.endpointMissing edge endpoint)) g := by
  simp only [requireEndpoint, EStateM.run_bind, EStateM.run_get]
  split <;> rfl

theorem run_addVertex (id : Ident) (position : Point) (visible : Bool) (g : Graph) :
    (addVertex id position visible).run g =
      if id.isRoot then .error (.format .unnamed) g
      else if id ∈ g.vertices then .error (.duplicate .vertex id) g
      else .ok (.isolated id position visible .plain)
        (g.putVertex (.isolated id position visible .plain)).touch := by
  simp only [addVertex, EStateM.run_bind, run_requireNamed]
  by_cases hroot : id.isRoot
  · simp [hroot]
  by_cases hmem : id ∈ g.vertices
  · simp [hroot, run_requireFree, hmem]
  · simp [hroot, run_requireFree, hmem, record]

theorem run_addEdge (id source target : Ident) (weight : Weight) (g : Graph) :
    (addEdge id source target weight).run g =
      if id.isRoot then .error (.format .unnamed) g
      else if id ∈ g.edges then .error (.duplicate .edge id) g
      else if source ∉ g.vertices then .error (.referential (.endpointMissing id source)) g
      else if target ∉ g.vertices then .error (.referential (.endpointMissing id target)) g
      else .ok ⟨id, source, target, weight, false, false⟩
        (g.putEdge ⟨id, source, target, weight, false, false⟩).touch := by
  simp only [addEdge, EStateM.run_bind, run_requireNamed]
  by_cases hroot : id.isRoot
  · simp [hroot]
  by_cases hmem : id ∈ g.edges
  · simp [hroot, run_requireFree, hmem]
  by_cases hsource : source ∈ g.vertices
  · by_cases htarget : target ∈ g.vertices
    · simp [hroot, run_requireFree, hmem, run_requireEndpoint, hsource, htarget, record]
      rfl
    · simp [hroot, run_requireFree, hmem, run_requireEndpoint, hsource, htarget]
  · simp [hroot, run_requireFree, hmem, run_requireEndpoint, hsource]

theorem run_addLabel (id : Ident) (position : Point) (text : String) (halign valign : Align)
    (g : Graph) :
    (addLabel id position text halign valign).run g =
      if id.isRoot then .error (.format .unnamed) g
      else if id ∈ g.labels then .error (.duplicate .label id) g
      else .ok ⟨id, position, text, halign, valign⟩
        { g with labels := g.labels.insert id ⟨id, position, text, halign, valign⟩ }.touch := by
  simp only [addLabel, EStateM.run_bind, run_requireNamed]
  by_cases hroot : id.isRoot
  · simp [hroot]
  by_cases hmem : id ∈ g.labels
  · simp [hroot, run_requireFree, hmem]
  · simp [hroot, run_requireFree, hmem, record]

theorem run_ofExcept {α : Type} (outcome : Except Fault α) (g : Graph) :
    (ofExcept outcome : Edit α).run g =
      match outcome with
      | .ok a => .ok a g
      | .error fault => .error fault g := by
  cases outcome <;> rfl

theorem run_discard {α : Type} (act : Edit α) (g : Graph) :
    (discard act : Edit Unit).run g =
      match act.run g with
      | .ok _ next => .ok () next
      | .error fault next => .error fault next := by
  simp only [Functor.discard, Functor.mapConst, EStateM.run, Function.comp_apply, EStateM.map]
  cases act g <;> rfl

/-- What an edit answers, apart from the graph that it leads to. -/
theorem answer_of_run {α : Type} {act : Edit α} {g next : Graph} {a : α}
    (h : act.run g = .ok a next) : act.run' g = some a := by
  delta EStateM.run'
  rw [h]

/-- The check of the port names stops at the first one that is taken. -/
theorem run_forM_requireFree (owner : Ident) (plans : List PortPlan) (g : Graph) :
    (forM plans fun plan => do
      requireFree .vertex (← get).vertices (owner.child plan.name) : Edit Unit).run g =
      match plans.find? fun plan => owner.child plan.name ∈ g.vertices with
      | some plan => .error (.duplicate .vertex (owner.child plan.name)) g
      | none => .ok () g := by
  induction plans with
  | nil => rfl
  | cons plan rest ih =>
    simp only [List.forM_cons, EStateM.run_bind, EStateM.run_get, run_requireFree] at ih ⊢
    by_cases hmem : owner.child plan.name ∈ g.vertices
    · simp [hmem]
    · simp [hmem, ih]

theorem run_addComponent (id : Ident) (position : Point) (blueprint : Blueprint) (g : Graph) :
    (addComponent id position blueprint).run g =
      if id.isRoot then .error (.format .unnamed) g
      else if id ∈ g.components then .error (.duplicate .component id) g
      else match Gadget.ofBlueprint blueprint with
        | .error fault => .error fault g
        | .ok gadget =>
          match (gadget.ports id).find? fun plan => id.child plan.name ∈ g.vertices with
          | some plan => .error (.duplicate .vertex (id.child plan.name)) g
          | none => .ok (.ofGadget id position gadget)
              (g.putComponent (.ofGadget id position gadget)).touch := by
  simp only [addComponent, EStateM.run_bind, run_requireNamed]
  by_cases hroot : id.isRoot
  · simp [hroot]
  by_cases hmem : id ∈ g.components
  · simp [hroot, run_requireFree, hmem]
  cases hgadget : Gadget.ofBlueprint blueprint with
  | error fault => simp [hroot, run_requireFree, hmem, run_ofExcept]
  | ok gadget =>
    have hports := run_forM_requireFree id (gadget.ports id) g
    cases hfind : (gadget.ports id).find? fun plan => id.child plan.name ∈ g.vertices with
    | some plan =>
      rw [hfind] at hports
      simp [hroot, run_requireFree, hmem, run_ofExcept, hports, hfind]
    | none =>
      rw [hfind] at hports
      simp [hroot, run_requireFree, hmem, run_ofExcept, hports, hfind, record]
      rfl

/-! ## Changing and removing -/

theorem run_setVertexMuted (id : Ident) (muted : Bool) (g : Graph) :
    (setVertexMuted id muted).run g =
      match g.vertices[id]? with
      | some v => .ok () { g with vertices := g.vertices.insert id { v with muted := muted } }.touch
      | none => .error (.notFound .vertex id) g := by
  simp only [setVertexMuted, EStateM.run_bind, EStateM.run_get, run_ofExcept, Graph.vertex,
    Graph.find]
  cases g.vertices[id]? <;> rfl

theorem run_changeEdge (id : Ident) (f : Edge → Edge) (g : Graph) :
    (changeEdge id f).run g =
      match g.edges[id]? with
      | some e => .ok (f e) { g with edges := g.edges.insert id (f e) }.touch
      | none => .error (.notFound .edge id) g := by
  simp only [changeEdge, EStateM.run_bind, EStateM.run_get, run_ofExcept, Graph.edge, Graph.find]
  cases g.edges[id]? <;> rfl

theorem run_detachEdge (id : Ident) (g : Graph) :
    (detachEdge id).run g =
      match g.edges[id]? with
      | some e => .ok e (({ g with edges := g.edges.erase id }.changeVertex e.source
          (·.unlist id)).changeVertex e.target (·.unlist id))
      | none => .error (.notFound .edge id) g := by
  simp only [detachEdge, EStateM.run_bind, EStateM.run_get, run_ofExcept, Graph.edge, Graph.find]
  cases g.edges[id]? <;> rfl

theorem run_setComponentMuted (id : Ident) (muted : Bool) (g : Graph) :
    (setComponentMuted id muted).run g =
      match g.components[id]? with
      | some c =>
        .ok () { g with components := g.components.insert id { c with muted := muted } }.touch
      | none => .error (.notFound .component id) g := by
  simp only [setComponentMuted, EStateM.run_bind, EStateM.run_get, run_ofExcept, Graph.component,
    Graph.find]
  cases g.components[id]? <;> rfl

theorem run_moveComponent (id : Ident) (position : Point) (g : Graph) :
    (moveComponent id position).run g =
      match g.components[id]? with
      | some c => .ok () (c.ports.toList.foldl
          (fun (g : Graph) (_, port) => g.changeVertex port fun v =>
            { v with position := v.position + (position - c.position) })
          { g with components := g.components.insert id { c with position := position } }).touch
      | none => .error (.notFound .component id) g := by
  simp only [moveComponent, EStateM.run_bind, EStateM.run_get, run_ofExcept, Graph.component,
    Graph.find]
  cases g.components[id]? <;> rfl

theorem run_removeLabel (id : Ident) (g : Graph) :
    (removeLabel id).run g =
      match g.labels[id]? with
      | some l => .ok l { g with labels := g.labels.erase id }.touch
      | none => .error (.notFound .label id) g := by
  simp only [removeLabel, EStateM.run_bind, EStateM.run_get, run_ofExcept, Graph.label, Graph.find]
  cases g.labels[id]? <;> rfl

/-! ## Attempts -/

theorem run_tryReverse_eq_ok_true_iff {id : Ident} {next : Graph} :
    (tryReverse id).run g = .ok true next ↔ g.moved? id = some next := by
  rw [run_tryReverse]
  by_cases hid : id ∈ g.edges
  · rw [if_pos hid, Graph.attempt]
    cases g.moved? id <;> simp
  · have hnone : g.moved? id = none := by
      rw [Graph.moved?, Std.ExtTreeMap.getElem?_eq_none hid]
      rfl
    simp [if_neg hid, hnone]

/-- Attempts that are all legal moves are all answered with yes. -/
theorem run_mapM_tryReverse {moves : List Ident} (h : g.AllLegal moves) :
    (moves.mapM tryReverse).run g = .ok (moves.map fun _ => true) (g.play moves) := by
  induction moves generalizing g with
  | nil => rfl
  | cons id rest ih =>
    obtain ⟨next, hnext⟩ := Option.isSome_iff_exists.1 h.1
    have hattempt : g.attempt id = next := by
      rw [Graph.attempt, hnext]
      rfl
    have hrest := ih h.2
    rw [hattempt] at hrest
    rw [List.mapM_cons, EStateM.run_bind, run_tryReverse_eq_ok_true_iff.2 hnext]
    simp only [EStateM.run_bind, hrest, EStateM.run_pure]
    rw [Graph.play_cons, hattempt]
    rfl

end Edit

end ConstraintLogic
