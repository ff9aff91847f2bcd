import ConstraintLogic.History
import ConstraintLogic.Proofs.Removal
/-!
# Reachable graphs

Every change keeps a consistent graph consistent, also where it is refused half-way. So every graph
that some history leads to is consistent.
-/

namespace ConstraintLogic

namespace Edit

/-! ## Invariants of edits -/

/-- What the edit leaves of a graph, whether it is refused or not. -/
def left {α : Type} (act : Edit α) (g : Graph) : Graph :=
  match act.run g with
  | .ok _ next | .error _ next => next

/-- The edit leads from graphs with a property to graphs with it. -/
def Keeps {α : Type} (P : Graph → Prop) (act : Edit α) : Prop :=
  ∀ g, P g → P (act.left g)

section Combinators

variable {α β ι : Type} {P : Graph → Prop}

theorem keeps_pure (a : α) : Keeps P (pure a : Edit α) :=
  fun _ hg => hg

theorem keeps_ofExcept (outcome : Except Fault α) : Keeps P (ofExcept outcome : Edit α) := by
  intro g hg
  cases outcome <;> exact hg

theorem keeps_get : Keeps P (get : Edit Graph) :=
  fun _ hg => hg

theorem Keeps.bind {act : Edit α} {f : α → Edit β} (h : Keeps P act) (hf : ∀ a, Keeps P (f a)) :
    Keeps P (act >>= f) := by
  intro g hg
  have hact := h g hg
  rw [left] at hact
  rw [left, EStateM.run_bind]
  cases hrun : act.run g with
  | ok a next =>
    rw [hrun] at hact
    exact hf a next hact
  | error fault next =>
    rw [hrun] at hact
    exact hact

theorem Keeps.discard {act : Edit α} (h : Keeps P act) : Keeps P (discard act : Edit Unit) := by
  intro g hg
  have hact := h g hg
  rw [left] at hact
  rw [left, run_discard]
  cases hrun : act.run g <;> rw [hrun] at hact <;> exact hact

theorem Keeps.forM {l : List ι} {f : ι → Edit Unit} (h : ∀ i ∈ l, Keeps P (f i)) :
    Keeps P (l.forM f) := by
  rw [List.forM_eq_forM]
  induction l with
  | nil => exact keeps_pure ()
  | cons i rest ih =>
    rw [List.forM_cons]
    exact (h i List.mem_cons_self).bind fun _ => ih fun j hj => h j (List.mem_cons_of_mem _ hj)

theorem Keeps.mapM {l : List ι} {f : ι → Edit α} (h : ∀ i ∈ l, Keeps P (f i)) :
    Keeps P (l.mapM f) := by
  induction l with
  | nil => exact keeps_pure []
  | cons i rest ih =>
    rw [List.mapM_cons]
    exact (h i List.mem_cons_self).bind fun _ =>
      (ih fun j hj => h j (List.mem_cons_of_mem _ hj)).bind fun _ => keeps_pure _

end Combinators

/-! ## Single edits -/

open ConstraintLogic.Graph

theorem keeps_addVertex (id : Ident) (position : Point) (visible : Bool) :
    Keeps Consistent (addVertex id position visible) := by
  intro g hg
  rw [left, run_addVertex]
  split_ifs with hroot hmem
  · exact hg
  · exact hg
  · have hnamed : id.isRoot = false := by simpa using hroot
    exact (hg.putVertex (v := .isolated id position visible .plain) hnamed hmem rfl rfl).touch

theorem keeps_setVertexMuted (id : Ident) (muted : Bool) :
    Keeps Consistent (setVertexMuted id muted) := by
  intro g hg
  rw [left, run_setVertexMuted]
  cases hv : g.vertices[id]? with
  | none => exact hg
  | some v =>
    have hshape : { v with muted := muted }.shape = v.shape := rfl
    exact (hg.of_sameShape (SameShape.insert_vertex hv hshape)).touch

theorem keeps_removeVertex (id : Ident) : Keeps Consistent (removeVertex id) := by
  intro g hg
  rw [left, run_removeVertex hg.toLinked]
  cases g.vertices[id]? with
  | none => exact hg
  | some v => exact (hg.dropVertices [id]).touch

theorem keeps_addEdge (id source target : Ident) (weight : Weight) :
    Keeps Consistent (addEdge id source target weight) := by
  intro g hg
  rw [left, run_addEdge]
  split_ifs with hroot hmem hsource htarget
  · exact hg
  · exact hg
  · have hnamed : id.isRoot = false := by simpa using hroot
    refine (hg.putEdge (e := ⟨id, source, target, weight, false, false⟩) hnamed hmem ?_).touch
    rintro vertex (rfl | rfl)
    · exact hsource
    · exact htarget
  · exact hg
  · exact hg

theorem keeps_changeEdge (id : Ident) {f : Edge → Edge} (h : ∀ e, (f e).shape = e.shape) :
    Keeps Consistent (changeEdge id f) := by
  intro g hg
  rw [left, run_changeEdge]
  cases he : g.edges[id]? with
  | none => exact hg
  | some e => exact (hg.of_sameShape (SameShape.insert_edge he (h e))).touch

theorem keeps_setEdgeMuted (id : Ident) (muted : Bool) :
    Keeps Consistent (setEdgeMuted id muted) := by
  have hshape (e : Edge) : { e with muted := muted }.shape = e.shape := rfl
  exact (keeps_changeEdge id hshape).discard

theorem keeps_setEdgeLabelVisible (id : Ident) (visible : Bool) :
    Keeps Consistent (setEdgeLabelVisible id visible) := by
  have hshape (e : Edge) : { e with labelVisible := visible }.shape = e.shape := rfl
  exact (keeps_changeEdge id hshape).discard

theorem keeps_reverseEdge (id : Ident) : Keeps Consistent (reverseEdge id) :=
  keeps_changeEdge id Edge.shape_reverse

theorem keeps_removeEdge (id : Ident) : Keeps Consistent (removeEdge id) := by
  intro g hg
  rw [left, run_removeEdge hg.toLinked]
  cases g.edges[id]? with
  | none => exact hg
  | some e => exact (hg.dropEdges _).touch

theorem keeps_tryReverse (id : Ident) : Keeps Consistent (tryReverse id) := by
  intro g hg
  rw [left, run_tryReverse]
  split_ifs
  · change (g.attempt id).Consistent
    rw [attempt]
    cases hm : g.moved? id with
    | none => exact hg
    | some next => exact hg.of_sameShape (SameShape.of_moved? hg.toLinked hm)
  · exact hg

theorem keeps_addComponent (id : Ident) (position : Point) (blueprint : Blueprint) :
    Keeps Consistent (addComponent id position blueprint) := by
  intro g hg
  rw [left, run_addComponent]
  split_ifs with hroot hmem
  · exact hg
  · exact hg
  · have hnamed : id.isRoot = false := by simpa using hroot
    cases hgadget : Gadget.ofBlueprint blueprint with
    | error fault => exact hg
    | ok gadget =>
      cases hfind : (gadget.ports id).find? fun plan => id.child plan.name ∈ g.vertices with
      | some plan =>
        simp only [hfind]
        exact hg
      | none =>
        simp only [hfind]
        refine (hg.putComponent hnamed hmem ?_).touch
        intro plan hplan
        simpa using List.find?_eq_none.1 hfind plan hplan

theorem keeps_setComponentMuted (id : Ident) (muted : Bool) :
    Keeps Consistent (setComponentMuted id muted) := by
  intro g hg
  rw [left, run_setComponentMuted]
  cases hc : g.components[id]? with
  | none => exact hg
  | some c =>
    have hshape : { c with muted := muted }.shape = c.shape := rfl
    exact (hg.of_sameShape (SameShape.insert_component hc hshape)).touch

theorem keeps_moveComponent (id : Ident) (position : Point) :
    Keeps Consistent (moveComponent id position) := by
  intro g hg
  rw [left, run_moveComponent]
  cases hc : g.components[id]? with
  | none => exact hg
  | some c =>
    have hcomponent : { c with position := position }.shape = c.shape := rfl
    have hvertex (v : Vertex) :
        { v with position := v.position + (position - c.position) }.shape = v.shape := rfl
    exact ((hg.of_sameShape (SameShape.insert_component hc hcomponent)).of_sameShape
      (SameShape.foldl_changeVertex hvertex Prod.snd c.ports.toList)).touch

theorem keeps_removeComponent (id : Ident) : Keeps Consistent (removeComponent id) := by
  intro g hg
  rw [left, run_removeComponent hg.toLinked]
  cases hc : g.components[id]? with
  | none => exact hg
  | some c => exact (hg.dropComponent hc).touch

theorem keeps_addLabel (id : Ident) (position : Point) (text : String) (halign valign : Align) :
    Keeps Consistent (addLabel id position text halign valign) := by
  intro g hg
  rw [left, run_addLabel]
  split_ifs with hroot hmem
  · exact hg
  · exact hg
  · have hnamed : id.isRoot = false := by simpa using hroot
    exact (hg.putLabel (l := ⟨id, position, text, halign, valign⟩) hnamed).touch

theorem keeps_removeLabel (id : Ident) : Keeps Consistent (removeLabel id) := by
  intro g hg
  rw [left, run_removeLabel]
  cases g.labels[id]? with
  | none => exact hg
  | some l => exact hg.eraseLabel.touch

theorem keeps_clear : Keeps Consistent clear :=
  fun g _ => consistent_bare (g.revision + 1) true

theorem keeps_takeChanged : Keeps Consistent takeChanged :=
  fun _ hg => ⟨⟨hg.vertices, hg.edges, hg.listed, hg.ends⟩, hg.components, hg.labels, hg.owned⟩

theorem keeps_commit (p : Pass) : Keeps Consistent (commit p) :=
  fun _ hg => hg.commit p

theorem keeps_validate : Keeps Consistent validate :=
  fun g hg => hg.commit g.fullPass

/-! ## Circuits and documents -/

theorem keeps_place (scope : Ident) (offset : Point) (p : Part) :
    Keeps Consistent (p.place scope offset) := by
  cases p with
  | vertex => exact (keeps_addVertex _ _ _).discard
  | edge => exact (keeps_addEdge _ _ _ _).discard
  | component => exact (keeps_addComponent _ _ _).discard
  | label => exact (keeps_addLabel _ _ _ _ _).discard

theorem keeps_compileInto (scope : Ident) (offset : Point) (text : String) :
    Keeps Consistent (Circuit.compileInto scope offset text) := by
  refine (keeps_ofExcept _).bind fun q => ?_
  intro g hg
  have hbuild : Keeps Consistent (Circuit.build scope offset q) :=
    Keeps.forM fun p _ => keeps_place scope offset p
  have hbuilt := hbuild g hg
  rw [left] at hbuilt ⊢
  rw [EStateM.run_bind, EStateM.run_get]
  cases hrun : (Circuit.build scope offset q).run g with
  | ok _ built =>
    rw [hrun] at hbuilt
    simp only [hrun]
    exact hbuilt
  | error fault built =>
    simp only [hrun]
    exact hg

end Edit

namespace Description

open ConstraintLogic.Edit ConstraintLogic.Graph

/-- An entry that is refused half-way keeps what it has made of the graph. -/
theorem run_loadEntry (kind : EntryKind) (load : EntryLoader) (s : Scope) (key : String)
    (v : Yaml.Value) (g : Graph) :
    (loadEntry kind load s (key, v)).run g =
      match (ofExcept (Argument.list v) >>= load s key : Edit Unit).run g with
      | .ok _ next => .ok [] next
      | .error fault next => .ok [⟨kind, s.entryName key, fault⟩] next := by
  unfold loadEntry
  cases hv : Argument.list v with
  | error fault =>
    simp only [hv]
    rfl
  | ok args =>
    have hargs : (ofExcept (.ok args) : Edit (List Argument)) g = .ok args g := rfl
    cases hload : load s key args g <;>
      simp only [hv, EStateM.run, bind, EStateM.bind, tryCatch, tryCatchThe,
        MonadExceptOf.tryCatch, EStateM.tryCatch, hargs, hload] <;> rfl

theorem keeps_loadVertex (s : Scope) (key : String) (args : List Argument) :
    Keeps Consistent (loadVertex s key args) := by
  refine (keeps_ofExcept _).bind fun id => (keeps_ofExcept _).bind fun entry =>
    (keeps_addVertex _ _ _).discard.bind fun _ => ?_
  split
  · exact keeps_setVertexMuted _ _
  · exact keeps_pure ()

theorem keeps_applyFlag (id : Ident) (flag : Flag) : Keeps Consistent (applyFlag id flag) := by
  cases flag with
  | muted => exact keeps_setEdgeMuted _ _
  | label => exact keeps_setEdgeLabelVisible _ _
  | flip => exact (keeps_reverseEdge _).discard
  | hidden => exact keeps_pure ()

theorem keeps_loadEdge (s : Scope) (key : String) (args : List Argument) :
    Keeps Consistent (loadEdge s key args) := by
  have hrest (id source target : Ident) (entry : EdgeEntry) :
      Keeps Consistent (do
        discard (Edit.addEdge id source target (entry.weight?.getD .single))
        entry.flags.forM (applyFlag id) : Edit Unit) :=
    (keeps_addEdge _ _ _ _).discard.bind fun _ => Keeps.forM fun flag _ => keeps_applyFlag id flag
  refine (keeps_ofExcept _).bind fun id => (keeps_ofExcept _).bind fun entry =>
    keeps_get.bind fun g => (keeps_ofExcept _).bind fun source => ?_
  split
  · exact (keeps_ofExcept _).bind fun target => hrest id source target entry
  · exact (keeps_pure _).bind fun target => hrest id source target entry

theorem keeps_loadComponent (s : Scope) (key : String) (args : List Argument) :
    Keeps Consistent (loadComponent s key args) := by
  have hrest (made : List Ident) (entry : ComponentEntry) :
      Keeps Consistent
        (if entry.muted then made.forM fun id => Edit.setComponentMuted id true else pure ()) := by
    split
    · exact Keeps.forM fun id _ => keeps_setComponentMuted id true
    · exact keeps_pure ()
  refine (keeps_ofExcept _).bind fun id => (keeps_ofExcept _).bind fun entry => ?_
  dsimp only
  split
  · exact (keeps_addComponent _ _ _).discard.bind fun _ =>
      (keeps_pure _).bind fun made => hrest made entry
  · exact (keeps_compileInto _ _ _).bind fun circuit =>
      (keeps_pure _).bind fun made => hrest made entry

theorem keeps_loadLabel (s : Scope) (key : String) (args : List Argument) :
    Keeps Consistent (loadLabel s key args) :=
  (keeps_ofExcept _).bind fun _ => (keeps_ofExcept _).bind fun _ =>
    (keeps_addLabel _ _ _ _ _).discard

theorem keeps_loadEntry (kind : EntryKind) {load : EntryLoader}
    (h : ∀ s key args, Keeps Consistent (load s key args)) (s : Scope)
    (entry : String × Yaml.Value) : Keeps Consistent (loadEntry kind load s entry) := by
  intro g hg
  obtain ⟨key, v⟩ := entry
  have hload : Keeps Consistent (ofExcept (Argument.list v) >>= load s key : Edit Unit) :=
    (keeps_ofExcept _).bind fun args => h s key args
  have hleft := hload g hg
  rw [left] at hleft ⊢
  rw [run_loadEntry]
  cases hrun : (ofExcept (Argument.list v) >>= load s key : Edit Unit).run g <;>
    rw [hrun] at hleft <;> exact hleft

theorem keeps_loadSection (kind : EntryKind) {load : EntryLoader}
    (h : ∀ s key args, Keeps Consistent (load s key args)) (s : Scope)
    (entries : Section Yaml.Value) : Keeps Consistent (loadSection kind load s entries) :=
  (Keeps.mapM fun entry _ => keeps_loadEntry kind h s entry).bind fun _ => keeps_pure _

theorem keeps_loadPlaces (s : Scope) : Keeps Consistent (loadPlaces s) :=
  (keeps_loadSection _ keeps_loadVertex s _).bind fun _ =>
    (keeps_loadSection _ keeps_loadComponent s _).bind fun _ => keeps_pure _

theorem keeps_loadInto (d : Document) : Keeps Consistent (loadInto d) :=
  (keeps_ofExcept _).bind fun _ => keeps_clear.bind fun _ =>
    (Keeps.mapM fun s _ => keeps_loadPlaces s).bind fun _ =>
      (Keeps.mapM fun s _ => keeps_loadSection _ keeps_loadEdge s _).bind fun _ =>
        (Keeps.mapM fun s _ => keeps_loadSection _ keeps_loadLabel s _).bind fun _ => keeps_pure _

end Description

/-! ## Histories -/

theorem Change.keeps_edit (c : Change) : Edit.Keeps Graph.Consistent c.edit := by
  cases c with
  | addVertex => exact (Edit.keeps_addVertex _ _ _).discard
  | setVertexMuted => exact Edit.keeps_setVertexMuted _ _
  | removeVertex => exact (Edit.keeps_removeVertex _).discard
  | addEdge => exact (Edit.keeps_addEdge _ _ _ _).discard
  | setEdgeMuted => exact Edit.keeps_setEdgeMuted _ _
  | setEdgeLabelVisible => exact Edit.keeps_setEdgeLabelVisible _ _
  | removeEdge => exact (Edit.keeps_removeEdge _).discard
  | reverseEdge => exact (Edit.keeps_reverseEdge _).discard
  | tryReverse => exact (Edit.keeps_tryReverse _).discard
  | addComponent => exact (Edit.keeps_addComponent _ _ _).discard
  | setComponentMuted => exact Edit.keeps_setComponentMuted _ _
  | moveComponent => exact Edit.keeps_moveComponent _ _
  | removeComponent => exact (Edit.keeps_removeComponent _).discard
  | addLabel => exact (Edit.keeps_addLabel _ _ _ _ _).discard
  | removeLabel => exact (Edit.keeps_removeLabel _).discard
  | clear => exact Edit.keeps_clear
  | takeChanged => exact Edit.keeps_takeChanged.discard
  | validate => exact Edit.keeps_validate.discard
  | commit p => exact (Edit.keeps_commit p).discard
  | compileInto => exact (Edit.keeps_compileInto _ _ _).discard
  | loadInto d => exact (Description.keeps_loadInto d).discard

namespace Graph

theorem Consistent.after {g : Graph} (h : g.Consistent) (c : Change) : (c.after g).Consistent := by
  have hleft : c.after g = c.edit.left g := by
    rw [Change.after, Edit.left]
    cases c.edit.run g <;> rfl
  rw [hleft]
  exact c.keeps_edit g h

/-- Whatever was done to a graph since it was empty, it is consistent. -/
theorem Reachable.consistent {g : Graph} (h : g.Reachable) : g.Consistent := by
  obtain ⟨history, rfl⟩ := h
  induction history using List.reverseRecOn with
  | nil => exact consistent_bare 0 false
  | append_singleton history c ih =>
    rw [afterAll, List.foldl_append]
    exact ih.after c

end Graph

end ConstraintLogic
