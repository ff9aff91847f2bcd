import ConstraintLogic.Proofs.Appearance.Edits
/-!
# Histories that differ in looks

Two histories that agree in everything but looks can be told side by side. Some of their steps are
the same call on both graphs, up to looks, and the others change the looks of one of them. Nothing
that the rules make of the graphs differs on the way, and neither does the outcome of any call that
is made on both.
-/

namespace ConstraintLogic

namespace Edit

/-! ## Answers -/

/-- What the edit answers, or its fault. -/
def answer {α : Type} (act : Edit α) (g : Graph) : Except Fault α :=
  match act.run g with
  | .ok a _ => .ok a
  | .error fault _ => .error fault

theorem Matches.answer_and_left {α : Type} {act act' : Edit α} {f : α → α} {g g' : Graph}
    (h : Matches (fun a b => f a = f b) act act') (hg : g.Alike g') :
    (act.answer g).map f = (act'.answer g').map f ∧ (act.left g).Alike (act'.left g') := by
  have hact := h g g' hg
  rw [answer, answer, left, left]
  generalize act.run g = outcome at hact ⊢
  generalize act'.run g' = outcome' at hact ⊢
  cases hact with
  | ok hab hnext => exact ⟨congrArg Except.ok hab, hnext⟩
  | error hnext => exact ⟨rfl, hnext⟩

end Edit

/-- What a change may answer. -/
inductive Answer where
  | done
  | vertex (v : Vertex)
  | edge (e : Edge)
  | component (c : Component)
  | label (l : Label)
  | yesOrNo (b : Bool)
  | validation (r : Validation)
  | circuit (c : Circuit)
  | report (r : Description.Report)

/-- The answer without the looks of the entity that it tells of. -/
def Answer.core : Answer → Answer
  | vertex v => vertex v.core
  | edge e => edge e.core
  | component c => component c.core
  | done => done
  | label l => label l
  | yesOrNo b => yesOrNo b
  | validation r => validation r
  | circuit c => circuit c
  | report r => report r

namespace Change

/-- The change with its answer. -/
def call : Change → Edit Answer
  | addVertex id position visible => .vertex <$> Edit.addVertex id position visible
  | setVertexMuted id muted => (fun _ => .done) <$> Edit.setVertexMuted id muted
  | removeVertex id => .vertex <$> Edit.removeVertex id
  | addEdge id source target weight => .edge <$> Edit.addEdge id source target weight
  | setEdgeMuted id muted => (fun _ => .done) <$> Edit.setEdgeMuted id muted
  | setEdgeLabelVisible id visible => (fun _ => .done) <$> Edit.setEdgeLabelVisible id visible
  | removeEdge id => .edge <$> Edit.removeEdge id
  | reverseEdge id => .edge <$> Edit.reverseEdge id
  | tryReverse id => .yesOrNo <$> Edit.tryReverse id
  | addComponent id position blueprint => .component <$> Edit.addComponent id position blueprint
  | setComponentMuted id muted => (fun _ => .done) <$> Edit.setComponentMuted id muted
  | moveComponent id position => (fun _ => .done) <$> Edit.moveComponent id position
  | removeComponent id => .component <$> Edit.removeComponent id
  | addLabel id position text halign valign =>
    .label <$> Edit.addLabel id position text halign valign
  | removeLabel id => .label <$> Edit.removeLabel id
  | clear => (fun _ => .done) <$> Edit.clear
  | takeChanged => .yesOrNo <$> Edit.takeChanged
  | validate => .validation <$> Edit.validate
  | commit p => .validation <$> Edit.commit p
  | compileInto scope offset text => .circuit <$> Circuit.compileInto scope offset text
  | loadInto d => .report <$> Description.loadInto d

theorem after_eq_left_call (c : Change) (g : Graph) : c.after g = c.call.left g := by
  have hafter : c.after g = c.edit.left g := by
    rw [after, Edit.left]
    cases c.edit.run g <;> rfl
  rw [hafter]
  cases c <;> simp only [edit, call, Edit.left_map, Edit.left_discard]

def outcome (c : Change) (g : Graph) : Except Fault Answer :=
  c.call.answer g

/-- The changes that change nothing but looks, labels and what is on record. -/
inductive LooksOnly : Change → Prop
  | setVertexMuted (id : Ident) (muted : Bool) : LooksOnly (.setVertexMuted id muted)
  | setEdgeMuted (id : Ident) (muted : Bool) : LooksOnly (.setEdgeMuted id muted)
  | setEdgeLabelVisible (id : Ident) (visible : Bool) : LooksOnly (.setEdgeLabelVisible id visible)
  | setComponentMuted (id : Ident) (muted : Bool) : LooksOnly (.setComponentMuted id muted)
  | moveComponent (id : Ident) (position : Point) : LooksOnly (.moveComponent id position)
  | addLabel (id : Ident) (position : Point) (text : String) (halign valign : Align) :
    LooksOnly (.addLabel id position text halign valign)
  | removeLabel (id : Ident) : LooksOnly (.removeLabel id)
  | takeChanged : LooksOnly .takeChanged

theorem LooksOnly.alike {c : Change} (h : c.LooksOnly) (g : Graph) : (c.after g).Alike g := by
  rw [after_eq_left_call]
  cases h <;> rw [call, Edit.left_map]
  case setVertexMuted => exact Edit.looksOnly_setVertexMuted _ _ g
  case setEdgeMuted => exact Edit.looksOnly_setEdgeMuted _ _ g
  case setEdgeLabelVisible => exact Edit.looksOnly_setEdgeLabelVisible _ _ g
  case setComponentMuted => exact Edit.looksOnly_setComponentMuted _ _ g
  case moveComponent => exact Edit.looksOnly_moveComponent _ _ g
  case addLabel => exact Edit.looksOnly_addLabel _ _ _ _ _ g
  case removeLabel => exact Edit.looksOnly_removeLabel _ g
  case takeChanged => exact Edit.looksOnly_takeChanged g

/-- The same call on vertices, edges, components or the whole graph, up to looks. -/
inductive Twin : Change → Change → Prop
  | addVertex (id : Ident) (position position' : Point) (visible : Bool) :
    Twin (.addVertex id position visible) (.addVertex id position' visible)
  | setVertexMuted (id : Ident) (muted muted' : Bool) :
    Twin (.setVertexMuted id muted) (.setVertexMuted id muted')
  | removeVertex (id : Ident) : Twin (.removeVertex id) (.removeVertex id)
  | addEdge (id source target : Ident) (weight : Weight) :
    Twin (.addEdge id source target weight) (.addEdge id source target weight)
  | setEdgeMuted (id : Ident) (muted muted' : Bool) :
    Twin (.setEdgeMuted id muted) (.setEdgeMuted id muted')
  | setEdgeLabelVisible (id : Ident) (visible visible' : Bool) :
    Twin (.setEdgeLabelVisible id visible) (.setEdgeLabelVisible id visible')
  | removeEdge (id : Ident) : Twin (.removeEdge id) (.removeEdge id)
  | reverseEdge (id : Ident) : Twin (.reverseEdge id) (.reverseEdge id)
  | tryReverse (id : Ident) : Twin (.tryReverse id) (.tryReverse id)
  | addComponent (id : Ident) (position position' : Point) (blueprint : Blueprint) :
    Twin (.addComponent id position blueprint) (.addComponent id position' blueprint)
  | setComponentMuted (id : Ident) (muted muted' : Bool) :
    Twin (.setComponentMuted id muted) (.setComponentMuted id muted')
  | moveComponent (id : Ident) (position position' : Point) :
    Twin (.moveComponent id position) (.moveComponent id position')
  | removeComponent (id : Ident) : Twin (.removeComponent id) (.removeComponent id)
  | clear : Twin .clear .clear
  | validate : Twin .validate .validate
  | commit (p : Pass) : Twin (.commit p) (.commit p)

open Edit in
theorem Twin.matches_call {c c' : Change} (h : c.Twin c') :
    Matches (fun a b => a.core = b.core) c.call c'.call := by
  cases h with
  | addVertex => exact (matches_addVertex _ _ _ _).map fun _ _ => congrArg Answer.vertex
  | setVertexMuted => exact (matches_setVertexMuted _ _ _).map fun _ _ _ => rfl
  | removeVertex => exact (matches_removeVertex _).map fun _ _ => congrArg Answer.vertex
  | addEdge => exact (matches_addEdge _ _ _ _).map fun _ _ hsame => by rw [hsame]
  | setEdgeMuted => exact (matches_setEdgeMuted _ _ _).map fun _ _ _ => rfl
  | setEdgeLabelVisible => exact (matches_setEdgeLabelVisible _ _ _).map fun _ _ _ => rfl
  | removeEdge => exact (matches_removeEdge _).map fun _ _ => congrArg Answer.edge
  | reverseEdge => exact (matches_reverseEdge _).map fun _ _ => congrArg Answer.edge
  | tryReverse => exact (matches_tryReverse _).map fun _ _ hsame => by rw [hsame]
  | addComponent => exact (matches_addComponent _ _ _ _).map fun _ _ => congrArg Answer.component
  | setComponentMuted => exact (matches_setComponentMuted _ _ _).map fun _ _ _ => rfl
  | moveComponent => exact (matches_moveComponent _ _ _).map fun _ _ _ => rfl
  | removeComponent => exact (matches_removeComponent _).map fun _ _ => congrArg Answer.component
  | clear => exact matches_clear.map fun _ _ _ => rfl
  | validate => exact matches_validate.map fun _ _ hsame => by rw [hsame]
  | commit => exact (matches_commit _).map fun _ _ hsame => by rw [hsame]

/-- The same call on graphs that look alike has the same outcome, and they still look alike. -/
theorem Twin.outcome_and_alike {c c' : Change} (h : c.Twin c') {g g' : Graph} (hg : g.Alike g') :
    (c.outcome g).map Answer.core = (c'.outcome g').map Answer.core ∧
      (c.after g).Alike (c'.after g') := by
  rw [after_eq_left_call, after_eq_left_call]
  exact h.matches_call.answer_and_left hg

end Change

/-! ## Histories side by side -/

/-- A step of two histories that are told side by side. -/
inductive Joint where
  | both (c c' : Change)
  | first (c : Change)
  | second (c : Change)

/-- What is done to both graphs is the same up to looks, and what is done to one of them changes
looks only. -/
inductive Joint.Fair : Joint → Prop
  | both {c c' : Change} (h : c.Twin c') : Fair (.both c c')
  | first {c : Change} (h : c.LooksOnly) : Fair (.first c)
  | second {c : Change} (h : c.LooksOnly) : Fair (.second c)

namespace Graph

/-- Before each of the steps and after the last one the graphs look alike and all that the rules
make of them is the same, and so is the outcome of every step that is a call on both. -/
def Indistinct (g g' : Graph) : List Joint → Prop
  | [] => g.Alike g' ∧ g.readings = g'.readings
  | .both c c' :: rest => g.Alike g' ∧ g.readings = g'.readings ∧
    (c.outcome g).map Answer.core = (c'.outcome g').map Answer.core ∧
    (c.after g).Indistinct (c'.after g') rest
  | .first c :: rest => g.Alike g' ∧ g.readings = g'.readings ∧ (c.after g).Indistinct g' rest
  | .second c :: rest => g.Alike g' ∧ g.readings = g'.readings ∧ g.Indistinct (c.after g') rest

/-- No sequence of calls tells graphs apart that look alike to the rules. -/
theorem Alike.indistinct {g g' : Graph} (h : g.Alike g') {steps : List Joint}
    (hsteps : ∀ step ∈ steps, step.Fair) : g.Indistinct g' steps := by
  induction steps generalizing g g' with
  | nil => exact ⟨h, h.readings⟩
  | cons step rest ih =>
    obtain ⟨hstep, hrest⟩ := List.forall_mem_cons.1 hsteps
    cases hstep with
    | both htwin =>
      obtain ⟨houtcome, hnext⟩ := htwin.outcome_and_alike h
      exact ⟨h, h.readings, houtcome, ih hnext hrest⟩
    | first hlooks => exact ⟨h, h.readings, ih ((hlooks.alike g).trans h) hrest⟩
    | second hlooks => exact ⟨h, h.readings, ih (h.trans (hlooks.alike g').symm) hrest⟩

theorem alike_afterAll (g : Graph) {history : List Change} (h : ∀ c ∈ history, c.LooksOnly) :
    (g.afterAll history).Alike g := by
  induction history generalizing g with
  | nil => exact .refl g
  | cons c rest ih =>
    obtain ⟨hc, hrest⟩ := List.forall_mem_cons.1 h
    exact (ih (c.after g) hrest).trans (hc.alike g)

/-- The lone gadget at another place, with a muted vertex and a note next to it. -/
def loneUniversalElsewhere : Graph :=
  loneUniversal.afterAll
    [.moveComponent ⟨["gadget"]⟩ ⟨5, 7⟩, .setVertexMuted ⟨["hub"]⟩ true,
     .addLabel ⟨["note"]⟩ ⟨4, 7⟩ "elsewhere" .start .center]

/-- An illegal move, the removal of a vertex that is not there, a vertex at different places, and a
turn after which validation clears the latch, with changes of looks on either side in between. -/
def stepsAtGadget : List Joint :=
  [.first (.setEdgeMuted ⟨["try"]⟩ true),
   .both (.tryReverse ⟨["positive"]⟩) (.tryReverse ⟨["positive"]⟩),
   .both (.removeVertex ⟨["nowhere"]⟩) (.removeVertex ⟨["nowhere"]⟩),
   .both (.addVertex ⟨["new"]⟩ ⟨0, 1⟩ true) (.addVertex ⟨["new"]⟩ ⟨5, 8⟩ true),
   .second (.moveComponent ⟨["gadget"]⟩ ⟨6, 7⟩),
   .both (.reverseEdge ⟨["try"]⟩) (.reverseEdge ⟨["try"]⟩),
   .both .validate .validate]

theorem indistinct_loneUniversalElsewhere :
    loneUniversal.Alike loneUniversalElsewhere ∧
      loneUniversal.labels.size ≠ loneUniversalElsewhere.labels.size ∧
      (∀ step ∈ stepsAtGadget, step.Fair) ∧
      loneUniversal.Indistinct loneUniversalElsewhere stepsAtGadget := by
  have hlooks : loneUniversalElsewhere.Alike loneUniversal := by
    refine alike_afterAll loneUniversal ?_
    simp only [List.forall_mem_cons]
    exact ⟨.moveComponent _ _, .setVertexMuted _ _, .addLabel _ _ _ _ _, by simp⟩
  have hfair : ∀ step ∈ stepsAtGadget, step.Fair := by
    simp only [stepsAtGadget, List.forall_mem_cons]
    exact ⟨.first (.setEdgeMuted _ _), .both (.tryReverse _), .both (.removeVertex _),
      .both (.addVertex _ _ _ _), .second (.moveComponent _ _), .both (.reverseEdge _),
      .both .validate, by simp⟩
  exact ⟨hlooks.symm, by decide +kernel, hfair, hlooks.symm.indistinct hfair⟩

end Graph

end ConstraintLogic
