import ConstraintLogic.Proofs.Visits
import ConstraintLogic.Proofs.Circuit.Inside
/-!
# What goes on record

A call that is refused leaves the graph as it was, and so does an attempt at a move that is not
legal. Every other call is one change on record, however many entities it reaches; what a
validation does is a change only if it reports a latch. That nothing is left half done depends on
the lists of edges: where they are exact, nothing that a removal looks for is missing.
-/

namespace ConstraintLogic

open ConstraintLogic.Graph

namespace Edit

variable {α β ι : Type} {g next : Graph}

/-- A refusal leaves the graph as it was, and an answer that counts comes with one change on
record. Other answers change nothing. -/
def Accounts (act : Edit α) (g : Graph) (counts : α → Prop) : Prop :=
  match act.run g with
  | .ok a next =>
    (counts a → next.revision = g.revision + 1 ∧ next.changed = true) ∧ (¬counts a → next = g)
  | .error _ next => next = g

/-- A refusal leaves the graph as it was. -/
def Atomic (act : Edit α) (g : Graph) : Prop :=
  ∀ fault next, act.run g = .error fault next → next = g

theorem accounts_of_ok {act : Edit α} {a : α} {counts : α → Prop}
    (hrun : act.run g = .ok a next.touch) (hrevision : next.revision = g.revision)
    (hcounts : counts a) : act.Accounts g counts := by
  rw [Accounts, hrun]
  refine ⟨fun _ => ⟨?_, rfl⟩, fun hnot => absurd hcounts hnot⟩
  rw [touch, hrevision]

theorem accounts_of_error {act : Edit α} {fault : Fault} {counts : α → Prop}
    (hrun : act.run g = .error fault g) : act.Accounts g counts := by
  rw [Accounts, hrun]

theorem Accounts.discard {act : Edit α} (h : act.Accounts g fun _ => True) :
    (discard act : Edit Unit).Accounts g fun _ => True := by
  rw [Accounts] at h
  rw [Accounts, run_discard]
  cases hrun : act.run g <;> rw [hrun] at h <;> exact h

/-! ## Single calls -/

theorem accounts_addVertex (id : Ident) (position : Point) (visible : Bool) :
    (addVertex id position visible).Accounts g fun _ => True := by
  have hrun := run_addVertex id position visible g
  split_ifs at hrun
  · exact accounts_of_error hrun
  · exact accounts_of_error hrun
  · exact accounts_of_ok hrun rfl trivial

theorem accounts_setVertexMuted (id : Ident) (muted : Bool) :
    (setVertexMuted id muted).Accounts g fun _ => True := by
  have hrun := run_setVertexMuted id muted g
  split at hrun
  · exact accounts_of_ok hrun rfl trivial
  · exact accounts_of_error hrun

theorem accounts_removeVertex (h : g.Linked) (id : Ident) :
    (removeVertex id).Accounts g fun _ => True := by
  have hrun := run_removeVertex h id
  split at hrun
  · exact accounts_of_ok hrun rfl trivial
  · exact accounts_of_error hrun

theorem accounts_addEdge (id source target : Ident) (weight : Weight) :
    (addEdge id source target weight).Accounts g fun _ => True := by
  have hrun := run_addEdge id source target weight g
  split_ifs at hrun
  · exact accounts_of_error hrun
  · exact accounts_of_error hrun
  · exact accounts_of_ok hrun rfl trivial
  · exact accounts_of_error hrun
  · exact accounts_of_error hrun

theorem accounts_changeEdge (id : Ident) (f : Edge → Edge) :
    (changeEdge id f).Accounts g fun _ => True := by
  have hrun := run_changeEdge id f g
  split at hrun
  · exact accounts_of_ok hrun rfl trivial
  · exact accounts_of_error hrun

theorem accounts_removeEdge (h : g.Linked) (id : Ident) :
    (removeEdge id).Accounts g fun _ => True := by
  have hrun := run_removeEdge h id
  split at hrun
  · exact accounts_of_ok hrun rfl trivial
  · exact accounts_of_error hrun

/-- An attempt that is answered with no leaves everything as it was. -/
theorem accounts_tryReverse (id : Ident) : (tryReverse id).Accounts g (· = true) := by
  rw [Accounts, run_tryReverse]
  by_cases hid : id ∈ g.edges
  · rw [if_pos hid]
    cases hm : g.moved? id with
    | none => exact ⟨nofun, fun _ => attempt_of_moved?_eq_none hm⟩
    | some next =>
      rw [attempt_of_moved?_eq_some hm]
      exact ⟨fun _ => record_of_moved? hm, fun hnot => absurd rfl hnot⟩
  · rw [if_neg hid]

theorem accounts_addComponent (id : Ident) (position : Point) (blueprint : Blueprint) :
    (addComponent id position blueprint).Accounts g fun _ => True := by
  have hrun := run_addComponent id position blueprint g
  split_ifs at hrun
  · exact accounts_of_error hrun
  · exact accounts_of_error hrun
  · split at hrun
    · exact accounts_of_error hrun
    · split at hrun
      · exact accounts_of_error hrun
      · exact accounts_of_ok hrun (by rw [putComponent_eq]) trivial

theorem accounts_setComponentMuted (id : Ident) (muted : Bool) :
    (setComponentMuted id muted).Accounts g fun _ => True := by
  have hrun := run_setComponentMuted id muted g
  split at hrun
  · exact accounts_of_ok hrun rfl trivial
  · exact accounts_of_error hrun

theorem revision_foldl_changeVertex {f : Vertex → Vertex} (key : ι → Ident) (l : List ι)
    (g : Graph) : (l.foldl (fun g i => g.changeVertex (key i) f) g).revision = g.revision := by
  induction l generalizing g with
  | nil => rfl
  | cons i rest ih => exact ih (g.changeVertex (key i) f)

theorem accounts_moveComponent (id : Ident) (position : Point) :
    (moveComponent id position).Accounts g fun _ => True := by
  have hrun := run_moveComponent id position g
  split at hrun
  · exact accounts_of_ok hrun (revision_foldl_changeVertex Prod.snd _ _) trivial
  · exact accounts_of_error hrun

theorem accounts_removeComponent (h : g.Linked) (id : Ident) :
    (removeComponent id).Accounts g fun _ => True := by
  have hrun := run_removeComponent h id
  split at hrun
  · exact accounts_of_ok hrun rfl trivial
  · exact accounts_of_error hrun

theorem accounts_addLabel (id : Ident) (position : Point) (text : String) (halign valign : Align) :
    (addLabel id position text halign valign).Accounts g fun _ => True := by
  have hrun := run_addLabel id position text halign valign g
  split_ifs at hrun
  · exact accounts_of_error hrun
  · exact accounts_of_error hrun
  · exact accounts_of_ok hrun rfl trivial

theorem accounts_removeLabel (id : Ident) :
    (removeLabel id).Accounts g fun _ => True := by
  have hrun := run_removeLabel id g
  split at hrun
  · exact accounts_of_ok hrun rfl trivial
  · exact accounts_of_error hrun

theorem accounts_clear : clear.Accounts g fun _ => True :=
  ⟨fun _ => ⟨rfl, rfl⟩, fun hnot => absurd trivial hnot⟩

/-- A pass that reports no latch has found every latch as it is asked to be. -/
theorem accounts_commit (p : Pass) : (commit p).Accounts g (·.latchChanges ≠ []) := by
  have hrun : (commit p).run g = .ok (p.outcome g)
      (if (p.outcome g).latchChanges.isEmpty then p.settle g else (p.settle g).touch) := rfl
  by_cases hchanges : (p.outcome g).latchChanges = []
  · rw [Accounts, hrun, hchanges]
    have hsame := Pass.settle_eq_of_latchOf? (Pass.latchChanges_eq_nil_iff.1 hchanges)
    exact ⟨fun hnot => absurd hchanges hnot, fun _ => hsame⟩
  · rw [if_neg (by simpa using hchanges)] at hrun
    exact accounts_of_ok hrun rfl hchanges

theorem accounts_validate : validate.Accounts g (·.latchChanges ≠ []) := by
  -- rewritten and not left to unification, which would settle the latches of both graphs
  have hrun : validate.run g = (commit g.fullPass).run g := by
    rw [validate, commit, EStateM.run_modifyGet, EStateM.run_modifyGet, Graph.validate]
  rw [Accounts, hrun]
  exact accounts_commit g.fullPass

/-! ## Moves made in place -/

/-- Turns an edge round without putting it on record. -/
def turn (id : Ident) : Edit Unit := do
  let e ← ofExcept ((← get).edge id)
  modify fun g => { g with edges := g.edges.insert id e.reverse }

/-- Turns the edge first and looks at its ends only then; an illegal move is taken back. -/
def tryInPlace (id : Ident) : Edit Bool := do
  let e ← ofExcept ((← get).edge id)
  if e.circular then return false
  turn id
  let turned ← ofExcept ((← get).edge id)
  if (← get).isEdgeSatisfied turned then
    modify Graph.settled
    record
    return true
  else
    turn id
    return false

theorem run_turn {id : Ident} {e : Edge} (he : g.edges[id]? = some e) :
    (turn id).run g = .ok () { g with edges := g.edges.insert id e.reverse } := by
  simp only [turn, EStateM.run_bind, EStateM.run_get, run_ofExcept, Graph.edge, Graph.find, he]
  rfl

/-- Turned twice, an edge is as it was. -/
theorem run_turn_turned {id : Ident} {e : Edge} (he : g.edges[id]? = some e) :
    (turn id).run { g with edges := g.edges.insert id e.reverse } = .ok () g := by
  have hback : (g.edges.insert id e.reverse).insert id e = g.edges := by
    apply Std.ExtTreeMap.ext_getElem?
    intro key
    simp only [Std.ExtTreeMap.getElem?_insert, Registry.compare_eq_iff]
    split_ifs with hkey
    · rw [← hkey, he]
    · rfl
  rw [run_turn Std.ExtTreeMap.getElem?_insert_self]
  simp only [Edge.reverse_reverse, hback]

/-- To take an illegal move back is as good as not to make it. -/
theorem run_tryInPlace (h : g.Linked) (id : Ident) :
    (tryInPlace id).run g = (tryReverse id).run g := by
  cases he : g.edges[id]? with
  | none =>
    simp only [tryInPlace, tryReverse, EStateM.run_bind, EStateM.run_get, run_ofExcept, Graph.edge,
      Graph.find, he]
  | some e =>
    -- the edge stands under its own name, so to turn it in place is to flip it
    obtain rfl : e.id = id := (h.edges id e he).1
    have hturned : (g.flip e).edges[e.id]? = some e.reverse := Std.ExtTreeMap.getElem?_insert_self
    have hturn : (turn e.id).run g = .ok () (g.flip e) := run_turn he
    have hback : (turn e.id).run (g.flip e) = .ok () g := run_turn_turned he
    simp only [tryInPlace, tryReverse, EStateM.run_bind, EStateM.run_get, run_ofExcept, Graph.edge,
      Graph.find, he, Graph.move?]
    cases hcircular : e.circular with
    | true => rfl
    | false =>
      simp only [Bool.false_eq_true, if_false, EStateM.run_bind, hturn, EStateM.run_get,
        run_ofExcept, hturned]
      cases hends : (g.flip e).isEdgeSatisfied e.reverse with
      | true => rfl
      | false =>
        simp only [Bool.false_eq_true, if_false, EStateM.run_bind, hback]

/-! ## Circuits and documents -/

/-- The edit is never refused. -/
def Total (act : Edit α) : Prop :=
  ∀ g, ∃ a next, act.run g = .ok a next

theorem Total.bind {act : Edit α} {f : α → Edit β} (h : act.Total) (hf : ∀ a, (f a).Total) :
    (act >>= f).Total := by
  intro g
  obtain ⟨a, mid, hrun⟩ := h g
  obtain ⟨b, next, hrest⟩ := hf a mid
  exact ⟨b, next, by rw [EStateM.run_bind, hrun]; exact hrest⟩

theorem total_pure (a : α) : (pure a : Edit α).Total :=
  fun g => ⟨a, g, rfl⟩

theorem Total.mapM {l : List ι} {f : ι → Edit α} (h : ∀ i, (f i).Total) : (l.mapM f).Total := by
  induction l with
  | nil => exact total_pure []
  | cons i rest ih =>
    rw [List.mapM_cons]
    exact (h i).bind fun _ => ih.bind fun _ => total_pure _

theorem atomic_compileInto (scope : Ident) (offset : Point) (text : String) :
    (Circuit.compileInto scope offset text).Atomic g := by
  intro fault next hrun
  rw [Circuit.run_compileInto] at hrun
  split at hrun
  · cases hrun
    rfl
  · split at hrun <;> cases hrun
    rfl

end Edit

namespace Description

open Edit

/-- What is wrong with an entry is reported. -/
theorem total_loadSection (kind : EntryKind) (load : EntryLoader) (s : Scope)
    (entries : Section Yaml.Value) : (loadSection kind load s entries).Total := by
  have hentry (entry : String × Yaml.Value) : (loadEntry kind load s entry).Total := by
    intro g
    rw [run_loadEntry]
    split <;> exact ⟨_, _, rfl⟩
  exact (Total.mapM hentry).bind fun _ => total_pure _

theorem total_loadPlaces (s : Scope) : (loadPlaces s).Total :=
  (total_loadSection _ _ s _).bind fun _ => (total_loadSection _ _ s _).bind fun _ => total_pure _

/-- A document is refused before anything of the graph is given up, or not at all. -/
theorem atomic_loadInto {g : Graph} (d : Document) : (loadInto d).Atomic g := by
  intro fault next hrun
  rw [loadInto, EStateM.run_bind, run_ofExcept] at hrun
  cases hscopes : d.scopes with
  | error fault =>
    rw [hscopes] at hrun
    cases hrun
    rfl
  | ok all =>
    have hclear : Edit.clear.Total := fun g => ⟨_, _, rfl⟩
    obtain ⟨report, loaded, hok⟩ :=
      (hclear.bind fun _ => (Total.mapM total_loadPlaces).bind fun places =>
        (Total.mapM fun s => total_loadSection _ loadEdge s _).bind fun edges =>
          (Total.mapM fun s => total_loadSection _ loadLabel s _).bind fun labels =>
            total_pure (⟨(places ++ edges ++ labels).flatten⟩ : Report)) g
    rw [hscopes] at hrun
    cases hok.symm.trans hrun

end Description

/-! ## All changes -/

/-- The change is refused with the graph as it was, or it is one change on record. Only what moves
latches may be none, and circuits and documents may be many. -/
def Change.Accounted (g : Graph) : Change → Prop
  | .tryReverse id => (Edit.tryReverse id).Accounts g (· = true)
  | .takeChanged => Edit.takeChanged.run g = .ok g.changed { g with changed := false }
  | .validate => Edit.validate.Accounts g (·.latchChanges ≠ [])
  | .commit p => (Edit.commit p).Accounts g (·.latchChanges ≠ [])
  | .compileInto scope offset text => (Circuit.compileInto scope offset text).Atomic g
  | .loadInto d => (Description.loadInto d).Atomic g
  | c => c.edit.Accounts g fun _ => True

variable {g : Graph}

theorem Graph.Linked.accounted_change (h : g.Linked) (c : Change) : c.Accounted g := by
  cases c with
  | addVertex => exact (Edit.accounts_addVertex _ _ _).discard
  | setVertexMuted => exact Edit.accounts_setVertexMuted _ _
  | removeVertex => exact (Edit.accounts_removeVertex h _).discard
  | addEdge => exact (Edit.accounts_addEdge _ _ _ _).discard
  | setEdgeMuted => exact (Edit.accounts_changeEdge _ _).discard
  | setEdgeLabelVisible => exact (Edit.accounts_changeEdge _ _).discard
  | removeEdge => exact (Edit.accounts_removeEdge h _).discard
  | reverseEdge => exact (Edit.accounts_changeEdge _ _).discard
  | tryReverse => exact Edit.accounts_tryReverse _
  | addComponent => exact (Edit.accounts_addComponent _ _ _).discard
  | setComponentMuted => exact Edit.accounts_setComponentMuted _ _
  | moveComponent => exact Edit.accounts_moveComponent _ _
  | removeComponent => exact (Edit.accounts_removeComponent h _).discard
  | addLabel => exact (Edit.accounts_addLabel _ _ _ _ _).discard
  | removeLabel => exact (Edit.accounts_removeLabel _).discard
  | clear => exact Edit.accounts_clear
  | takeChanged => rfl
  | validate => exact Edit.accounts_validate
  | commit p => exact Edit.accounts_commit p
  | compileInto => exact Edit.atomic_compileInto _ _ _
  | loadInto d => exact Description.atomic_loadInto d

namespace Graph

theorem Linked.exists_run_removeVertex_iff (h : g.Linked) {id : Ident} :
    (∃ v next, (Edit.removeVertex id).run g = .ok v next) ↔ id ∈ g.vertices := by
  rw [Edit.run_removeVertex h, Registry.mem_iff_exists]
  cases g.vertices[id]? <;> simp

theorem Linked.exists_run_removeComponent_iff (h : g.Linked) {id : Ident} :
    (∃ c next, (Edit.removeComponent id).run g = .ok c next) ↔ id ∈ g.components := by
  rw [Edit.run_removeComponent h, Registry.mem_iff_exists]
  cases g.components[id]? <;> simp

/-- Whatever was done to a graph since it was empty, every change is accounted for. A removal that
has found what it is to remove is not refused any more, and to make a move and take it back if it
is illegal comes to the same as to ask first. -/
theorem Reachable.accounted (h : g.Reachable) :
    (∀ c : Change, c.Accounted g) ∧
      (∀ id, (∃ v next, (Edit.removeVertex id).run g = .ok v next) ↔ id ∈ g.vertices) ∧
      (∀ id, (∃ c next, (Edit.removeComponent id).run g = .ok c next) ↔ id ∈ g.components) ∧
      ∀ id, (Edit.tryInPlace id).run g = (Edit.tryReverse id).run g := by
  have hlinked := h.consistent.toLinked
  exact ⟨hlinked.accounted_change, fun _ => hlinked.exists_run_removeVertex_iff,
    fun _ => hlinked.exists_run_removeComponent_iff, Edit.run_tryInPlace hlinked⟩

/-- The lone gadget goes with its ports and all edges at them, and this is one change. -/
theorem accounted_loneUniversal :
    loneUniversal.Reachable ∧ (⟨["gadget"]⟩ : Ident) ∈ loneUniversal.components ∧
      ∃ c next, (Edit.removeComponent ⟨["gadget"]⟩).run loneUniversal = .ok c next ∧
        next.revision = loneUniversal.revision + 1 ∧ next.changed = true := by
  have hreach : loneUniversal.Reachable := ⟨_, rfl⟩
  have hmem : (⟨["gadget"]⟩ : Ident) ∈ loneUniversal.components := by decide +kernel
  obtain ⟨hchanges, -, hcomponents, -⟩ := hreach.accounted
  obtain ⟨c, next, hrun⟩ := (hcomponents _).2 hmem
  have hrecord : (discard (Edit.removeComponent ⟨["gadget"]⟩) : Edit Unit).Accounts loneUniversal
      fun _ => True := hchanges (.removeComponent ⟨["gadget"]⟩)
  rw [Edit.Accounts, Edit.run_discard, hrun] at hrecord
  exact ⟨hreach, hmem, c, next, hrun, hrecord.1 trivial⟩

end Graph

end ConstraintLogic
