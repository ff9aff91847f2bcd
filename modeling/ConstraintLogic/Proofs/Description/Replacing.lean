import ConstraintLogic.Proofs.Description.Loading
import ConstraintLogic.Proofs.Dotted
import ConstraintLogic.Proofs.Record
/-!
# What a load replaces

A load is refused for the name of a group and for nothing else, before the graph has been cleared.
A load that is not refused makes the same of every graph, apart from the count of changes, which
goes on from where it was: no edit of a load looks at that count.
-/

namespace ConstraintLogic

/-! ## Graphs with more changes on record -/

namespace Graph

/-- The graph after some more changes, all of them before those on record. -/
def ahead (g : Graph) (n : Nat) : Graph :=
  { g with revision := n + g.revision }

@[simp] theorem vertices_ahead (g : Graph) (n : Nat) : (g.ahead n).vertices = g.vertices := rfl
@[simp] theorem edges_ahead (g : Graph) (n : Nat) : (g.ahead n).edges = g.edges := rfl
@[simp] theorem components_ahead (g : Graph) (n : Nat) :
    (g.ahead n).components = g.components := rfl
@[simp] theorem labels_ahead (g : Graph) (n : Nat) : (g.ahead n).labels = g.labels := rfl

theorem putEdge_ahead (g : Graph) (e : Edge) (n : Nat) :
    (g.ahead n).putEdge e = (g.putEdge e).ahead n := rfl

theorem putComponent_ahead (g : Graph) (c : Component) (n : Nat) :
    (g.ahead n).putComponent c = (g.putComponent c).ahead n := by
  simp only [putComponent_eq]
  rfl

theorem touch_ahead (g : Graph) (n : Nat) : (g.ahead n).touch = g.touch.ahead n := rfl

theorem cleared_eq_ahead (g : Graph) : g.cleared = (∅ : Graph).cleared.ahead g.revision := rfl

end Graph

namespace Edit

/-- The same answer or fault, and the graph after some more changes. -/
def resultAhead {α : Type} (n : Nat) :
    EStateM.Result Fault Graph α → EStateM.Result Fault Graph α
  | .ok a next => .ok a (next.ahead n)
  | .error fault next => .error fault (next.ahead n)

/-- The edit does the same however many changes are on record. -/
def Oblivious {α : Type} (act : Edit α) : Prop :=
  ∀ g n, act.run (g.ahead n) = resultAhead n (act.run g)

section Combinators

variable {α β ι : Type}

theorem oblivious_pure (a : α) : (pure a : Edit α).Oblivious :=
  fun _ _ => rfl

theorem oblivious_ofExcept (outcome : Except Fault α) : (ofExcept outcome : Edit α).Oblivious := by
  intro g n
  cases outcome <;> rfl

theorem Oblivious.bind {act : Edit α} {f : α → Edit β} (h : act.Oblivious)
    (hf : ∀ a, (f a).Oblivious) : (act >>= f).Oblivious := by
  intro g n
  rw [EStateM.run_bind, EStateM.run_bind, h]
  cases act.run g with
  | ok a next => exact hf a next n
  | error fault next => rfl

theorem Oblivious.discard {act : Edit α} (h : act.Oblivious) :
    (discard act : Edit Unit).Oblivious := by
  intro g n
  rw [run_discard, run_discard, h]
  cases act.run g <;> rfl

theorem Oblivious.forM {l : List ι} {f : ι → Edit Unit} (h : ∀ i, (f i).Oblivious) :
    (l.forM f).Oblivious := by
  rw [List.forM_eq_forM]
  induction l with
  | nil => exact oblivious_pure ()
  | cons i rest ih =>
    rw [List.forM_cons]
    exact (h i).bind fun _ => ih

end Combinators

/-! ## Single edits -/

open ConstraintLogic.Graph

theorem oblivious_addVertex (id : Ident) (position : Point) (visible : Bool) :
    (addVertex id position visible).Oblivious := by
  intro g n
  rw [run_addVertex, run_addVertex, vertices_ahead]
  split_ifs <;> rfl

theorem oblivious_setVertexMuted (id : Ident) (muted : Bool) :
    (setVertexMuted id muted).Oblivious := by
  intro g n
  rw [run_setVertexMuted, run_setVertexMuted, vertices_ahead]
  cases g.vertices[id]? <;> rfl

theorem oblivious_addEdge (id source target : Ident) (weight : Weight) :
    (addEdge id source target weight).Oblivious := by
  intro g n
  rw [run_addEdge, run_addEdge, vertices_ahead, edges_ahead, putEdge_ahead, touch_ahead]
  split_ifs <;> rfl

theorem oblivious_changeEdge (id : Ident) (f : Edge → Edge) : (changeEdge id f).Oblivious := by
  intro g n
  rw [run_changeEdge, run_changeEdge, edges_ahead]
  cases g.edges[id]? <;> rfl

theorem oblivious_addComponent (id : Ident) (position : Point) (blueprint : Blueprint) :
    (addComponent id position blueprint).Oblivious := by
  intro g n
  rw [run_addComponent, run_addComponent, components_ahead]
  split_ifs
  · rfl
  · rfl
  · cases Gadget.ofBlueprint blueprint with
    | error fault => rfl
    | ok gadget =>
      have hports : ((gadget.ports id).find? fun plan =>
          id.child plan.name ∈ (g.ahead n).vertices) =
            (gadget.ports id).find? fun plan => id.child plan.name ∈ g.vertices := rfl
      simp only [hports, putComponent_ahead, touch_ahead]
      cases (gadget.ports id).find? fun plan => id.child plan.name ∈ g.vertices <;> rfl

theorem oblivious_setComponentMuted (id : Ident) (muted : Bool) :
    (setComponentMuted id muted).Oblivious := by
  intro g n
  rw [run_setComponentMuted, run_setComponentMuted, components_ahead]
  cases g.components[id]? <;> rfl

theorem oblivious_addLabel (id : Ident) (position : Point) (text : String)
    (halign valign : Align) : (addLabel id position text halign valign).Oblivious := by
  intro g n
  rw [run_addLabel, run_addLabel, labels_ahead]
  split_ifs <;> rfl

theorem oblivious_place (scope : Ident) (offset : Point) (p : Part) :
    (p.place scope offset).Oblivious := by
  cases p with
  | vertex => exact (oblivious_addVertex _ _ _).discard
  | edge => exact (oblivious_addEdge _ _ _ _).discard
  | component => exact (oblivious_addComponent _ _ _).discard
  | label => exact (oblivious_addLabel _ _ _ _ _).discard

theorem oblivious_compileInto (scope : Ident) (offset : Point) (text : String) :
    (Circuit.compileInto scope offset text).Oblivious := by
  intro g n
  rw [Circuit.run_compileInto, Circuit.run_compileInto]
  cases Qbf.parse text with
  | error fault => rfl
  | ok q =>
    have hbuild : (Circuit.build scope offset q).Oblivious :=
      Oblivious.forM fun p => oblivious_place scope offset p
    simp only [hbuild g n]
    cases (Circuit.build scope offset q).run g <;> rfl

end Edit

/-! ## Entries and documents -/

namespace Description

open ConstraintLogic.Edit ConstraintLogic.Graph

theorem oblivious_loadVertex (s : Scope) (key : String) (args : List Argument) :
    (loadVertex s key args).Oblivious := by
  refine (oblivious_ofExcept _).bind fun id => (oblivious_ofExcept _).bind fun entry =>
    (oblivious_addVertex _ _ _).discard.bind fun _ => ?_
  split
  · exact oblivious_setVertexMuted _ _
  · exact oblivious_pure ()

theorem oblivious_applyFlag (id : Ident) (flag : Flag) : (applyFlag id flag).Oblivious := by
  cases flag with
  | muted | label | flip => exact (oblivious_changeEdge _ _).discard
  | hidden => exact oblivious_pure ()

/-- A reference is looked up among the vertices only. -/
theorem oblivious_loadEdge (s : Scope) (key : String) (args : List Argument) :
    (loadEdge s key args).Oblivious := by
  refine (oblivious_ofExcept _).bind fun id => (oblivious_ofExcept _).bind fun entry => ?_
  intro g n
  have hrest (source target : Ident) : (do
      discard (Edit.addEdge id source target (entry.weight?.getD .single))
      entry.flags.forM (applyFlag id) : Edit Unit).Oblivious :=
    (oblivious_addEdge _ _ _ _).discard.bind fun _ =>
      Oblivious.forM fun flag => oblivious_applyFlag id flag
  have hresolve (reference : String) :
      s.resolve (g.ahead n) reference = s.resolve g reference := rfl
  simp only [EStateM.run_bind (x := get), EStateM.run_get, hresolve]
  refine (oblivious_ofExcept _).bind (fun source => ?_) g n
  split
  · exact (oblivious_ofExcept _).bind fun target => hrest source target
  · exact (oblivious_pure _).bind fun target => hrest source target

theorem oblivious_loadComponent (s : Scope) (key : String) (args : List Argument) :
    (loadComponent s key args).Oblivious := by
  have hrest (made : List Ident) (entry : ComponentEntry) : Oblivious
      (if entry.muted then made.forM fun id => Edit.setComponentMuted id true else pure ()) := by
    split
    · exact Oblivious.forM fun id => oblivious_setComponentMuted id true
    · exact oblivious_pure ()
  refine (oblivious_ofExcept _).bind fun id => (oblivious_ofExcept _).bind fun entry => ?_
  dsimp only
  split
  · exact (oblivious_addComponent _ _ _).discard.bind fun _ =>
      (oblivious_pure _).bind fun made => hrest made entry
  · exact (oblivious_compileInto _ _ _).bind fun circuit =>
      (oblivious_pure _).bind fun made => hrest made entry

theorem oblivious_loadLabel (s : Scope) (key : String) (args : List Argument) :
    (loadLabel s key args).Oblivious :=
  (oblivious_ofExcept _).bind fun _ => (oblivious_ofExcept _).bind fun _ =>
    (oblivious_addLabel _ _ _ _ _).discard

theorem Entry.oblivious_load (e : Entry) : e.load.Oblivious := by
  refine (oblivious_ofExcept _).bind fun args => ?_
  cases e.kind with
  | vertex => exact oblivious_loadVertex _ _ _
  | edge => exact oblivious_loadEdge _ _ _
  | component => exact oblivious_loadComponent _ _ _
  | label => exact oblivious_loadLabel _ _ _

/-- The verdicts on entries do not depend on the count of changes. -/
theorem Loads.ahead {g last : Graph} {vs : List Verdict} (h : Loads g vs last) (n : Nat) :
    Loads (g.ahead n) vs (last.ahead n) := by
  induction h with
  | nil g => exact .nil _
  | accepted hrun _ ih => exact .accepted (by rw [Entry.oblivious_load, hrun]; rfl) ih
  | refused hrun _ ih => exact .refused (by rw [Entry.oblivious_load, hrun]; rfl) ih

/-- A document whose groups are well named is loaded into any graph as it is into the empty one,
and the count of changes goes on from that of the graph. -/
theorem exists_run_loadInto_ahead {d : Document} (h : d.wellNamed = true) :
    ∃ (report : Report) (fresh : Graph), ∀ g,
      (loadInto d).run g = .ok report (fresh.ahead g.revision) := by
  obtain ⟨vs, fresh, hvs, hloads⟩ := exists_loads d.entries (∅ : Graph).cleared
  refine ⟨⟨vs.filterMap Verdict.issue?⟩, fresh, fun g => ?_⟩
  have hahead : Loads g.cleared vs (fresh.ahead g.revision) := by
    rw [cleared_eq_ahead]
    exact hloads.ahead g.revision
  exact hahead.run_loadInto h hvs

/-! ## The names of groups -/

/-- A group of this name is in the document, at whatever depth. -/
inductive Document.HasGroup : Document → String → Prop
  | here {d inner : Document} {name : String} : (name, inner) ∈ d.groups → d.HasGroup name
  | deeper {d inner : Document} {own name : String} :
    (own, inner) ∈ d.groups → inner.HasGroup name → d.HasGroup name

theorem Document.hasGroup_iff {d : Document} {name : String} :
    d.HasGroup name ↔
      ∃ own inner, (own, inner) ∈ d.groups ∧ (own = name ∨ inner.HasGroup name) := by
  constructor
  · rintro (hmem | ⟨hmem, hinner⟩)
    · exact ⟨name, _, hmem, .inl rfl⟩
    · exact ⟨_, _, hmem, .inr hinner⟩
  · rintro ⟨own, inner, hmem, rfl | hinner⟩
    · exact .here hmem
    · exact .deeper hmem hinner

theorem groupsWellNamed_iff {groups : List (String × Document)} :
    groupsWellNamed groups = true ↔ ∀ name inner, (name, inner) ∈ groups →
      (Ident.parse name).isOk = true ∧ inner.wellNamed = true := by
  induction groups with
  | nil => simp [groupsWellNamed]
  | cons group rest ih =>
    obtain ⟨own, d⟩ := group
    simp only [groupsWellNamed, Bool.and_eq_true, ih, List.mem_cons, Prod.mk.injEq]
    constructor
    · rintro ⟨hfirst, hrest⟩ name inner (⟨rfl, rfl⟩ | hmem)
      · exact hfirst
      · exact hrest name inner hmem
    · exact fun h => ⟨h own d (.inl ⟨rfl, rfl⟩), fun name inner hmem => h name inner (.inr hmem)⟩

theorem Document.wellNamed_iff {d : Document} :
    d.wellNamed = true ↔ ∀ name inner, (name, inner) ∈ d.groups →
      (Ident.parse name).isOk = true ∧ inner.wellNamed = true := by
  obtain ⟨_, _, _, _, _, groups⟩ := d
  rw [wellNamed]
  exact groupsWellNamed_iff

theorem Document.HasGroup.isOk_parse {d : Document} {name : String} (h : d.HasGroup name)
    (hd : d.wellNamed = true) : (Ident.parse name).isOk = true := by
  induction h with
  | here hmem => exact (wellNamed_iff.1 hd _ _ hmem).1
  | deeper hmem _ ih => exact ih (wellNamed_iff.1 hd _ _ hmem).2

/-- A group whose name can be read comes before the groups after it. -/
theorem groupScopes_cons {own : String} {scope : Ident} (h : Ident.parse own = .ok scope)
    (id : Ident) (offset : Point) (d : Document) (rest : List (String × Document)) :
    groupScopes id offset ((own, d) :: rest) = (do
      let here ← Description.scopes (id.join scope) (offset + d.offset) d
      let others ← groupScopes id offset rest
      return here ++ others) := by
  rw [groupScopes, h]
  rfl

mutual

/-- If the groups of a document are not well named, its scopes cannot be listed, and this is for
the name of one of the groups. -/
theorem exists_scopes_eq_error (id : Ident) (offset : Point) :
    ∀ d : Document, d.wellNamed = false →
      ∃ fault, Description.scopes id offset d = .error fault ∧
        ∃ name, d.HasGroup name ∧ Ident.parse name = .error fault
  | ⟨_, _, _, _, _, groups⟩, h => by
    rw [Document.wellNamed] at h
    obtain ⟨fault, hscopes, own, inner, name, hmem, hname, hparse⟩ :=
      exists_groupScopes_eq_error id offset groups h
    refine ⟨fault, ?_, name, Document.hasGroup_iff.2 ⟨own, inner, hmem, hname⟩, hparse⟩
    rw [scopes, hscopes]
    rfl

theorem exists_groupScopes_eq_error (id : Ident) (offset : Point) :
    ∀ groups : List (String × Document), groupsWellNamed groups = false →
      ∃ fault, groupScopes id offset groups = .error fault ∧
        ∃ own inner name, (own, inner) ∈ groups ∧ (own = name ∨ inner.HasGroup name) ∧
          Ident.parse name = .error fault
  | [], h => by
    rw [groupsWellNamed] at h
    cases h
  | (own, d) :: rest, h => by
    cases hown : Ident.parse own with
    | error fault =>
      refine ⟨fault, ?_, own, d, own, List.mem_cons_self, .inl rfl, hown⟩
      rw [groupScopes, hown]
      rfl
    | ok scope =>
      cases hd : d.wellNamed with
      | false =>
        obtain ⟨fault, hscopes, name, hname, hparse⟩ :=
          exists_scopes_eq_error (id.join scope) (offset + d.offset) d hd
        refine ⟨fault, ?_, own, d, name, List.mem_cons_self, .inr hname, hparse⟩
        rw [groupScopes_cons hown, hscopes]
        rfl
      | true =>
        have hrest : groupsWellNamed rest = false := by
          simpa [groupsWellNamed, hown, hd, Except.isOk, Except.toBool] using h
        obtain ⟨fault, hscopes, own', inner, name, hmem, hname⟩ :=
          exists_groupScopes_eq_error id offset rest hrest
        refine ⟨fault, ?_, own', inner, name, List.mem_cons_of_mem _ hmem, hname⟩
        rw [groupScopes_cons hown, scopes_eq_ok _ _ d hd, hscopes]
        rfl

end

theorem exists_run_loadInto_error {d : Document} (h : d.wellNamed = false) :
    ∃ fault name, d.HasGroup name ∧ Ident.parse name = .error fault ∧
      ∀ g, (loadInto d).run g = .error fault g := by
  obtain ⟨fault, hscopes, name, hname, hparse⟩ := exists_scopes_eq_error .root d.offset d h
  refine ⟨fault, name, hname, hparse, fun g => ?_⟩
  have hall : d.scopes = .error fault := hscopes
  rw [loadInto, EStateM.run_bind, run_ofExcept, hall]

/-- A document with a group whose name cannot be read is refused, with the graph as it was, and no
other document is. What is loaded does not depend on what the graph was, apart from the count of
changes, which goes on from that of the graph. -/
theorem loadInto_replaces (d : Document) :
    (∀ g, (∃ fault next, (loadInto d).run g = .error fault next) ↔
      ∃ name, d.HasGroup name ∧ Text.HasEmptyPiece '.' name.toList) ∧
    (∀ g fault next, (loadInto d).run g = .error fault next →
      next = g ∧ ∃ name, d.HasGroup name ∧ Ident.parse name = .error fault) ∧
    ((∀ name, d.HasGroup name → ¬Text.HasEmptyPiece '.' name.toList) →
      ∃ (report : Report) (fresh : Graph), ∀ g, (loadInto d).run g =
        .ok report { fresh with revision := g.revision + fresh.revision }) := by
  simp only [← Ident.exists_parse_eq_error_iff]
  cases hd : d.wellNamed with
  | false =>
    obtain ⟨fault, name, hname, hparse, hrun⟩ := exists_run_loadInto_error hd
    refine ⟨fun g => ⟨fun _ => ⟨name, hname, fault, hparse⟩, fun _ => ⟨fault, g, hrun g⟩⟩, ?_, ?_⟩
    · intro g fault' next hrun'
      cases (hrun g).symm.trans hrun'
      exact ⟨rfl, name, hname, hparse⟩
    · exact fun hnames => absurd ⟨fault, hparse⟩ (hnames name hname)
  | true =>
    obtain ⟨report, fresh, hrun⟩ := exists_run_loadInto_ahead hd
    refine ⟨fun g => ⟨?_, ?_⟩, ?_, fun _ => ⟨report, fresh, hrun⟩⟩
    · rintro ⟨fault, next, hrun'⟩
      cases (hrun g).symm.trans hrun'
    · rintro ⟨name, hname, fault, hparse⟩
      have hok := hname.isOk_parse hd
      rw [hparse] at hok
      cases hok
    · intro g fault next hrun'
      cases (hrun g).symm.trans hrun'

end Description

end ConstraintLogic
