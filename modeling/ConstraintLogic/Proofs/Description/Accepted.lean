import ConstraintLogic.Proofs.Description.Address
import ConstraintLogic.Proofs.AllOrNothing
/-!
# What an entry makes

Loading an entry is refused with the graph as it was, at whatever step, or the graph gains what the
entry makes: an entity under the name of the entry, with the ports if it is a gadget, or all of a
circuit inside that name. This is told from the entry alone, and it lasts while the graph gains
more.
-/

namespace ConstraintLogic

open ConstraintLogic.Graph

namespace Description

/-! ## What entries say -/

/-- The vertex that an entry describes, still without edges. -/
def VertexEntry.vertex (entry : VertexEntry) (id : Ident) : Vertex :=
  { Vertex.isolated id entry.position (!entry.flags.contains .hidden) .plain with
    muted := entry.flags.contains .muted }

/-- What a flag makes of an edge. -/
def Flag.apply : Flag → Edge → Edge
  | .muted, e => { e with muted := true }
  | .label, e => { e with labelVisible := true }
  | .flip, e => e.reverse
  | .hidden, e => e

/-- The edge that an entry describes, once its ends are known. -/
def EdgeEntry.edge (entry : EdgeEntry) (id source target : Ident) : Edge :=
  entry.flags.foldl (fun e flag => flag.apply e)
    ⟨id, source, target, entry.weight?.getD .single, false, false⟩

def LabelEntry.label (entry : LabelEntry) (id : Ident) : Label :=
  ⟨id, entry.position, entry.text, entry.halign, entry.valign⟩

/-! ## What entries make -/

/-- Inside a scope, all of another graph is there: up to positions, what is muted, and edges that
vertices list besides. -/
structure HoldsAll (g : Graph) (scope : Ident) (alone : Graph) : Prop where
  vertex : ∀ (id : Ident) (v : Vertex), alone.vertices[id]? = some v → ∃ position,
    g.vertices[scope.join id]?.map Vertex.bare = some (v.within scope position).bare
  edge : ∀ (id : Ident) (e : Edge), alone.edges[id]? = some e →
    g.edges[scope.join id]? = some (e.within scope)
  component : ∀ (id : Ident) (c : Component), alone.components[id]? = some c →
    ∃ position muted, g.components[scope.join id]? =
      some { c.within scope position with muted := muted }
  label : ∀ (id : Ident) (l : Label), alone.labels[id]? = some l → ∃ position,
    g.labels[scope.join id]? = some (l.within scope position)

namespace Construction

/-- The name is one of those that come with the gadget or with the circuit. -/
def Makes (id : Ident) : Construction → EntityKind → Ident → Prop
  | .gadget blueprint, kind, x =>
    ∃ k, Gadget.ofBlueprint blueprint = .ok k ∧ OnlyGadget id k kind x
  | .circuit formula, kind, x =>
    ∃ alone, Circuit.compile formula = .ok alone ∧
      ∃ inner, alone.Has kind inner ∧ id.join inner = x

/-- The gadget is there with all its ports, or the whole circuit is. -/
def IsIn (id : Ident) (position : Point) (muted : Bool) (g : Graph) : Construction → Prop
  | .gadget blueprint =>
    ∃ k, Gadget.ofBlueprint blueprint = .ok k ∧
      g.components[id]? = some { Component.ofGadget id position k with muted := muted } ∧
      ∀ plan ∈ k.ports id,
        g.vertices[id.child plan.name]?.map Vertex.bare = some (plan.vertex id position)
  | .circuit formula => ∃ alone, Circuit.compile formula = .ok alone ∧ HoldsAll g id alone

end Construction

namespace Entry

/-- The name of the entry inside its scope. -/
def id (e : Entry) : Ident :=
  e.scope.join (.ofDotted e.key)

def args (e : Entry) : Except Fault (List Argument) :=
  Argument.list e.value

/-- The name is one of those that come with the entry. -/
def Makes (e : Entry) (kind : EntityKind) (x : Ident) : Prop :=
  match e.kind with
  | .component => ∃ entry, e.args >>= ComponentEntry.ofArguments e.offset = .ok entry ∧
    entry.construction.Makes e.id kind x
  | own => Only own e.id kind x

/-- The vertex is the one of this name in the scope of the entry or the one from the root. -/
def Refers (e : Entry) (reference : String) (x : Ident) : Prop :=
  x = e.scope.join (.ofDotted reference) ∨ x = .ofDotted reference

/-- What the entry describes is in the graph. -/
def IsIn (e : Entry) (g : Graph) : Prop :=
  match e.kind with
  | .vertex => ∃ entry, e.args >>= VertexEntry.ofArguments e.offset = .ok entry ∧
    g.vertices[e.id]?.map Vertex.bare = some (entry.vertex e.id)
  | .edge => ∃ entry source target, e.args >>= EdgeEntry.ofArguments = .ok entry ∧
    e.Refers entry.source source ∧ e.Refers (entry.target?.getD entry.source) target ∧
    g.edges[e.id]? = some (entry.edge e.id source target)
  | .component => ∃ entry, e.args >>= ComponentEntry.ofArguments e.offset = .ok entry ∧
    entry.construction.IsIn e.id entry.position entry.muted g
  | .label => ∃ entry, e.args >>= LabelEntry.ofArguments e.offset = .ok entry ∧
    g.labels[e.id]? = some (entry.label e.id)

end Entry

/-! ## Loading -/

def loader : EntryKind → EntryLoader
  | .vertex => loadVertex
  | .edge => loadEdge
  | .component => loadComponent
  | .label => loadLabel

namespace Entry

/-- The scope of the entry, as far as loaders look at it. -/
def site (e : Entry) : Scope :=
  ⟨e.scope, e.offset, .empty⟩

def load (e : Entry) : Edit Unit := do
  loader e.kind e.site e.key (← ofExcept e.args)

end Entry

section Loaders

variable {g : Graph} {s : Scope} {key : String} {id : Ident}

theorem Scope.entryId_eq_ok (h : s.entryId key = .ok id) : s.id.join (.ofDotted key) = id := by
  rw [Scope.entryId] at h
  cases hown : Ident.parse key with
  | error fault =>
    rw [hown] at h
    cases h
  | ok own =>
    rw [hown] at h
    rw [Ident.ofDotted_of_parse hown]
    exact Except.ok.inj h

theorem allOrNothing_loadVertex (args : List Argument) (hid : s.id.join (.ofDotted key) = id) :
    (loadVertex s key args).AllOrNothing g fun _ next =>
      ∃ entry, VertexEntry.ofArguments s.offset args = .ok entry ∧
        next.Adds g (Only .vertex id) ∧
        next.vertices[id]?.map Vertex.bare = some (entry.vertex id) := by
  refine Edit.allOrNothing_ofExcept_bind fun id' hid' => ?_
  obtain rfl : id = id' := hid.symm.trans (Scope.entryId_eq_ok hid')
  refine Edit.allOrNothing_ofExcept_bind fun entry hentry => ?_
  refine (Edit.allOrNothing_addVertex _ _ _).discard.bind fun _ next => ?_
  rintro ⟨-, hadds, hv⟩
  cases hmuted : entry.flags.contains Flag.muted with
  | false =>
    refine ⟨(), next, rfl, entry, hentry, hadds, ?_⟩
    rw [hv, Option.map_some, VertexEntry.vertex, hmuted]
    rfl
  | true =>
    obtain ⟨last, hrun, hadds, hv⟩ := Edit.exists_run_setVertexMuted hadds ⟨rfl, rfl⟩ hv true
    refine ⟨(), last, hrun, entry, hentry, hadds, ?_⟩
    rw [hv, Option.map_some, VertexEntry.vertex, hmuted]
    rfl

theorem exists_run_forM_applyFlag (flags : List Flag) {new : EntityKind → Ident → Prop}
    {next : Graph} (h : next.Adds g new) (hid : new .edge id) {e : Edge}
    (he : next.edges[id]? = some e) :
    ∃ last, (flags.forM (applyFlag id) : Edit Unit).run next = .ok () last ∧ last.Adds g new ∧
      last.edges[id]? = some (flags.foldl (fun e flag => flag.apply e) e) := by
  rw [List.forM_eq_forM]
  induction flags generalizing next e with
  | nil => exact ⟨next, rfl, h, he⟩
  | cons flag rest ih =>
    obtain ⟨mid, hrun, hmid, he'⟩ : ∃ mid, (applyFlag id flag).run next = .ok () mid ∧
        mid.Adds g new ∧ mid.edges[id]? = some (flag.apply e) := by
      have hchange (f : Edge → Edge) : ∃ mid,
          (discard (Edit.changeEdge id f) : Edit Unit).run next = .ok () mid ∧ mid.Adds g new ∧
            mid.edges[id]? = some (f e) := by
        obtain ⟨mid, hrun, hrest⟩ := Edit.exists_run_changeEdge h hid he f
        exact ⟨mid, by rw [Edit.run_discard, hrun], hrest⟩
      cases flag with
      | hidden => exact ⟨next, rfl, h, he⟩
      | muted | label | flip => exact hchange _
    obtain ⟨last, hrest, hlast⟩ := ih hmid he'
    exact ⟨last, by rw [List.forM_cons, EStateM.run_bind, hrun]; exact hrest, hlast⟩

theorem Scope.eq_of_resolve {reference : String} (h : s.resolve g reference = .ok id) :
    id = s.id.join (.ofDotted reference) ∨ id = .ofDotted reference := by
  rw [Scope.resolve] at h
  cases hread : Ident.parse reference with
  | error fault =>
    rw [hread] at h
    cases h
  | ok own =>
    rw [hread] at h
    rw [Ident.ofDotted_of_parse hread, ← Except.ok.inj h]
    exact ite_eq_or_eq _ _ _

theorem allOrNothing_loadEdge (args : List Argument) (hid : s.id.join (.ofDotted key) = id) :
    (loadEdge s key args).AllOrNothing g fun _ next =>
      ∃ entry source target, EdgeEntry.ofArguments args = .ok entry ∧
        s.resolve g entry.source = .ok source ∧
        s.resolve g (entry.target?.getD entry.source) = .ok target ∧
        next.Adds g (Only .edge id) ∧ next.edges[id]? = some (entry.edge id source target) := by
  refine Edit.allOrNothing_ofExcept_bind fun id' hid' => ?_
  obtain rfl : id = id' := hid.symm.trans (Scope.entryId_eq_ok hid')
  refine Edit.allOrNothing_ofExcept_bind fun entry hentry => ?_
  have hrest {source target : Ident} (hsource : s.resolve g entry.source = .ok source)
      (htarget : s.resolve g (entry.target?.getD entry.source) = .ok target) : (do
      discard (Edit.addEdge id source target (entry.weight?.getD .single))
      entry.flags.forM (applyFlag id) : Edit Unit).AllOrNothing g fun _ next =>
        ∃ entry source target, EdgeEntry.ofArguments args = .ok entry ∧
          s.resolve g entry.source = .ok source ∧
          s.resolve g (entry.target?.getD entry.source) = .ok target ∧
          next.Adds g (Only .edge id) ∧ next.edges[id]? = some (entry.edge id source target) := by
    refine (Edit.allOrNothing_addEdge _ _ _ _).discard.bind fun _ next => ?_
    rintro ⟨-, hadds, he⟩
    obtain ⟨last, hrun, hadds, he⟩ := exists_run_forM_applyFlag entry.flags hadds ⟨rfl, rfl⟩ he
    exact ⟨(), last, hrun, entry, source, target, hentry, hsource, htarget, hadds, he⟩
  refine Edit.allOrNothing_get_bind ?_
  refine Edit.allOrNothing_ofExcept_bind fun source hsource => ?_
  split
  · next reference hreference =>
    refine Edit.allOrNothing_ofExcept_bind fun target htarget => hrest hsource ?_
    rw [hreference, Option.getD_some, htarget]
  · next hnone =>
    exact hrest hsource (by rw [hnone, Option.getD_none, hsource])

theorem allOrNothing_loadComponent (args : List Argument) (hid : s.id.join (.ofDotted key) = id) :
    (loadComponent s key args).AllOrNothing g fun _ next =>
      ∃ entry, ComponentEntry.ofArguments s.offset args = .ok entry ∧
        next.Adds g (entry.construction.Makes id) ∧
        entry.construction.IsIn id entry.position entry.muted next := by
  refine Edit.allOrNothing_ofExcept_bind fun id' hid' => ?_
  obtain rfl : id = id' := hid.symm.trans (Scope.entryId_eq_ok hid')
  refine Edit.allOrNothing_ofExcept_bind fun entry hentry => ?_
  obtain ⟨position, construction, muted⟩ := entry
  cases construction with
  | gadget blueprint =>
    refine (Edit.allOrNothing_addComponent _ _ _).discard.bind fun _ next => ?_
    rintro ⟨-, k, hk, hadds, hc, hports⟩
    have hnew : next.Adds g (Construction.Makes id (.gadget blueprint)) :=
      hadds.congr fun kind x => by simp [Construction.Makes, hk]
    obtain ⟨last, hrun, hadds, hvertices, -, -, hcomponents⟩ :=
      Edit.exists_run_mute [id] hnew (by simp [Construction.Makes, hk, OnlyGadget]) muted
    refine ⟨(), last, hrun, _, hentry, hadds, k, hk, ?_, fun plan hplan => ?_⟩
    · rw [hcomponents, hc, Option.map_some, if_pos (List.mem_singleton_self _)]
      rfl
    · rw [hvertices, hports plan hplan]
      rfl
  | circuit formula =>
    refine (Circuit.allOrNothing_compileInto _ _ _).bind fun circuit next => ?_
    rintro ⟨alone, halone, hroom, hjoins, hmade⟩
    have hnew : next.Adds g (Construction.Makes id (.circuit formula)) :=
      (hjoins.adds hroom).congr fun kind x => by simp [Construction.Makes, halone]
    obtain ⟨last, hrun, hadds, hvertices, hedges, hlabels, hcomponents⟩ :=
      Edit.exists_run_mute (circuit.quantifiers ++ [circuit.formula]) hnew
        (fun x hx => ⟨alone, halone, hmade x hx⟩) muted
    refine ⟨(), last, hrun, _, hentry, hadds, alone, halone, ?_⟩
    refine ⟨fun inner v hv => ?_, fun inner e he => ?_, fun inner c hc => ?_, fun inner l hl => ?_⟩
    · obtain ⟨_, hcopy, position, rfl⟩ := hjoins.vertices.added inner v hv
      exact ⟨position, by rw [hvertices, hcopy, Option.map_some]⟩
    · obtain ⟨_, hcopy, rfl⟩ := hjoins.edges.added inner e he
      rw [hedges, hcopy]
    · obtain ⟨_, hcopy, position, rfl⟩ := hjoins.components.added inner c hc
      rw [hcomponents, hcopy, Option.map_some]
      split
      · exact ⟨position, _, rfl⟩
      · exact ⟨position, c.muted, rfl⟩
    · obtain ⟨_, hcopy, position, rfl⟩ := hjoins.labels.added inner l hl
      exact ⟨position, by rw [hlabels, hcopy]⟩

theorem allOrNothing_loadLabel (args : List Argument) (hid : s.id.join (.ofDotted key) = id) :
    (loadLabel s key args).AllOrNothing g fun _ next =>
      ∃ entry, LabelEntry.ofArguments s.offset args = .ok entry ∧
        next.Adds g (Only .label id) ∧ next.labels[id]? = some (entry.label id) := by
  refine Edit.allOrNothing_ofExcept_bind fun id' hid' => ?_
  obtain rfl : id = id' := hid.symm.trans (Scope.entryId_eq_ok hid')
  refine Edit.allOrNothing_ofExcept_bind fun entry hentry => ?_
  refine (Edit.allOrNothing_addLabel _ _ _ _ _).discard.mono fun _ next => ?_
  rintro ⟨-, hadds, hl⟩
  exact ⟨entry, hentry, hadds, hl⟩

end Loaders

namespace Entry

/-- An entry is refused with the graph as it was, or the graph gains what the entry makes. -/
theorem allOrNothing_load (e : Entry) (g : Graph) :
    e.load.AllOrNothing g fun _ next => next.Adds g e.Makes ∧ e.IsIn next := by
  refine Edit.allOrNothing_ofExcept_bind fun args hargs => ?_
  obtain ⟨kind, scope, offset, key, value⟩ := e
  cases kind with
  | vertex =>
    refine (allOrNothing_loadVertex args rfl).mono fun _ next => ?_
    rintro ⟨entry, hentry, hadds, hv⟩
    exact ⟨hadds, entry, by rw [hargs]; exact hentry, hv⟩
  | edge =>
    refine (allOrNothing_loadEdge args rfl).mono fun _ next => ?_
    rintro ⟨entry, source, target, hentry, hsource, htarget, hadds, he⟩
    exact ⟨hadds, entry, source, target, by rw [hargs]; exact hentry, Scope.eq_of_resolve hsource,
      Scope.eq_of_resolve htarget, he⟩
  | component =>
    refine (allOrNothing_loadComponent args rfl).mono fun _ next => ?_
    rintro ⟨entry, hentry, hadds, hin⟩
    have hread : (Entry.args ⟨.component, scope, offset, key, value⟩ >>=
        ComponentEntry.ofArguments offset) = .ok entry := by
      rw [hargs]
      exact hentry
    refine ⟨hadds.congr fun kind x => ⟨fun h => ⟨entry, hread, h⟩, ?_⟩, entry, hread, hin⟩
    rintro ⟨entry', hentry', h⟩
    obtain rfl := Except.ok.inj (hread.symm.trans hentry')
    exact h
  | label =>
    refine (allOrNothing_loadLabel args rfl).mono fun _ next => ?_
    rintro ⟨entry, hentry, hadds, hl⟩
    exact ⟨hadds, entry, by rw [hargs]; exact hentry, hl⟩

end Entry

/-! ## Keeping what was made -/

section Kept

variable {g next : Graph} {new : EntityKind → Ident → Prop}

theorem HoldsAll.mono {scope : Ident} {alone : Graph} (h : HoldsAll g scope alone)
    (hadds : next.Adds g new) : HoldsAll next scope alone where
  vertex id v hv := (h.vertex id v hv).imp fun _ => hadds.bare_vertex
  edge id e he := hadds.edge (h.edge id e he)
  component id c hc := (h.component id c hc).imp fun _ => Exists.imp fun _ => hadds.component
  label id l hl := (h.label id l hl).imp fun _ => hadds.label

theorem Construction.IsIn.mono {c : Construction} {id : Ident} {position : Point} {muted : Bool}
    (h : c.IsIn id position muted g) (hadds : next.Adds g new) : c.IsIn id position muted next := by
  cases c with
  | gadget blueprint =>
    obtain ⟨k, hk, hc, hports⟩ := h
    exact ⟨k, hk, hadds.component hc, fun plan hplan => hadds.bare_vertex (hports plan hplan)⟩
  | circuit formula =>
    obtain ⟨alone, halone, hall⟩ := h
    exact ⟨alone, halone, hall.mono hadds⟩

/-- What an entry has made lasts while the graph gains more. -/
theorem Entry.IsIn.mono {e : Entry} (h : e.IsIn g) (hadds : next.Adds g new) : e.IsIn next := by
  obtain ⟨kind, scope, offset, key, value⟩ := e
  cases kind with
  | vertex =>
    obtain ⟨entry, hentry, hv⟩ := h
    exact ⟨entry, hentry, hadds.bare_vertex hv⟩
  | edge =>
    obtain ⟨entry, source, target, hentry, hsource, htarget, he⟩ := h
    exact ⟨entry, source, target, hentry, hsource, htarget, hadds.edge he⟩
  | component =>
    obtain ⟨entry, hentry, hin⟩ := h
    exact ⟨entry, hentry, hin.mono hadds⟩
  | label =>
    obtain ⟨entry, hentry, hl⟩ := h
    exact ⟨entry, hentry, hadds.label hl⟩

/-- The ports of a component that a construction brings are there. -/
theorem Construction.IsIn.ports {c : Construction} {id : Ident} {position : Point} {muted : Bool}
    (h : c.IsIn id position muted g) {x : Ident} (hx : c.Makes id .component x) :
    ∃ made, g.components[x]? = some made ∧ ∀ (name : String) (port : Ident),
      made.ports[name]? = some port → ∃ v, g.vertices[port]? = some v ∧ v.gate.owner? = some x := by
  have howner {port : Ident} {v : Vertex} (hv : g.vertices[port]?.map Vertex.bare = some v)
      (hgate : v.gate.owner? = some x) : ∃ v, g.vertices[port]? = some v ∧
        v.gate.owner? = some x := by
    obtain ⟨u, hu, rfl⟩ := Option.map_eq_some_iff.1 hv
    exact ⟨u, hu, hgate⟩
  cases c with
  | gadget blueprint =>
    obtain ⟨k, hk, hc, hports⟩ := h
    obtain ⟨k', hk', rfl⟩ := hx
    obtain rfl := Except.ok.inj (hk.symm.trans hk')
    refine ⟨_, hc, fun name port hport => ?_⟩
    have hname : (Component.ofGadget x position k).ports[name]? = some port := hport
    rw [Component.getElem?_ports_ofGadget] at hname
    split_ifs at hname with hmem
    obtain ⟨plan, hplan, rfl⟩ := List.mem_map.1 hmem
    obtain rfl := Option.some.inj hname
    exact howner (hports plan hplan) (Gadget.gate_of_mem_ports hplan).1
  | circuit formula =>
    obtain ⟨alone, halone, hall⟩ := h
    obtain ⟨alone', halone', inner, hinner, rfl⟩ := hx
    obtain rfl := Except.ok.inj (halone.symm.trans halone')
    obtain ⟨c, hc⟩ := Registry.mem_iff_exists.1 hinner
    obtain ⟨position', muted', hcopy⟩ := hall.component inner c hc
    refine ⟨_, hcopy, fun name port hport => ?_⟩
    have hname : (c.within id position').ports[name]? = some port := hport
    rw [Component.getElem?_ports_within, Option.map_eq_some_iff] at hname
    obtain ⟨port, hinside, rfl⟩ := hname
    obtain ⟨v, hv, hgate⟩ := Circuit.portsKept_of_compile halone inner c hc name port hinside
    obtain ⟨position'', hv'⟩ := hall.vertex port v hv
    refine howner hv' ?_
    rw [Vertex.bare, Vertex.within, Gate.owner?_within, hgate, Option.map_some]

/-- No port is missing from a graph that gains what an entry makes. -/
theorem Entry.portsKept_of_adds {e : Entry} (h : g.PortsKept) (hadds : next.Adds g e.Makes)
    (hin : e.IsIn next) : next.PortsKept := by
  intro id c hc name port hport
  rcases (hadds.components.mem id).1 (Registry.mem_of_getElem? hc) with hold | hnew
  · obtain ⟨c', hc'⟩ := Registry.mem_iff_exists.1 hold
    obtain rfl := Option.some.inj (hc.symm.trans (hadds.component hc'))
    obtain ⟨v, hv, howner⟩ := h id c hc' name port hport
    obtain ⟨v', hv', hsame⟩ := hadds.vertices.kept port v hv
    have hgate : v'.gate = v.gate := congrArg (fun v => v.gate) hsame
    exact ⟨v', hv', by rw [hgate, howner]⟩
  · obtain ⟨kind, scope, offset, key, value⟩ := e
    cases kind with
    | vertex | edge | label => exact absurd hnew.1 nofun
    | component =>
      obtain ⟨entry, hentry, hmakes⟩ := hnew
      obtain ⟨entry', hentry', hin⟩ := hin
      obtain rfl := Except.ok.inj (hentry.symm.trans hentry')
      obtain ⟨made, hmade, hports⟩ := hin.ports hmakes
      obtain rfl := Option.some.inj (hc.symm.trans hmade)
      exact hports name port hport

end Kept

end Description

end ConstraintLogic
