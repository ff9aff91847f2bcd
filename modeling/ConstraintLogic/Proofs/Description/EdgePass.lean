import ConstraintLogic.Proofs.Description.Account
import ConstraintLogic.Proofs.Description.EdgeGrammar
/-!
# The edges of a document

The edges of a document are loaded when all vertices are there and before there is anything else.
Whether an entry is accepted depends on what it says, on the vertices and on the names that are
taken: by an edge of a circuit, or by an earlier entry that was accepted. The edge that comes of it
is the one that the entry describes.
-/

namespace ConstraintLogic

open ConstraintLogic.Graph

namespace Edit

theorem run_ofExcept_bind_eq_ok_iff {α β : Type} {outcome : Except Fault α} {f : α → Edit β}
    {g next : Graph} {b : β} : (ofExcept outcome >>= f : Edit β).run g = .ok b next ↔
      ∃ a, outcome = .ok a ∧ (f a).run g = .ok b next := by
  cases outcome with
  | error fault =>
    rw [EStateM.run_bind, run_ofExcept]
    simp
  | ok a =>
    rw [EStateM.run_bind, run_ofExcept]
    simp

/-- An edge is added if its name can be taken and its ends are there. -/
theorem exists_run_addEdge_iff {id source target : Ident} (weight : Weight) {g : Graph} :
    (∃ e next, (addEdge id source target weight).run g = .ok e next) ↔
      id.isRoot = false ∧ id ∉ g.edges ∧ source ∈ g.vertices ∧ target ∈ g.vertices := by
  rw [run_addEdge]
  split_ifs with hroot hmem hsource htarget <;> simp_all

end Edit

namespace Description

/-- The reference, read inside a scope, is to this vertex: to the one of the scope if it has one of
that name, or else to the one from the root. -/
def Finds (g : Graph) (scope : Ident) (reference : String) (x : Ident) : Prop :=
  x ∈ g.vertices ∧ ∃ id, Ident.parse reference = .ok id ∧
    (x = scope.join id ∨ x = id ∧ scope.join id ∉ g.vertices)

theorem Scope.resolve_eq_ok_and_mem_iff {s : Scope} {g : Graph} {reference : String} {x : Ident} :
    s.resolve g reference = .ok x ∧ x ∈ g.vertices ↔ Finds g s.id reference x := by
  rw [Finds, Scope.resolve, and_comm]
  refine and_congr_right fun hx => ?_
  cases Ident.parse reference with
  | error fault => simp [Except.map]
  | ok id =>
    simp only [Except.map, Except.ok.injEq, exists_eq_left']
    split_ifs with hplace
    · constructor
      · exact fun heq => .inl heq.symm
      · rintro (heq | ⟨rfl, hnone⟩)
        · exact heq.symm
        · exact absurd hx (hplace.resolve_left hnone)
    · rw [not_or, not_not] at hplace
      constructor
      · exact fun heq => .inr ⟨heq.symm, hplace.1⟩
      · rintro (rfl | ⟨rfl, -⟩)
        · exact absurd hx hplace.1
        · rfl

theorem Finds.congr {g g' : Graph} (h : ∀ x, x ∈ g'.vertices ↔ x ∈ g.vertices) {scope : Ident}
    {reference : String} {x : Ident} : Finds g' scope reference x ↔ Finds g scope reference x := by
  simp only [Finds, h]

section Loader

variable {s : Scope} {key : String} {args : List Argument} {g next : Graph}

/-- What is done about an edge once its entry has been read and its ends have been found. -/
theorem run_loadEdge_eq_ok_iff : (loadEdge s key args).run g = .ok () next ↔
    ∃ id entry source target, s.entryId key = .ok id ∧ EdgeEntry.ofArguments args = .ok entry ∧
      s.resolve g entry.source = .ok source ∧
      s.resolve g (entry.target?.getD entry.source) = .ok target ∧
      (do
        discard (Edit.addEdge id source target (entry.weight?.getD .single))
        entry.flags.forM (applyFlag id) : Edit Unit).run g = .ok () next := by
  constructor
  · intro h
    obtain ⟨id, hid, h⟩ := Edit.run_ofExcept_bind_eq_ok_iff.1 h
    obtain ⟨entry, hentry, h⟩ := Edit.run_ofExcept_bind_eq_ok_iff.1 h
    obtain ⟨source, hsource, h⟩ := Edit.run_ofExcept_bind_eq_ok_iff.1 h
    refine ⟨id, entry, source, ?_⟩
    cases htarget : entry.target? with
    | none =>
      rw [htarget] at h
      exact ⟨source, hid, hentry, hsource, hsource, h⟩
    | some reference =>
      rw [htarget] at h
      obtain ⟨target, htarget, h⟩ := Edit.run_ofExcept_bind_eq_ok_iff.1 h
      exact ⟨target, hid, hentry, hsource, htarget, h⟩
  · rintro ⟨id, entry, source, target, hid, hentry, hsource, htarget, h⟩
    refine Edit.run_ofExcept_bind_eq_ok_iff.2 ⟨id, hid, ?_⟩
    refine Edit.run_ofExcept_bind_eq_ok_iff.2 ⟨entry, hentry, ?_⟩
    -- references are looked up in the graph that the edit is run on
    change EStateM.run (ofExcept (s.resolve g entry.source) >>= _) g = _
    refine Edit.run_ofExcept_bind_eq_ok_iff.2 ⟨source, hsource, ?_⟩
    cases hgiven : entry.target? with
    | none =>
      rw [hgiven, Option.getD_none, hsource] at htarget
      obtain rfl := Except.ok.inj htarget
      exact h
    | some reference =>
      rw [hgiven, Option.getD_some] at htarget
      exact Edit.run_ofExcept_bind_eq_ok_iff.2 ⟨target, htarget, h⟩

theorem exists_run_joining_iff {id source target : Ident} {weight : Weight} {flags : List Flag} :
    (∃ next, (do
      discard (Edit.addEdge id source target weight)
      flags.forM (applyFlag id) : Edit Unit).run g = .ok () next) ↔
      id.isRoot = false ∧ id ∉ g.edges ∧ source ∈ g.vertices ∧ target ∈ g.vertices := by
  rw [← Edit.exists_run_addEdge_iff weight]
  constructor
  · rintro ⟨last, hrun⟩
    rw [EStateM.run_bind, Edit.run_discard] at hrun
    cases hadd : (Edit.addEdge id source target weight).run g with
    | ok e next => exact ⟨e, next, rfl⟩
    | error fault next =>
      rw [hadd] at hrun
      cases hrun
  · rintro ⟨e, next, hrun⟩
    obtain ⟨hadds, he⟩ := (Edit.allOrNothing_addEdge _ _ _ _).of_run hrun
    obtain ⟨last, hflags, -⟩ := exists_run_forM_applyFlag flags hadds ⟨rfl, rfl⟩ he
    exact ⟨last, by rw [EStateM.run_bind, Edit.run_discard, hrun]; exact hflags⟩

end Loader

/-! ## One entry -/

namespace Entry

/-- The entry is written as an edge between these two vertices of the graph. -/
structure Describes (e : Entry) (g : Graph) (entry : EdgeEntry) (source target : Ident) : Prop where
  key : ∃ own, Ident.parse e.key = .ok own
  arguments : e.args = .ok entry.arguments
  worded : entry.Worded
  source : Finds g e.scope entry.source source
  target : Finds g e.scope (entry.target?.getD entry.source) target

variable {e : Entry} {g g' next : Graph} {entry : EdgeEntry} {source target : Ident}

/-- Of the graph, only the names of the vertices count. -/
theorem Describes.congr (h : e.Describes g entry source target)
    (hvertices : ∀ x, x ∈ g'.vertices ↔ x ∈ g.vertices) : e.Describes g' entry source target :=
  ⟨h.key, h.arguments, h.worded, (Finds.congr hvertices).2 h.source,
    (Finds.congr hvertices).2 h.target⟩

theorem entryId_eq_ok_iff {id : Ident} : e.site.entryId e.key = .ok id ↔
    (∃ own, Ident.parse e.key = .ok own) ∧ e.id = id := by
  rw [Scope.entryId]
  cases hown : Ident.parse e.key with
  | error fault => simp [Except.map]
  | ok own =>
    have hid : e.id = e.site.id.join own := by
      rw [Entry.id, Ident.ofDotted_of_parse hown]
      rfl
    simp [Except.map, hid]

theorem resolve_of_finds {reference : String} {x : Ident} (h : Finds g e.scope reference x) :
    e.site.resolve g reference = .ok x ∧ x ∈ g.vertices :=
  Scope.resolve_eq_ok_and_mem_iff.2 h

/-- An entry is not called as the root is, in whatever scope it stands. -/
theorem isRoot_id (h : ∃ own, Ident.parse e.key = .ok own) : e.id.isRoot = false := by
  obtain ⟨own, hown⟩ := h
  have hroot : (Ident.ofDotted e.key).isRoot = false := by
    rw [Bool.eq_false_iff]
    intro hroot
    have hdotted := Ident.dotted_ofDotted e.key
    rw [Ident.dotted, List.isEmpty_iff.1 hroot] at hdotted
    exact (Ident.parse_eq_ok_iff.1 hown).1 hdotted.symm
  rw [Entry.id, Ident.isRoot_join, hroot, Bool.and_false]

/-- An entry for an edge is accepted if it is written as one and its name is free. -/
theorem exists_run_load_iff_of_edge (he : e.kind = .edge) :
    (∃ next, e.load.run g = .ok () next) ↔
      (∃ entry source target, e.Describes g entry source target) ∧ e.id ∉ g.edges := by
  rw [load, he]
  constructor
  · rintro ⟨next, hrun⟩
    obtain ⟨args, hargs, hload⟩ := Edit.run_ofExcept_bind_eq_ok_iff.1 hrun
    obtain ⟨id, entry, source, target, hid, hentry, hsource, htarget, hjoin⟩ :=
      run_loadEdge_eq_ok_iff.1 hload
    obtain ⟨hkey, rfl⟩ := entryId_eq_ok_iff.1 hid
    obtain ⟨hworded, rfl⟩ := EdgeEntry.ofArguments_eq_ok_iff.1 hentry
    obtain ⟨-, hfree, hsourceIn, htargetIn⟩ := exists_run_joining_iff.1 ⟨next, hjoin⟩
    exact ⟨⟨entry, source, target, hkey, hargs, hworded,
      Scope.resolve_eq_ok_and_mem_iff.1 ⟨hsource, hsourceIn⟩,
      Scope.resolve_eq_ok_and_mem_iff.1 ⟨htarget, htargetIn⟩⟩, hfree⟩
  · rintro ⟨⟨entry, source, target, h⟩, hfree⟩
    obtain ⟨hsource, hsourceIn⟩ := resolve_of_finds h.source
    obtain ⟨htarget, htargetIn⟩ := resolve_of_finds h.target
    obtain ⟨next, hrun⟩ := exists_run_joining_iff.2
      ⟨isRoot_id h.key, hfree, hsourceIn, htargetIn⟩
    refine ⟨next, Edit.run_ofExcept_bind_eq_ok_iff.2 ⟨_, h.arguments, ?_⟩⟩
    exact run_loadEdge_eq_ok_iff.2 ⟨e.id, entry, source, target,
      entryId_eq_ok_iff.2 ⟨h.key, rfl⟩, EdgeEntry.ofArguments_arguments h.worded, hsource, htarget,
      hrun⟩

theorem edge_of_run (he : e.kind = .edge) (hrun : e.load.run g = .ok () next)
    (h : e.Describes g entry source target) :
    next.edges[e.id]? = some (entry.joining e.id source target) := by
  rw [load, he] at hrun
  obtain ⟨args, hargs, hrun⟩ := Edit.run_ofExcept_bind_eq_ok_iff.1 hrun
  have hid : e.site.id.join (.ofDotted e.key) = e.id := rfl
  obtain ⟨entry', source', target', hentry, hsource, htarget, -, hedge⟩ :=
    (allOrNothing_loadEdge args hid).of_run hrun
  obtain rfl := Except.ok.inj (h.arguments.symm.trans hargs)
  obtain rfl := Except.ok.inj ((EdgeEntry.ofArguments_arguments h.worded).symm.trans hentry)
  obtain rfl := Except.ok.inj ((resolve_of_finds h.source).1.symm.trans hsource)
  obtain rfl := Except.ok.inj ((resolve_of_finds h.target).1.symm.trans htarget)
  rw [← EdgeEntry.edge_eq_joining]
  exact hedge

/-- The name is that of an edge in the circuit of the entry. -/
def Wires (e : Entry) (x : Ident) : Prop :=
  e.kind = .component ∧ ∃ entry formula alone,
    e.args >>= ComponentEntry.ofArguments e.offset = .ok entry ∧
      entry.construction = .circuit formula ∧ Circuit.compile formula = .ok alone ∧
        ∃ inner ∈ alone.edges, e.id.join inner = x

theorem makes_edge_iff {x : Ident} (he : e.kind ≠ .edge) : e.Makes .edge x ↔ e.Wires x := by
  obtain ⟨kind, scope, offset, key, value⟩ := e
  cases kind with
  | edge => exact absurd rfl he
  | vertex | label => simp [Makes, Wires, Only]
  | component =>
    constructor
    · rintro ⟨entry, hentry, hmakes⟩
      cases hmade : entry.construction with
      | gadget blueprint =>
        rw [hmade] at hmakes
        obtain ⟨_, -, ⟨⟩⟩ := hmakes
      | circuit formula =>
        rw [hmade] at hmakes
        obtain ⟨alone, halone, hinner⟩ := hmakes
        exact ⟨rfl, entry, formula, alone, hentry, hmade, halone, hinner⟩
    · rintro ⟨-, entry, formula, alone, hentry, hmade, halone, hinner⟩
      refine ⟨entry, hentry, ?_⟩
      rw [hmade]
      exact ⟨alone, halone, hinner⟩

end Entry

/-! ## All entries -/

/-- The entry was accepted if it is written as an edge, for the vertices that are there before all
edges, and if its name is not that of an edge of then or of an earlier entry that was accepted. The
edge that is written is then there at the end. -/
structure Verdict.IsJust (v : Verdict) (mid : Graph) (before : List Verdict) (last : Graph) :
    Prop where
  accepted_iff : v.accepted = true ↔
    (∃ entry source target, v.entry.Describes mid entry source target) ∧ v.entry.id ∉ mid.edges ∧
      ∀ w ∈ before, w.accepted = true → w.entry.id ≠ v.entry.id
  made : ∀ entry source target, v.accepted = true → v.entry.Describes mid entry source target →
    last.edges[v.entry.id]? = some (entry.joining v.entry.id source target)

namespace Loads

variable {g mid last : Graph} {v : Verdict} {vs before after : List Verdict}

/-- To load entries in one go is to load them in two. -/
theorem exists_of_append (h : Loads g (before ++ after) last) :
    ∃ mid, Loads g before mid ∧ Loads mid after last := by
  induction before generalizing g with
  | nil => exact ⟨g, .nil g, h⟩
  | cons v rest ih =>
    cases h with
    | accepted hrun hrest =>
      obtain ⟨mid, hbefore, hafter⟩ := ih hrest
      exact ⟨mid, .accepted hrun hbefore, hafter⟩
    | refused hrun hrest =>
      obtain ⟨mid, hbefore, hafter⟩ := ih hrest
      exact ⟨mid, .refused hrun hbefore, hafter⟩

theorem of_cons (h : Loads g (v :: after) last) :
    (v.accepted = true ↔ ∃ next, v.entry.load.run g = .ok () next) ∧
      ∀ next, v.entry.load.run g = .ok () next → Loads next after last := by
  cases h with
  | accepted hrun hrest =>
    refine ⟨iff_of_true rfl ⟨_, hrun⟩, fun next hnext => ?_⟩
    cases hrun.symm.trans hnext
    exact hrest
  | refused hrun hrest =>
    refine ⟨iff_of_false nofun ?_, fun next hnext => ?_⟩
    · rintro ⟨next, hnext⟩
      cases hrun.symm.trans hnext
    · cases hrun.symm.trans hnext

/-- Edges bring no vertices, and each of them takes one name. -/
theorem mem_of_edges (h : Loads g vs last) (hkind : ∀ v ∈ vs, v.entry.kind = .edge) (x : Ident) :
    (x ∈ last.vertices ↔ x ∈ g.vertices) ∧
      (x ∈ last.edges ↔ x ∈ g.edges ∨ ∃ v ∈ vs, v.accepted = true ∧ v.entry.id = x) := by
  have hmade (kind : EntityKind) : (∃ v ∈ vs, v.Made kind x) ↔
      kind = .edge ∧ ∃ v ∈ vs, v.accepted = true ∧ v.entry.id = x := by
    constructor
    · rintro ⟨v, hv, haccepted, hmakes⟩
      simp only [Entry.Makes, hkind v hv, Only] at hmakes
      exact ⟨hmakes.1, v, hv, haccepted, hmakes.2.symm⟩
    · rintro ⟨rfl, v, hv, haccepted, rfl⟩
      refine ⟨v, hv, haccepted, ?_⟩
      simp only [Entry.Makes, hkind v hv, Only, and_self]
  have hvertices := h.adds.has .vertex x
  have hedges := h.adds.has .edge x
  rw [hmade] at hvertices hedges
  refine ⟨hvertices.trans ?_, hedges.trans ?_⟩
  · simp [Has]
  · simp [Has]

theorem isJust_of_edges (h : Loads mid (before ++ v :: after) last)
    (hkind : ∀ w ∈ before ++ v :: after, w.entry.kind = .edge) : v.IsJust mid before last := by
  -- the entry is read against the graph between, which has the vertices of before all edges
  obtain ⟨between, hbefore, hrest⟩ := h.exists_of_append
  obtain ⟨haccepted, hafter⟩ := hrest.of_cons
  have hedge : v.entry.kind = .edge := hkind v (by simp)
  have hbetween := hbefore.mem_of_edges fun w hw => hkind w (List.mem_append_left _ hw)
  have hdescribes (entry : EdgeEntry) (source target : Ident) :
      v.entry.Describes between entry source target ↔ v.entry.Describes mid entry source target :=
    ⟨fun hd => hd.congr fun x => (hbetween x).1.symm, fun hd => hd.congr fun x => (hbetween x).1⟩
  constructor
  · rw [haccepted, Entry.exists_run_load_iff_of_edge hedge, (hbetween v.entry.id).2]
    simp only [hdescribes, not_or, not_exists, not_and]
  · intro entry source target hv hd
    obtain ⟨next, hrun⟩ := haccepted.1 hv
    have hmade := Entry.edge_of_run hedge hrun ((hdescribes entry source target).2 hd)
    exact (hafter next hrun).adds.edge hmade

end Loads

/-! ## Documents -/

/-- The passes of a load, with the graph before all edges and the one at the end. -/
structure Passes (g : Graph) (places edges labels : List Verdict) (mid last : Graph) : Prop where
  first : Loads g.cleared places mid
  rest : ∃ joined, Loads mid edges joined ∧ Loads joined labels last
  place : ∀ v ∈ places, v.entry.kind = .vertex ∨ v.entry.kind = .component
  edge : ∀ v ∈ edges, v.entry.kind = .edge
  label : ∀ v ∈ labels, v.entry.kind = .label

theorem Site.kind_of_mem_entries {site : Site} {kind : EntryKind} {a : Address} {e : Entry}
    (h : (a, e) ∈ site.entries kind) : e.kind = kind := by
  obtain ⟨named, -, rfl⟩ := Option.map_eq_some_iff.1 (Site.mem_entries.1 h).2.2
  rfl

theorem exists_passes {d : Document} {g last : Graph} {vs : List Verdict}
    (hvs : vs.map (fun v => (v.address, v.entry)) = d.entries) (h : Loads g.cleared vs last) :
    ∃ places edges labels mid, vs = places ++ edges ++ labels ∧
      Passes g places edges labels mid last := by
  rw [Document.entries, List.map_eq_append_iff] at hvs
  obtain ⟨front, labels, rfl, hfront, hlabels⟩ := hvs
  rw [List.map_eq_append_iff] at hfront
  obtain ⟨places, edges, rfl, hplaces, hedges⟩ := hfront
  obtain ⟨joined, hfront, hlast⟩ := h.exists_of_append
  obtain ⟨mid, hmid, hjoined⟩ := hfront.exists_of_append
  have hsite {vs : List Verdict} {f : Site → List (Address × Entry)}
      (hvs : vs.map (fun v => (v.address, v.entry)) = d.sites.flatMap f) :
      ∀ v ∈ vs, ∃ site, (v.address, v.entry) ∈ f site := by
    intro v hv
    obtain ⟨site, -, hmem⟩ := List.mem_flatMap.1 (hvs ▸ List.mem_map_of_mem hv)
    exact ⟨site, hmem⟩
  refine ⟨places, edges, labels, mid, rfl, hmid, ⟨joined, hjoined, hlast⟩, ?_, ?_, ?_⟩
  · intro v hv
    obtain ⟨site, hmem⟩ := hsite hplaces v hv
    exact (List.mem_append.1 hmem).imp Site.kind_of_mem_entries Site.kind_of_mem_entries
  · intro v hv
    obtain ⟨site, hmem⟩ := hsite hedges v hv
    exact Site.kind_of_mem_entries hmem
  · intro v hv
    obtain ⟨site, hmem⟩ := hsite hlabels v hv
    exact Site.kind_of_mem_entries hmem

namespace Passes

variable {g mid last : Graph} {places edges labels before after : List Verdict} {v : Verdict}

/-- Before all edges, the edges in the graph are those of circuits. -/
theorem mem_edges_iff (h : Passes g places edges labels mid last) (x : Ident) :
    x ∈ mid.edges ↔ ∃ v ∈ places, v.accepted = true ∧ v.entry.Wires x := by
  have hedges : x ∈ mid.edges ↔ x ∈ g.cleared.edges ∨ ∃ v ∈ places, v.Made .edge x :=
    h.first.adds.has .edge x
  have hnone : x ∉ g.cleared.edges := Std.ExtTreeMap.not_mem_empty
  rw [hedges, or_iff_right hnone]
  refine exists_congr fun v => and_congr_right fun hv => and_congr_right fun _ => ?_
  refine Entry.makes_edge_iff ?_
  rcases h.place v hv with hkind | hkind <;> rw [hkind] <;> decide

theorem isJust (h : Passes g places (before ++ v :: after) labels mid last) :
    v.IsJust mid before last := by
  obtain ⟨joined, hjoined, hlast⟩ := h.rest
  have hjust := hjoined.isJust_of_edges h.edge
  exact ⟨hjust.accepted_iff, fun entry source target hv hd =>
    hlast.adds.edge (hjust.made entry source target hv hd)⟩

end Passes

/-- In a document whose groups are well named, an entry for an edge is accepted if it is written as
an edge between vertices of the document, and if no circuit and no earlier entry that was accepted
has taken its name; and the graph then has the edge that is written. -/
theorem edges_follow_grammar {d : Document} (h : d.wellNamed = true) (g : Graph) :
    ∃ places edges labels mid last,
      (loadInto d).run g = .ok ⟨(places ++ edges ++ labels).filterMap Verdict.issue?⟩ last ∧
      Account d g (places ++ edges ++ labels) last ∧ Passes g places edges labels mid last ∧
      (∀ x, x ∈ mid.edges ↔ ∃ v ∈ places, v.accepted = true ∧ v.entry.Wires x) ∧
      ∀ before v after, edges = before ++ v :: after → v.IsJust mid before last := by
  obtain ⟨vs, last, hvs, hloads, hrun⟩ := exists_loads_of_wellNamed h g
  obtain ⟨places, edges, labels, mid, rfl, hpasses⟩ := exists_passes hvs hloads
  refine ⟨places, edges, labels, mid, last, hrun, account_of_loads hvs hloads, hpasses,
    hpasses.mem_edges_iff, ?_⟩
  rintro before v after rfl
  exact hpasses.isJust

/-- A vertex of the root that a group has too, edges that are turned round, one with a weight after
a flag, and names that an earlier entry or an edge of a circuit has taken. -/
def Document.entangled : Document where
  position := none
  vertices := [("a", .list [.int 0, .int 0]), ("b", .list [.int 2, .int 0])]
  edges :=
    [("back", .list [.string "a", .string "b", .int 2, .string "flip", .string "muted"]),
      ("inner.e", .list [.string "a"]),
      ("late", .list [.string "a", .string "flip", .int 1]),
      ("q.sink.ab", .list [.string "a", .string "b"])]
  components := [("q", .list [.int 4, .int 0, .string "qbf", .string "exists x : (x)"])]
  labels := []
  groups := [("inner", ⟨none, [("a", .list [.int 0, .int 4])],
    [("e", .list [.string "a", .string "b", .string "flip", .string "flip"]),
      ("f", .list [.string "a", .string "b", .string "flip"])], [], [], []⟩)]

/-- The vertex of the group comes before that of the root, and the other one is from the root. -/
theorem edges_follow_grammar_entangled :
    Document.entangled.wellNamed = true ∧ ∃ places edges labels mid last,
      (loadInto .entangled).run ∅ =
        .ok ⟨(places ++ edges ++ labels).filterMap Verdict.issue?⟩ last ∧
      Account .entangled ∅ (places ++ edges ++ labels) last ∧
      Passes ∅ places edges labels mid last ∧
      (∀ x, x ∈ mid.edges ↔ ∃ v ∈ places, v.accepted = true ∧ v.entry.Wires x) ∧
      (∀ before v after, edges = before ++ v :: after → v.IsJust mid before last) ∧
      last.edges[(⟨["inner", "f"]⟩ : Ident)]? =
        some ⟨⟨["inner", "f"]⟩, ⟨["b"]⟩, ⟨["inner", "a"]⟩, .single, false, false⟩ := by
  have hnamed : Document.entangled.wellNamed = true := by decide +kernel
  obtain ⟨places, edges, labels, mid, last, hrun, haccount, hpasses, hwires, hgrammar⟩ :=
    edges_follow_grammar hnamed ∅
  have hedge : ((loadInto .entangled).left ∅).edges[(⟨["inner", "f"]⟩ : Ident)]? =
      some ⟨⟨["inner", "f"]⟩, ⟨["b"]⟩, ⟨["inner", "a"]⟩, .single, false, false⟩ := by
    decide +kernel
  rw [Edit.left, hrun] at hedge
  exact ⟨hnamed, places, edges, labels, mid, last, hrun, haccount, hpasses, hwires, hgrammar, hedge⟩

end Description

end ConstraintLogic
