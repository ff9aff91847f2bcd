import ConstraintLogic.Proofs.Description.Accepted
import ConstraintLogic.Proofs.Reachable
/-!
# Loading entry by entry

Loading a document is loading its entries one after the other, each into the graph that the ones
before have left, and reporting those that are refused. This is so although they stand in a tree
of groups and are loaded in three passes over it.
-/

namespace ConstraintLogic

/-- The graph without its entities, which is one change on record. -/
def Graph.cleared (g : Graph) : Graph :=
  { vertices := ∅, edges := ∅, components := ∅, labels := ∅, revision := g.revision + 1,
    changed := true }

namespace Description

open ConstraintLogic.Graph

/-- What became of an entry. -/
structure Verdict where
  address : Address
  entry : Entry
  /-- Why the entry was left out, if it was. -/
  fault? : Option Fault

namespace Verdict

def accepted (v : Verdict) : Bool :=
  v.fault?.isNone

/-- What is reported of the entry. -/
def issue? (v : Verdict) : Option Issue :=
  v.fault?.map fun fault => ⟨v.entry.kind, v.entry.site.entryName v.entry.key, fault⟩

end Verdict

/-- Entries are loaded one after the other. One that is refused leaves the graph as it was. -/
inductive Loads : Graph → List Verdict → Graph → Prop
  | nil (g : Graph) : Loads g [] g
  | accepted {a : Address} {e : Entry} {g next last : Graph} {rest : List Verdict} :
    e.load.run g = .ok () next → Loads next rest last → Loads g (⟨a, e, none⟩ :: rest) last
  | refused {a : Address} {e : Entry} {fault : Fault} {g last : Graph} {rest : List Verdict} :
    e.load.run g = .error fault g → Loads g rest last → Loads g (⟨a, e, some fault⟩ :: rest) last

theorem exists_loads (entries : List (Address × Entry)) (g : Graph) :
    ∃ vs last, vs.map (fun v => (v.address, v.entry)) = entries ∧ Loads g vs last := by
  induction entries generalizing g with
  | nil => exact ⟨[], g, rfl, .nil g⟩
  | cons entry rest ih =>
    obtain ⟨a, e⟩ := entry
    rcases e.allOrNothing_load g with ⟨fault, hrun⟩ | ⟨_, next, hrun, -⟩
    · obtain ⟨vs, last, hvs, hloads⟩ := ih g
      exact ⟨_ :: vs, last, congrArg _ hvs, .refused hrun hloads⟩
    · obtain ⟨vs, last, hvs, hloads⟩ := ih next
      exact ⟨_ :: vs, last, congrArg _ hvs, .accepted hrun hloads⟩

/-! ## Reports -/

namespace Entry

def report (e : Entry) : Edit (List Issue) :=
  loadEntry e.kind (loader e.kind) e.site (e.key, e.value)

theorem run_report (e : Entry) (g : Graph) :
    e.report.run g =
      match e.load.run g with
      | .ok _ next => .ok [] next
      | .error fault next => .ok [⟨e.kind, e.site.entryName e.key, fault⟩] next :=
  run_loadEntry e.kind (loader e.kind) e.site e.key e.value g

end Entry

/-- What is reported of entries that are loaded one after the other. -/
def reports (entries : List Entry) : Edit (List Issue) := do
  return (← entries.mapM Entry.report).flatten

theorem reports_nil : reports [] = pure [] := by
  simp [reports]

theorem reports_cons (e : Entry) (rest : List Entry) :
    reports (e :: rest) = do return (← e.report) ++ (← reports rest) := by
  simp [reports]

theorem reports_append (entries entries' : List Entry) :
    reports (entries ++ entries') = do return (← reports entries) ++ (← reports entries') := by
  simp [reports]

theorem Loads.run_reports {g last : Graph} {vs : List Verdict} (h : Loads g vs last) :
    (reports (vs.map Verdict.entry)).run g = .ok (vs.filterMap Verdict.issue?) last := by
  induction h with
  | nil g => rw [List.map_nil, reports_nil]; rfl
  | accepted hrun hrest ih =>
    rw [List.map_cons, reports_cons, EStateM.run_bind, Entry.run_report, hrun]
    simp only [EStateM.run_bind, ih]
    rfl
  | refused hrun hrest ih =>
    rw [List.map_cons, reports_cons, EStateM.run_bind, Entry.run_report, hrun]
    simp only [EStateM.run_bind, ih]
    rfl

/-! ## Sections and scopes -/

/-- A loader looks at the names around an entry and at how far it is moved, and at nothing else of
the scope. -/
theorem report_entry (s : Scope) (kind : EntryKind) (named : String × Yaml.Value) :
    (s.entry kind named).report = loadEntry kind (loader kind) s named := by
  cases kind <;> rfl

theorem loadSection_eq_reports (site : Site) (kind : EntryKind) :
    loadSection kind (loader kind) site.scope (site.scope.document.sectionOf kind) =
      reports ((site.entries kind).map Prod.snd) := by
  rw [Site.map_snd_entries, reports, List.mapM_map, loadSection]
  simp only [Function.comp_def, report_entry]

/-- What is done scope by scope is done entry by entry. -/
theorem mapM_scopes_eq_reports {load : Scope → Edit (List Issue)}
    {f : Site → List (Address × Entry)}
    (h : ∀ site, load site.scope = reports ((f site).map Prod.snd)) (sites : List Site) :
    (do return (← (sites.map Site.scope).mapM load).flatten) =
      reports ((sites.flatMap f).map Prod.snd) := by
  induction sites with
  | nil => simp [reports]
  | cons site rest ih =>
    rw [List.flatMap_cons, List.map_append, reports_append, ← ih, ← h]
    simp

theorem loadPlaces_eq_reports (site : Site) :
    loadPlaces site.scope =
      reports ((site.entries .vertex ++ site.entries .component).map Prod.snd) := by
  rw [List.map_append, reports_append, ← loadSection_eq_reports, ← loadSection_eq_reports]
  rfl

/-- To load a document whose groups are well named is to load its entries one after the other into
a graph that has been cleared. -/
theorem run_loadInto {d : Document} (h : d.wellNamed = true) (g : Graph) :
    (loadInto d).run g =
      (do return ⟨← reports (d.entries.map Prod.snd)⟩ : Edit Report).run g.cleared := by
  have hscopes : d.scopes = .ok (d.sites.map Site.scope) := scopes_eq_ok .root d.offset d h
  have hedges (site : Site) : loadEdges site.scope = reports ((site.entries .edge).map Prod.snd) :=
    loadSection_eq_reports site .edge
  have hlabels (site : Site) :
      loadLabels site.scope = reports ((site.entries .label).map Prod.snd) :=
    loadSection_eq_reports site .label
  have hpasses : (do
      let places ← (d.sites.map Site.scope).mapM loadPlaces
      let edges ← (d.sites.map Site.scope).mapM loadEdges
      let labels ← (d.sites.map Site.scope).mapM loadLabels
      return ⟨(places ++ edges ++ labels).flatten⟩ : Edit Report) =
        do return ⟨← reports (d.entries.map Prod.snd)⟩ := by
    rw [Document.entries, List.map_append, List.map_append, reports_append, reports_append,
      ← mapM_scopes_eq_reports loadPlaces_eq_reports, ← mapM_scopes_eq_reports hedges,
      ← mapM_scopes_eq_reports hlabels]
    simp
  rw [loadInto, EStateM.run_bind, Edit.run_ofExcept, hscopes, ← hpasses]
  rfl

/-- The refused entries are reported in the order of loading. -/
theorem Loads.run_loadInto {d : Document} {g last : Graph} {vs : List Verdict}
    (hloads : Loads g.cleared vs last) (h : d.wellNamed = true)
    (hvs : vs.map (fun v => (v.address, v.entry)) = d.entries) :
    (loadInto d).run g = .ok ⟨vs.filterMap Verdict.issue?⟩ last := by
  have hentries : vs.map Verdict.entry = d.entries.map Prod.snd := by
    rw [← hvs, List.map_map]
    rfl
  rw [Description.run_loadInto h, ← hentries, EStateM.run_bind, hloads.run_reports]
  rfl

/-! ## Accounts -/

/-- Every entry of a document got a verdict, and they were given in the order of loading. -/
structure Account (d : Document) (g : Graph) (vs : List Verdict) (last : Graph) : Prop where
  entries : ∀ a e, (∃ v ∈ vs, v.address = a ∧ v.entry = e) ↔ d.entry? a = some e
  order : vs.Pairwise fun v w => v.address.Before w.address
  loads : Loads g.cleared vs last

theorem account_of_loads {d : Document} {g last : Graph} {vs : List Verdict}
    (hvs : vs.map (fun v => (v.address, v.entry)) = d.entries) (h : Loads g.cleared vs last) :
    Account d g vs last where
  entries a e := by
    rw [← Document.mem_entries, ← hvs, List.mem_map]
    simp only [Prod.mk.injEq]
  order := by
    have horder := d.pairwise_entries
    rw [← hvs, List.pairwise_map] at horder
    exact horder
  loads := h

/-- The entries of a document whose groups are well named are loaded in the order in which they
are listed, and the load is never refused as a whole. -/
theorem exists_loads_of_wellNamed {d : Document} (h : d.wellNamed = true) (g : Graph) :
    ∃ vs last, vs.map (fun v => (v.address, v.entry)) = d.entries ∧ Loads g.cleared vs last ∧
      (loadInto d).run g = .ok ⟨vs.filterMap Verdict.issue?⟩ last := by
  obtain ⟨vs, last, hvs, hloads⟩ := exists_loads d.entries g.cleared
  exact ⟨vs, last, hvs, hloads, hloads.run_loadInto h hvs⟩

end Description

end ConstraintLogic
