import ConstraintLogic.Proofs.Description.Loading
import ConstraintLogic.Proofs.Record
/-!
# Skipped entries

An entry that is refused leaves no trace. So the document without the entries that are reported
leads to the same graph, with the same number of changes on record, and nothing is reported of it.
-/

namespace ConstraintLogic

theorem Edit.AllOrNothing.atomic {α : Type} {act : Edit α} {g : Graph} {P : α → Graph → Prop}
    (h : act.AllOrNothing g P) : act.Atomic g := by
  intro fault next hrun
  rcases h with ⟨fault', hrun'⟩ | ⟨_, _, hrun', -⟩
  · cases hrun.symm.trans hrun'
    rfl
  · cases hrun.symm.trans hrun'

namespace Description

/-! ## Leaving entries out -/

namespace Section

variable {α : Type}

/-- The section without the entries at some places. -/
def without (s : Section α) (refused : Nat → Bool) : Section α :=
  (s.zipIdx.filter fun p => !refused p.2).map Prod.fst

end Section

namespace Address

/-- The address as seen from outside of a group. -/
def inGroup (index : Nat) (a : Address) : Address :=
  { a with groups := index :: a.groups }

def below (groups : List Nat) (a : Address) : Address :=
  { a with groups := groups ++ a.groups }

end Address

mutual

/-- The document without the entries at some addresses. -/
def Document.without (refused : Address → Bool) : Document → Document
  | ⟨position, vertices, edges, components, labels, groups⟩ =>
    ⟨position, vertices.without fun i => refused ⟨[], .vertex, i⟩,
      edges.without fun i => refused ⟨[], .edge, i⟩,
      components.without fun i => refused ⟨[], .component, i⟩,
      labels.without fun i => refused ⟨[], .label, i⟩, groupsWithout refused 0 groups⟩

def groupsWithout (refused : Address → Bool) (index : Nat) :
    List (String × Document) → List (String × Document)
  | [] => []
  | (name, d) :: rest =>
    (name, d.without fun a => refused (a.inGroup index)) :: groupsWithout refused (index + 1) rest

end

mutual

theorem wellNamed_without : ∀ (d : Document) (refused : Address → Bool),
    (d.without refused).wellNamed = d.wellNamed
  | ⟨_, _, _, _, _, groups⟩, refused => by
    rw [Document.without, Document.wellNamed, Document.wellNamed]
    exact groupsWellNamed_without groups refused 0

theorem groupsWellNamed_without :
    ∀ (groups : List (String × Document)) (refused : Address → Bool) (index : Nat),
      groupsWellNamed (groupsWithout refused index groups) = groupsWellNamed groups
  | [], _, _ => by rw [groupsWithout]
  | (name, d) :: rest, refused, index => by
    rw [groupsWithout, groupsWellNamed, groupsWellNamed, wellNamed_without d,
      groupsWellNamed_without rest]

end

theorem Document.offset_without (d : Document) (refused : Address → Bool) :
    (d.without refused).offset = d.offset := by
  cases d
  rw [without, offset, offset]

theorem Document.sectionOf_without (d : Document) (refused : Address → Bool) (kind : EntryKind) :
    (d.without refused).sectionOf kind =
      (d.sectionOf kind).without fun i => refused ⟨[], kind, i⟩ := by
  cases d
  rw [without]
  cases kind <;> rfl

/-- The site of the same scope after entries have been left out. -/
def Site.without (refused : Address → Bool) (site : Site) : Site :=
  { site with
    scope.document := site.scope.document.without fun a => refused (a.below site.groups) }

mutual

theorem sites_without : ∀ (d : Document) (refused : Address → Bool) (id : Ident) (offset : Point),
    sites id offset (d.without refused) = (sites id offset d).map (Site.without refused)
  | ⟨position, vertices, edges, components, labels, groups⟩, refused, id, offset => by
    have hself : Site.without refused
        ⟨[], id, offset, ⟨position, vertices, edges, components, labels, groups⟩⟩ =
          ⟨[], id, offset,
            Document.without refused ⟨position, vertices, edges, components, labels, groups⟩⟩ := rfl
    rw [sites, List.map_cons, hself, Document.without, sites, groupSites_without groups]

theorem groupSites_without :
    ∀ (groups : List (String × Document)) (refused : Address → Bool) (index : Nat) (id : Ident)
      (offset : Point), groupSites index id offset (groupsWithout refused index groups) =
        (groupSites index id offset groups).map (Site.without refused)
  | [], _, _, _, _ => by rw [groupsWithout, groupSites, List.map_nil]
  | (name, d) :: rest, refused, index, id, offset => by
    rw [groupsWithout, groupSites, groupSites, Document.offset_without, sites_without d,
      groupSites_without rest, List.map_append, List.map_map, List.map_map]
    rfl

end

/-- What is left of a section is what was there apart from what was left out. -/
theorem Site.entries_without (site : Site) (refused : Address → Bool) (kind : EntryKind) :
    ((site.without refused).entries kind).map Prod.snd =
      ((site.entries kind).filter fun p => !refused p.1).map Prod.snd := by
  rw [map_snd_entries, without, Document.sectionOf_without, Section.without, entries]
  simp only [List.filter_map, List.map_map, Function.comp_def, Address.below, List.append_nil]
  rfl

theorem Document.entries_without (d : Document) (refused : Address → Bool) :
    (d.without refused).entries.map Prod.snd =
      (d.entries.filter fun p => !refused p.1).map Prod.snd := by
  have hsites : (d.without refused).sites = d.sites.map (Site.without refused) := by
    rw [sites, sites, offset_without, sites_without]
  simp only [entries, hsites, List.map_append, List.filter_append, List.map_flatMap,
    List.filter_flatMap, List.flatMap_map, Site.entries_without]

/-! ## Runs without refusals -/

namespace Verdict

/-- The entry was left out, and this is its address. -/
def refusedAt (vs : List Verdict) (a : Address) : Bool :=
  vs.any fun v => v.address == a && !v.accepted

end Verdict

/-- Entries that are refused may as well not be there. -/
theorem Loads.filter_accepted {g last : Graph} {vs : List Verdict} (h : Loads g vs last) :
    Loads g (vs.filter Verdict.accepted) last := by
  induction h with
  | nil g => exact .nil g
  | accepted hrun _ ih => exact .accepted hrun ih
  | refused _ _ ih => exact ih

theorem filterMap_issue?_filter_accepted (vs : List Verdict) :
    (vs.filter Verdict.accepted).filterMap Verdict.issue? = [] := by
  rw [List.filterMap_eq_nil_iff]
  intro v hv
  have haccepted : v.fault? = none := by
    simpa [Verdict.accepted] using (List.mem_filter.1 hv).2
  rw [Verdict.issue?, haccepted, Option.map_none]

theorem Entry.atomic_load (e : Entry) (g : Graph) : e.load.Atomic g :=
  (e.allOrNothing_load g).atomic

/-- The entries of the document without those that were refused are those that were accepted. -/
theorem Document.entries_without_refusedAt {d : Document} {vs : List Verdict}
    (hvs : vs.map (fun v => (v.address, v.entry)) = d.entries) :
    (d.without (Verdict.refusedAt vs)).entries.map Prod.snd =
      (vs.filter Verdict.accepted).map Verdict.entry := by
  have hnodup : (vs.map Verdict.address).Nodup := by
    have horder := d.pairwise_entries
    rw [← hvs, List.pairwise_map] at horder
    exact List.pairwise_map.2 (horder.imp Address.Before.ne)
  have hrefused : ∀ v ∈ vs, (!Verdict.refusedAt vs v.address) = v.accepted := by
    intro v hv
    rw [Verdict.refusedAt, List.not_any_eq_all_not, Bool.eq_iff_iff, List.all_eq_true]
    constructor
    · intro hall
      simpa using hall v hv
    · intro haccepted w hw
      by_cases hsame : w.address = v.address
      · rw [List.inj_on_of_nodup_map hnodup hw hv hsame, haccepted]
        simp
      · simp [hsame]
  rw [entries_without, ← hvs, List.filter_map, List.map_map]
  simp only [Function.comp_def]
  rw [List.filter_congr hrefused]

/-- The entries that are reported may be left out of the document, and all else stays the same:
each of them was refused with the graph as it was. -/
theorem run_loadInto_without {d : Document} (h : d.wellNamed = true) (g : Graph) :
    (∀ (e : Entry) (g' : Graph), e.load.Atomic g') ∧
      ∃ vs last, Account d g vs last ∧
        (loadInto d).run g = .ok ⟨vs.filterMap Verdict.issue?⟩ last ∧
        (loadInto (d.without (Verdict.refusedAt vs))).run g = .ok ⟨[]⟩ last := by
  obtain ⟨vs, last, hvs, hloads, hrun⟩ := exists_loads_of_wellNamed h g
  refine ⟨Entry.atomic_load, vs, last, account_of_loads hvs hloads, hrun, ?_⟩
  have hnamed : (d.without (Verdict.refusedAt vs)).wellNamed = true := by
    rw [wellNamed_without, h]
  rw [run_loadInto hnamed, Document.entries_without_refusedAt hvs, EStateM.run_bind,
    hloads.filter_accepted.run_reports, filterMap_issue?_filter_accepted]
  rfl

/-- An edge without an end, a number where a section wants a list, and a vertex that is there
already, in a group. -/
def Document.spoilt : Document where
  position := none
  vertices := [("a", .list [.int 0, .int 0]), ("inner.a", .list [.int 1, .int 0])]
  edges := [("loop", .list [.string "a"]), ("loose", .list [.string "a", .string "b"])]
  components := [("c", .int 1)]
  labels := []
  groups := [("inner", ⟨none, [("a", .list [.int 0, .int 0])], [], [], [], []⟩)]

/-- The second vertex of one name, the section entry that is no list and the loose edge are refused,
and the loop stays. -/
theorem run_loadInto_without_spoilt :
    Document.spoilt.wellNamed = true ∧ (∀ (e : Entry) (g' : Graph), e.load.Atomic g') ∧
      ∃ vs last, Account .spoilt ∅ vs last ∧
        (loadInto .spoilt).run ∅ = .ok ⟨vs.filterMap Verdict.issue?⟩ last ∧
        (loadInto (Document.spoilt.without (Verdict.refusedAt vs))).run ∅ = .ok ⟨[]⟩ last ∧
        (vs.filterMap Verdict.issue?).map Issue.text =
          ["component c: Invalid format: expected a list",
            "vertex inner.a: Duplicate id: vertex inner.a already exists",
            "edge loose: Referential integrity violated: edge loose references missing vertex b"] ∧
        last.edges.keys = [⟨["loop"]⟩] := by
  have hnamed : Document.spoilt.wellNamed = true := by decide +kernel
  obtain ⟨hatomic, vs, last, haccount, hrun, hwithout⟩ := run_loadInto_without hnamed ∅
  have hissues : ((loadInto .spoilt).run' ∅).map (·.issues.map Issue.text) = some
      ["component c: Invalid format: expected a list",
        "vertex inner.a: Duplicate id: vertex inner.a already exists",
        "edge loose: Referential integrity violated: edge loose references missing vertex b"] := by
    decide +kernel
  have hedges : ((loadInto .spoilt).left ∅).edges.keys = [⟨["loop"]⟩] := by decide +kernel
  rw [Edit.answer_of_run hrun] at hissues
  rw [Edit.left, hrun] at hedges
  exact ⟨hnamed, hatomic, vs, last, haccount, hrun, hwithout, Option.some.inj hissues, hedges⟩

end Description

end ConstraintLogic
