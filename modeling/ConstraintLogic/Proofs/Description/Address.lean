import ConstraintLogic.Description.Load
/-!
# Where entries stand

An entry of a document stands in a section of a scope, and a scope is reached through the groups
around it. The entries of a document are listed in the order of loading, each once and with its
address. The names of entries would not do: one entry may be called as another one in a group.
-/

namespace ConstraintLogic.Description

/-! ## Addresses -/

/-- Where an entry stands: the way through the groups, the section, and the place there. -/
structure Address where
  groups : List Nat
  kind : EntryKind
  index : Nat
deriving DecidableEq

/-- Vertices and components are loaded in one go, before all edges, and labels come last. -/
def EntryKind.stage : EntryKind → Nat
  | .vertex | .component => 0
  | .edge => 1
  | .label => 2

/-- What is loaded in one go comes scope by scope, and in a scope section by section. -/
def EntryKind.rank : EntryKind → Nat
  | .vertex => 0
  | .component => 1
  | .edge => 2
  | .label => 3

namespace Address

/-- What stands at one address is loaded before what stands at another. -/
def Before (a b : Address) : Prop :=
  a.kind.stage < b.kind.stage ∨ a.kind.stage = b.kind.stage ∧
    (a.groups < b.groups ∨ a.groups = b.groups ∧
      (a.kind.rank < b.kind.rank ∨ a.kind = b.kind ∧ a.index < b.index))

theorem Before.ne {a b : Address} (h : a.Before b) : a ≠ b := by
  rintro rfl
  rcases h with h | ⟨-, h | ⟨-, h | ⟨-, h⟩⟩⟩
  · exact absurd h (Nat.lt_irrefl _)
  · exact absurd h (List.lt_irrefl _)
  · exact absurd h (Nat.lt_irrefl _)
  · exact absurd h (Nat.lt_irrefl _)

end Address

/-- An entry in its place. -/
structure Entry where
  kind : EntryKind
  /-- The names around the entry. -/
  scope : Ident
  /-- How far the entry is moved. -/
  offset : Point
  key : String
  value : Yaml.Value

/-! ## Looking entries up -/

def Document.sectionOf (d : Document) : EntryKind → Section Yaml.Value
  | .vertex => d.vertices
  | .edge => d.edges
  | .component => d.components
  | .label => d.labels

namespace Scope

/-- The scope of a group. -/
def group? (s : Scope) (index : Nat) : Option Scope :=
  s.document.groups[index]?.map fun (name, d) =>
    ⟨s.id.join (.ofDotted name), s.offset + d.offset, d⟩

/-- The scope at the end of a way through the groups. -/
def inner? (s : Scope) : List Nat → Option Scope
  | [] => some s
  | index :: rest => (s.group? index).bind (·.inner? rest)

def entry (s : Scope) (kind : EntryKind) (named : String × Yaml.Value) : Entry :=
  ⟨kind, s.id, s.offset, named.1, named.2⟩

end Scope

namespace Document

/-- The document as the outermost scope. -/
def scope (d : Document) : Scope :=
  ⟨.root, d.offset, d⟩

def entry? (d : Document) (a : Address) : Option Entry :=
  (d.scope.inner? a.groups).bind fun s =>
    (s.document.sectionOf a.kind)[a.index]?.map (s.entry a.kind)

end Document

/-! ## Listing entries -/

/-- A scope and the way to it. -/
structure Site where
  groups : List Nat
  scope : Scope

namespace Site

def inGroup (index : Nat) (site : Site) : Site :=
  { site with groups := index :: site.groups }

/-- The entries of a section. -/
def entries (site : Site) (kind : EntryKind) : List (Address × Entry) :=
  (site.scope.document.sectionOf kind).zipIdx.map fun p =>
    (⟨site.groups, kind, p.2⟩, site.scope.entry kind p.1)

end Site

mutual

/-- The scopes of a document, each before those of its groups. -/
def sites (id : Ident) (offset : Point) : Document → List Site
  | ⟨position, vertices, edges, components, labels, groups⟩ =>
    ⟨[], id, offset, ⟨position, vertices, edges, components, labels, groups⟩⟩ ::
      groupSites 0 id offset groups

def groupSites (index : Nat) (id : Ident) (offset : Point) : List (String × Document) → List Site
  | [] => []
  | (name, d) :: rest =>
    (sites (id.join (.ofDotted name)) (offset + d.offset) d).map (Site.inGroup index) ++
      groupSites (index + 1) id offset rest

end

mutual

/-- The names of all groups can be read, at whatever depth. -/
def Document.wellNamed : Document → Bool
  | ⟨_, _, _, _, _, groups⟩ => groupsWellNamed groups

def groupsWellNamed : List (String × Document) → Bool
  | [] => true
  | (name, d) :: rest => (Ident.parse name).isOk && d.wellNamed && groupsWellNamed rest

end

namespace Document

def sites (d : Document) : List Site :=
  Description.sites .root d.offset d

/-- The entries of a document with their addresses, in the order of loading. -/
def entries (d : Document) : List (Address × Entry) :=
  d.sites.flatMap (fun site => site.entries .vertex ++ site.entries .component) ++
    d.sites.flatMap (·.entries .edge) ++ d.sites.flatMap (·.entries .label)

end Document

/-! ## Every entry is listed -/

theorem mem_groupSites {groups : List (String × Document)} {index : Nat} {id : Ident}
    {offset : Point} {site : Site} :
    site ∈ groupSites index id offset groups ↔ ∃ i name d, groups[i]? = some (name, d) ∧
      ∃ inner ∈ sites (id.join (.ofDotted name)) (offset + d.offset) d,
        inner.inGroup (index + i) = site := by
  induction groups generalizing index with
  | nil => simp [groupSites]
  | cons group rest ih =>
    obtain ⟨name, d⟩ := group
    rw [groupSites, List.mem_append, List.mem_map, ih]
    constructor
    · rintro (⟨inner, hinner, rfl⟩ | ⟨i, name', d', hget, inner, hinner, rfl⟩)
      · exact ⟨0, name, d, rfl, inner, hinner, rfl⟩
      · exact ⟨i + 1, name', d', hget, inner, hinner, by rw [Nat.add_comm i, Nat.add_assoc]⟩
    · rintro ⟨i, name', d', hget, inner, hinner, rfl⟩
      cases i with
      | zero =>
        obtain ⟨rfl, rfl⟩ : name = name' ∧ d = d' := by simpa using hget
        exact .inl ⟨inner, hinner, rfl⟩
      | succ i =>
        exact .inr ⟨i, name', d', hget, inner, hinner, by rw [Nat.add_comm i, Nat.add_assoc]⟩

theorem sites_eq_cons (id : Ident) (offset : Point) (d : Document) :
    sites id offset d = ⟨[], id, offset, d⟩ :: groupSites 0 id offset d.groups := by
  cases d
  rw [sites]

/-- The scopes that are listed are those that some way leads to. -/
theorem mem_sites {site : Site} {id : Ident} {offset : Point} {d : Document} :
    site ∈ sites id offset d ↔ Scope.inner? ⟨id, offset, d⟩ site.groups = some site.scope := by
  obtain ⟨groups, scope⟩ := site
  rw [sites_eq_cons, List.mem_cons, mem_groupSites]
  induction groups generalizing id offset d with
  | nil => simp [Site.inGroup, Scope.inner?, eq_comm]
  | cons index rest ih =>
    simp only [Site.mk.injEq, reduceCtorEq, false_and, false_or, Scope.inner?, Scope.group?,
      Site.inGroup, Nat.zero_add, List.cons.injEq]
    constructor
    · rintro ⟨i, name, d', hget, ⟨groups, scope⟩, hinner, ⟨rfl, rfl⟩, rfl⟩
      rw [hget]
      rw [sites_eq_cons, List.mem_cons, mem_groupSites] at hinner
      exact ih.1 hinner
    · intro hinner
      obtain ⟨⟨name, d'⟩, hget⟩ : ∃ group, d.groups[index]? = some group := by
        cases hget : d.groups[index]? with
        | none => simp [hget] at hinner
        | some group => exact ⟨group, rfl⟩
      rw [hget] at hinner
      refine ⟨index, name, d', hget, ⟨rest, scope⟩, ?_, ⟨rfl, rfl⟩, rfl⟩
      rw [sites_eq_cons, List.mem_cons, mem_groupSites]
      exact ih.2 hinner

namespace Site

theorem map_snd_entries (site : Site) (kind : EntryKind) :
    (site.entries kind).map Prod.snd =
      (site.scope.document.sectionOf kind).map (site.scope.entry kind) := by
  calc (site.entries kind).map Prod.snd
    _ = ((site.scope.document.sectionOf kind).zipIdx.map Prod.fst).map (site.scope.entry kind) := by
      rw [entries, List.map_map, List.map_map]
      rfl
    _ = (site.scope.document.sectionOf kind).map (site.scope.entry kind) := by
      rw [List.zipIdx_map_fst]

theorem mem_entries {site : Site} {kind : EntryKind} {a : Address} {e : Entry} :
    (a, e) ∈ site.entries kind ↔ a.groups = site.groups ∧ a.kind = kind ∧
      (site.scope.document.sectionOf kind)[a.index]?.map (site.scope.entry kind) = some e := by
  obtain ⟨groups, kind', index⟩ := a
  simp only [entries, List.mem_map, Prod.mk.injEq, Address.mk.injEq, Prod.exists,
    List.mem_zipIdx_iff_getElem?, Option.map_eq_some_iff]
  constructor
  · rintro ⟨key, value, index, hget, ⟨rfl, rfl, rfl⟩, rfl⟩
    exact ⟨rfl, rfl, key, value, hget, rfl⟩
  · rintro ⟨rfl, rfl, key, value, hget, rfl⟩
    exact ⟨key, value, index, hget, ⟨rfl, rfl, rfl⟩, rfl⟩

end Site

/-- The entries listed are those that stand somewhere in the document. -/
theorem Document.mem_entries {d : Document} {a : Address} {e : Entry} :
    (a, e) ∈ d.entries ↔ d.entry? a = some e := by
  have hsite : (∃ site ∈ d.sites, (a, e) ∈ site.entries a.kind) ↔ d.entry? a = some e := by
    simp only [Site.mem_entries, sites, mem_sites, entry?, scope, Option.bind_eq_some_iff]
    constructor
    · rintro ⟨⟨groups, scope⟩, hscope, rfl, -, hentry⟩
      exact ⟨scope, hscope, hentry⟩
    · rintro ⟨scope, hscope, hentry⟩
      exact ⟨⟨a.groups, scope⟩, hscope, rfl, trivial, hentry⟩
  rw [← hsite]
  have hkind {kind : EntryKind} {site : Site} (hne : a.kind ≠ kind) :
      (a, e) ∉ site.entries kind := fun hmem => hne (Site.mem_entries.1 hmem).2.1
  simp only [entries, List.mem_append, List.mem_flatMap]
  cases h : a.kind <;> simp [h, hkind]

/-! ## The order of loading -/

mutual

theorem pairwise_sites (id : Ident) (offset : Point) :
    ∀ d : Document, (sites id offset d).Pairwise fun s t => s.groups < t.groups
  | ⟨_, _, _, _, _, groups⟩ => by
    rw [sites, List.pairwise_cons]
    refine ⟨fun site hsite => ?_, pairwise_groupSites 0 id offset groups⟩
    obtain ⟨i, -, -, -, inner, -, rfl⟩ := mem_groupSites.1 hsite
    exact List.nil_lt_cons _ _

theorem pairwise_groupSites (index : Nat) (id : Ident) (offset : Point) :
    ∀ groups : List (String × Document),
      (groupSites index id offset groups).Pairwise fun s t => s.groups < t.groups
  | [] => by simp [groupSites]
  | (name, d) :: rest => by
    rw [groupSites, List.pairwise_append]
    refine ⟨?_, pairwise_groupSites (index + 1) id offset rest, ?_⟩
    · rw [List.pairwise_map]
      exact (pairwise_sites _ _ d).imp fun h => List.cons_lt_cons_self.2 h
    · intro first hfirst second hsecond
      obtain ⟨inner, -, rfl⟩ := List.mem_map.1 hfirst
      obtain ⟨i, -, -, -, later, -, rfl⟩ := mem_groupSites.1 hsecond
      exact List.Lex.rel (by omega)

end

theorem Site.pairwise_entries (site : Site) (kind : EntryKind) :
    (site.entries kind).Pairwise fun p q => p.1.Before q.1 := by
  rw [entries, List.pairwise_map, List.pairwise_iff_getElem]
  intro i j hi hj hij
  simp only [List.getElem_zipIdx, Nat.zero_add]
  exact .inr ⟨rfl, .inr ⟨rfl, .inr ⟨rfl, hij⟩⟩⟩

/-- What is loaded in one go is loaded scope by scope. -/
theorem pairwise_flatMap_sites (d : Document) {f : Site → List (Address × Entry)} {stage : Nat}
    (hf : ∀ site, (f site).Pairwise fun p q => p.1.Before q.1)
    (hsite : ∀ site, ∀ p ∈ f site, p.1.groups = site.groups ∧ p.1.kind.stage = stage) :
    (d.sites.flatMap f).Pairwise fun p q => p.1.Before q.1 := by
  rw [List.pairwise_flatMap]
  refine ⟨fun site _ => hf site, (pairwise_sites _ _ d).imp ?_⟩
  intro s t hst p hp q hq
  obtain ⟨hgroups, hstage⟩ := hsite s p hp
  obtain ⟨hgroups', hstage'⟩ := hsite t q hq
  exact .inr ⟨hstage.trans hstage'.symm, .inl (by rwa [hgroups, hgroups'])⟩

/-- Entries are listed as they are loaded. -/
theorem Document.pairwise_entries (d : Document) :
    d.entries.Pairwise fun p q => p.1.Before q.1 := by
  have hkind {kind : EntryKind} {site : Site} {p : Address × Entry} (hp : p ∈ site.entries kind) :
      p.1.groups = site.groups ∧ p.1.kind = kind :=
    ⟨(Site.mem_entries.1 hp).1, (Site.mem_entries.1 hp).2.1⟩
  have hplaces (site : Site) {p : Address × Entry}
      (hp : p ∈ site.entries .vertex ++ site.entries .component) :
      p.1.groups = site.groups ∧ p.1.kind.stage = 0 := by
    rcases List.mem_append.1 hp with hp | hp <;> rw [(hkind hp).2] <;> exact ⟨(hkind hp).1, rfl⟩
  have hsections (site : Site) :
      (site.entries .vertex ++ site.entries .component).Pairwise fun p q => p.1.Before q.1 := by
    refine List.pairwise_append.2
      ⟨site.pairwise_entries _, site.pairwise_entries _, fun p hp q hq => ?_⟩
    obtain ⟨⟨hgroups, hvertex⟩, hgroups', hcomponent⟩ := And.intro (hkind hp) (hkind hq)
    rw [Address.Before, hgroups, hgroups', hvertex, hcomponent]
    exact .inr ⟨rfl, .inr ⟨rfl, .inl Nat.zero_lt_one⟩⟩
  have hedges (site : Site) {p : Address × Entry} (hp : p ∈ site.entries .edge) :
      p.1.groups = site.groups ∧ p.1.kind.stage = 1 := by
    rw [(hkind hp).2]
    exact ⟨(hkind hp).1, rfl⟩
  have hlabels (site : Site) {p : Address × Entry} (hp : p ∈ site.entries .label) :
      p.1.groups = site.groups ∧ p.1.kind.stage = 2 := by
    rw [(hkind hp).2]
    exact ⟨(hkind hp).1, rfl⟩
  rw [entries, List.pairwise_append, List.pairwise_append]
  simp only [List.mem_append, List.mem_flatMap]
  refine ⟨⟨pairwise_flatMap_sites d hsections fun site p => hplaces site,
    pairwise_flatMap_sites d (·.pairwise_entries _) fun site p => hedges site, ?_⟩,
    pairwise_flatMap_sites d (·.pairwise_entries _) fun site p => hlabels site, ?_⟩
  · rintro p ⟨s, -, hp⟩ q ⟨t, -, hq⟩
    left
    rw [(hplaces s (List.mem_append.2 hp)).2, (hedges t hq).2]
    decide
  · rintro p (⟨s, -, hp⟩ | ⟨s, -, hp⟩) q ⟨t, -, hq⟩
    · left
      rw [(hplaces s (List.mem_append.2 hp)).2, (hlabels t hq).2]
      decide
    · left
      rw [(hedges s hp).2, (hlabels t hq).2]
      decide

/-! ## The scopes of the loader -/

mutual

theorem scopes_eq_ok (id : Ident) (offset : Point) :
    ∀ d : Document, d.wellNamed = true →
      Description.scopes id offset d = .ok ((sites id offset d).map Site.scope)
  | ⟨_, _, _, _, _, groups⟩, h => by
    rw [scopes, groupScopes_eq_ok 0 id offset groups h, sites]
    rfl

theorem groupScopes_eq_ok (index : Nat) (id : Ident) (offset : Point) :
    ∀ groups : List (String × Document), groupsWellNamed groups = true →
      groupScopes id offset groups = .ok ((groupSites index id offset groups).map Site.scope)
  | [], _ => by rw [groupScopes, groupSites, List.map_nil]
  | (name, d) :: rest, h => by
    rw [groupsWellNamed, Bool.and_eq_true, Bool.and_eq_true] at h
    obtain ⟨⟨hname, hd⟩, hrest⟩ := h
    cases hown : Ident.parse name with
    | error fault =>
      rw [hown] at hname
      cases hname
    | ok own =>
      rw [groupScopes, hown, ← Ident.ofDotted_of_parse hown]
      change (do
        let here ← Description.scopes _ _ d
        let others ← groupScopes id offset rest
        return here ++ others) = _
      rw [scopes_eq_ok _ _ d hd, groupScopes_eq_ok (index + 1) id offset rest hrest, groupSites,
        List.map_append, List.map_map]
      rfl

end

end ConstraintLogic.Description
