import ConstraintLogic.Proofs.Circuit.Inside
/-!
# What compiling adds to a graph

A circuit is compiled into a graph if its text is a formula and none of its names is taken inside
the scope, and then the graph holds what it held before and the circuit as it is on its own, with
the scope before all names. Otherwise nothing is changed.
-/

namespace ConstraintLogic

/-- The label inside a scope, at another position. -/
def Label.within (scope : Ident) (position : Point) (l : Label) : Label :=
  { l with id := scope.join l.id, position := position }

/-! ## Registries -/

namespace Registry

variable {α : Type} {t t' s : Registry α} {scope : Ident} {copy : α → α → Prop}

/-- No name of other entries is taken inside the scope. -/
def HasRoom (t : Registry α) (scope : Ident) (s : Registry α) : Prop :=
  ∀ id ∈ s, scope.join id ∉ t

/-- The entries of one registry and, inside the scope, copies of those of another one. -/
structure Joins (t' t : Registry α) (scope : Ident) (s : Registry α) (copy : α → α → Prop) :
    Prop where
  kept : ∀ (id : Ident) (a : α), t[id]? = some a → t'[id]? = some a
  added : ∀ (id : Ident) (a : α), s[id]? = some a →
    ∃ a', t'[scope.join id]? = some a' ∧ copy a a'
  only : ∀ id ∈ t', id ∈ t ∨ ∃ inner ∈ s, scope.join inner = id

section Entries

variable {l l' : List α} {key : α → Ident} {f f' : α → α}

theorem hasRoom_iff (hids : l'.map key = (l.map key).map scope.join) :
    HasRoom t scope ((∅ : Registry α).insertMany (l.map fun a => (key a, f a))) ↔
      ∀ a' ∈ l', key a' ∉ t := by
  have hkeys : (∀ id ∈ l'.map key, id ∉ t) ↔ ∀ a' ∈ l', key a' ∉ t := List.forall_mem_map
  rw [← hkeys, hids, List.forall_mem_map, HasRoom]
  simp only [mem_insertMany_map, Std.ExtTreeMap.not_mem_empty, false_or]

/-- Entries that are put in where there is room for them join those that are there. -/
theorem joins_insertMany (hnodup : (l'.map key).Nodup)
    (hids : l'.map key = (l.map key).map scope.join) (hfree : ∀ a' ∈ l', key a' ∉ t)
    (hcopy : ∀ a ∈ l, ∃ a' ∈ l', key a' = scope.join (key a) ∧ copy (f a) (f' a')) :
    Joins (t.insertMany (l'.map fun a' => (key a', f' a'))) t scope
      ((∅ : Registry α).insertMany (l.map fun a => (key a, f a))) copy where
  kept id a ha := by
    have hother : id ∉ l'.map key := by
      intro hid
      obtain ⟨a', ha', rfl⟩ := List.mem_map.1 hid
      exact hfree a' ha' (mem_of_getElem? ha)
    rw [getElem?_insertMany_map_of_not_mem hother, ha]
  added id b hb := by
    rw [hids] at hnodup
    obtain ⟨a, ha, rfl, rfl⟩ := (getElem?_insertMany_empty_map hnodup.of_map).1 hb
    obtain ⟨a', ha', hkey, hsame⟩ := hcopy a ha
    rw [← hids] at hnodup
    exact ⟨f' a', hkey ▸ getElem?_insertMany_map_of_mem hnodup ha', hsame⟩
  only id hid := by
    refine (mem_insertMany_map.1 hid).imp_right fun hnew => ?_
    rw [hids] at hnew
    obtain ⟨inner, hinner, rfl⟩ := List.mem_map.1 hnew
    exact ⟨inner, mem_insertMany_map.2 (.inr hinner), rfl⟩

end Entries

end Registry

/-! ## Graphs -/

namespace Graph

variable {g alone : Graph} {scope : Ident} {offset : Point} {ps : List Part}

/-- No name of another graph is taken inside the scope. -/
structure HasRoom (g : Graph) (scope : Ident) (alone : Graph) : Prop where
  vertices : Registry.HasRoom g.vertices scope alone.vertices
  edges : Registry.HasRoom g.edges scope alone.edges
  components : Registry.HasRoom g.components scope alone.components
  labels : Registry.HasRoom g.labels scope alone.labels

/-- The graph holds everything of one graph as it is there, everything of another one inside the
scope, apart from positions, and nothing else. -/
structure Joins (built g : Graph) (scope : Ident) (alone : Graph) : Prop where
  vertices : Registry.Joins built.vertices g.vertices scope alone.vertices
    fun v v' => ∃ position, v' = v.within scope position
  edges : Registry.Joins built.edges g.edges scope alone.edges fun e e' => e' = e.within scope
  components : Registry.Joins built.components g.components scope alone.components
    fun c c' => ∃ position, c' = c.within scope position
  labels : Registry.Joins built.labels g.labels scope alone.labels
    fun l l' => ∃ position, l' = l.within scope position
  revision : built.revision = g.revision + alone.revision
  changed : built.changed = (g.changed || alone.changed)

theorem exists_label_inside (scope : Ident) (offset : Point) {l : Label}
    (hl : l ∈ ps.flatMap (Part.labels .root .origin)) :
    ∃ position, l.within scope position ∈ ps.flatMap (Part.labels scope offset) := by
  obtain ⟨p, hp, hl⟩ := List.mem_flatMap.1 hl
  cases p with
  | vertex | edge | component => cases hl
  | label id position text =>
    obtain rfl := List.mem_singleton.1 hl
    refine ⟨offset + position, List.mem_flatMap.2 ⟨_, hp, ?_⟩⟩
    simp [Part.labels, Label.within]

theorem hasRoom_withParts :
    g.HasRoom scope ((∅ : Graph).withParts .root .origin ps) ↔ g.IsFree scope offset ps := by
  constructor
  · rintro ⟨hvertices, hedges, hcomponents, hlabels⟩
    exact ⟨(Registry.hasRoom_iff (ids_vertices_inside scope offset ps)).1 hvertices,
      (Registry.hasRoom_iff (ids_edges_inside scope ps)).1 hedges,
      (Registry.hasRoom_iff (ids_components_inside scope offset ps)).1 hcomponents,
      (Registry.hasRoom_iff (ids_labels_inside scope offset ps)).1 hlabels⟩
  · rintro ⟨hvertices, hedges, hcomponents, hlabels⟩
    exact ⟨(Registry.hasRoom_iff (ids_vertices_inside scope offset ps)).2 hvertices,
      (Registry.hasRoom_iff (ids_edges_inside scope ps)).2 hedges,
      (Registry.hasRoom_iff (ids_components_inside scope offset ps)).2 hcomponents,
      (Registry.hasRoom_iff (ids_labels_inside scope offset ps)).2 hlabels⟩

theorem joins_withParts (h : Coherent .root .origin ps) (hfree : g.IsFree scope offset ps) :
    (g.withParts scope offset ps).Joins g scope ((∅ : Graph).withParts .root .origin ps) where
  vertices := by
    refine Registry.joins_insertMany h.inside.vertices (ids_vertices_inside scope offset ps)
      hfree.vertices ?_
    intro v hv
    obtain ⟨position, hcopy⟩ := exists_vertex_inside scope offset hv
    refine ⟨_, hcopy, rfl, position, ?_⟩
    rw [flatMap_edges_inside, ← Vertex.within_listAll]
  edges := by
    have hcoherent : Coherent scope offset ps := h.inside
    refine Registry.joins_insertMany hcoherent.edges (ids_edges_inside scope ps) hfree.edges ?_
    intro e he
    refine ⟨e.within scope, ?_, rfl, rfl⟩
    rw [flatMap_edges_inside]
    exact List.mem_map_of_mem he
  components := by
    refine Registry.joins_insertMany h.inside.components (ids_components_inside scope offset ps)
      hfree.components ?_
    intro c hc
    obtain ⟨position, hcopy⟩ := exists_component_inside scope offset hc
    exact ⟨_, hcopy, rfl, position, rfl⟩
  labels := by
    refine Registry.joins_insertMany h.inside.labels (ids_labels_inside scope offset ps)
      hfree.labels ?_
    intro l hl
    obtain ⟨position, hcopy⟩ := exists_label_inside scope offset hl
    exact ⟨_, hcopy, rfl, position, rfl⟩
  revision := congrArg (g.revision + ·) (Nat.zero_add _).symm
  changed := rfl

end Graph

/-! ## Circuits -/

namespace Circuit

variable {text : String} {q : Qbf} {g : Graph} {scope : Ident} {offset : Point}

/-- A text that is no formula and a name that is taken are the two reasons why a circuit is not
compiled, and then the graph stays as it was. Otherwise it is joined by the circuit as it is
compiled on its own. -/
theorem compileInto_joins (g : Graph) (scope : Ident) (offset : Point) (text : String) :
    match Qbf.parse text with
    | .error fault => (compileInto scope offset text).run g = .error fault g
    | .ok q => ∃ alone, compile text = .ok alone ∧
        (g.HasRoom scope alone → ∃ built,
          (compileInto scope offset text).run g = .ok (within scope q) built ∧
            built.Joins g scope alone) ∧
        (¬g.HasRoom scope alone → ∃ fault,
          (compileInto scope offset text).run g = .error fault g) := by
  rw [run_compileInto]
  cases hq : Qbf.parse text with
  | error fault => rfl
  | ok q =>
    have hcoherent := coherent_plan (Qbf.isProper_of_parse hq)
    refine ⟨_, compile_of_parse hq, fun hroom => ?_, fun hroom => ?_⟩
    · have hfree : g.IsFree scope offset (plan q) := Graph.hasRoom_withParts.1 hroom
      have hbuild : (build scope offset q).run g = .ok () (g.withParts scope offset (plan q)) :=
        run_forM_place hcoherent.inside hfree
      simp only [hbuild]
      exact ⟨_, rfl, Graph.joins_withParts hcoherent hfree⟩
    · cases hbuild : (build scope offset q).run g with
      | ok _ built =>
        exact absurd
          (Graph.hasRoom_withParts.2 (isFree_of_run_forM_place hcoherent.inside hbuild)) hroom
      | error fault mid =>
        simp only [hbuild]
        exact ⟨fault, rfl⟩

/-- The copycat formula next to a lone gadget; there is no room for a second copy. -/
theorem compileInto_joins_copycat :
    ∃ alone built fault, compile "forall x exists y : (x||!y)&&(!x||y)" = .ok alone ∧
      (compileInto ⟨["inner"]⟩ ⟨8, 0⟩ "forall x exists y : (x||!y)&&(!x||y)").run
        Graph.loneUniversal = .ok (within ⟨["inner"]⟩ Qbf.copycat) built ∧
      built.Joins Graph.loneUniversal ⟨["inner"]⟩ alone ∧
      (compileInto ⟨["inner"]⟩ .origin "forall x exists y : (x||!y)&&(!x||y)").run built =
        .error fault built := by
  have hfirst := compileInto_joins Graph.loneUniversal ⟨["inner"]⟩ ⟨8, 0⟩
    "forall x exists y : (x||!y)&&(!x||y)"
  rw [Qbf.parse_copycat] at hfirst
  obtain ⟨alone, halone, hroom, -⟩ := hfirst
  obtain rfl := Except.ok.inj ((compile_of_parse Qbf.parse_copycat).symm.trans halone)
  have hfree : Graph.loneUniversal.IsFree ⟨["inner"]⟩ .origin (plan Qbf.copycat) :=
    Graph.isFree_of_avoids (by decide +kernel)
  obtain ⟨built, hbuilt, hjoins⟩ := hroom (Graph.hasRoom_withParts.2 hfree)
  have hsecond := compileInto_joins built ⟨["inner"]⟩ .origin "forall x exists y : (x||!y)&&(!x||y)"
  rw [Qbf.parse_copycat] at hsecond
  obtain ⟨alone, halone', -, hfull⟩ := hsecond
  obtain rfl := Except.ok.inj (halone'.symm.trans halone)
  have hlabel : (⟨["label", "sat"]⟩ : Ident) ∈
      ((∅ : Graph).withParts .root .origin (plan Qbf.copycat)).labels := by
    rw [Graph.withParts, Registry.mem_insertMany_map,
      labels_plan (Qbf.isProper_of_parse Qbf.parse_copycat)]
    decide
  obtain ⟨l, hl⟩ := Registry.mem_iff_exists.1 hlabel
  obtain ⟨l', hl', -⟩ := hjoins.labels.added _ l hl
  obtain ⟨fault, hfault⟩ := hfull fun hroom =>
    hroom.labels _ hlabel (Registry.mem_of_getElem? hl')
  exact ⟨_, built, fault, halone, hbuilt, hjoins, hfault⟩

end Circuit

end ConstraintLogic
