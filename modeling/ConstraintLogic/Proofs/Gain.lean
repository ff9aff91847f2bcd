import ConstraintLogic.Proofs.Circuit.Addition
import ConstraintLogic.Proofs.Formula.Written
/-!
# What a graph gains

One graph holds what another one holds and entities of certain names besides, none of which was
taken there. Vertices that were there may have got new edges, and nothing else of what was there is
different. Every edit that adds to a graph leads to such a graph, and it stays one while what is
new in it is changed.
-/

namespace ConstraintLogic

/-- The vertex without the edges that it lists. -/
def Vertex.bare (v : Vertex) : Vertex :=
  { v with edges := ∅ }

/-! ## Ports -/

namespace Gadget

/-- The ports of an evaluator for letters, without their places. -/
def evaluatorPorts (letters : List Char) : List EvaluatorPort :=
  letters.flatMap (fun c => [.literal (.positive c), .literal (.negative c)]) ++ [.satisfied]

theorem nodup_evaluatorPorts {letters : List Char} (h : letters.Nodup) :
    (evaluatorPorts letters).Nodup := by
  have hplaces : (evaluatorPorts letters).map Circuit.Place.evaluator =
      Circuit.literalPlaces letters ++ [.evaluator .satisfied] := by
    rw [evaluatorPorts, List.map_append, List.map_flatMap]
    rfl
  refine List.Nodup.of_map Circuit.Place.evaluator ?_
  rw [hplaces, List.nodup_append]
  refine ⟨Circuit.nodup_literalPlaces h, List.nodup_singleton _, ?_⟩
  rintro p hp _ hresult rfl
  rw [List.mem_singleton] at hresult
  obtain ⟨l, -, hliteral⟩ := Circuit.mem_literalPlaces.1 (hresult ▸ hp)
  simp at hliteral

theorem portNames_evaluator (owner : Ident) (f : Cnf) :
    ((evaluator f).ports owner).map PortPlan.name =
      (evaluatorPorts f.letters).map EvaluatorPort.name := by
  have hletters : f.letters.zipIdx.flatMap
      (fun entry => (letterPorts owner entry.1 entry.2).map PortPlan.name) =
      (f.letters.zipIdx.map Prod.fst).flatMap
        (fun c => [EvaluatorPort.literal (.positive c), .literal (.negative c)].map
          EvaluatorPort.name) := by
    rw [List.flatMap_map]
    rfl
  rw [List.zipIdx_map_fst] at hletters
  rw [ports, evaluatorPorts, List.map_append, List.map_flatMap, List.map_append, List.map_flatMap,
    ← hletters]
  rfl

/-- The ports of a gadget have different names. -/
theorem nodup_portNames {blueprint : Blueprint} {k : Gadget} (hk : ofBlueprint blueprint = .ok k)
    (owner : Ident) : ((k.ports owner).map PortPlan.name).Nodup := by
  have hquantifier : (QuantifierPort.all.map QuantifierPort.name).Nodup := by decide
  cases blueprint with
  | converter =>
    obtain rfl := Except.ok.inj hk
    exact List.nodup_singleton _
  | existential letter | universal letter =>
    obtain rfl := Except.ok.inj hk
    rw [ports, List.map_map]
    exact hquantifier
  | evaluator formula =>
    cases hf : Cnf.parse formula with
    | error fault =>
      rw [ofBlueprint, hf] at hk
      cases hk
    | ok f =>
      obtain rfl : evaluator f = k := by
        rw [ofBlueprint, hf] at hk
        exact Except.ok.inj hk
      rw [portNames_evaluator]
      exact (nodup_evaluatorPorts (Cnf.parse_eq_ok_iff_spells.1 hf).letters.nodup).map
        fun _ _ h => Circuit.evaluatorPort_name_injective h

end Gadget

/-! ## Registries -/

namespace Registry

variable {α : Type} {t t' t'' : Registry α} {new new' : Ident → Prop} {same : α → α → Prop}

/-- The entries of one registry, as far as a relation tells, and entries under new names. -/
structure Adds (t' t : Registry α) (new : Ident → Prop) (same : α → α → Prop) : Prop where
  kept : ∀ (id : Ident) (a : α), t[id]? = some a → ∃ a', t'[id]? = some a' ∧ same a a'
  free : ∀ id, new id → id ∉ t
  mem : ∀ id, id ∈ t' ↔ id ∈ t ∨ new id

theorem adds_self (hsame : ∀ a, same a a) (hnone : ∀ id, ¬new id) : t.Adds t new same where
  kept _ a ha := ⟨a, ha, hsame a⟩
  free id hid := absurd hid (hnone id)
  mem id := by simp [hnone]

theorem adds_insertMany {l : List α} {key : α → Ident} (hsame : ∀ a, same a a)
    (hfree : ∀ a ∈ l, key a ∉ t) :
    Adds (t.insertMany (l.map fun a => (key a, a))) t (· ∈ l.map key) same where
  kept id a ha := by
    have hother : id ∉ l.map key := by
      intro hid
      obtain ⟨b, hb, rfl⟩ := List.mem_map.1 hid
      exact hfree b hb (mem_of_getElem? ha)
    exact ⟨a, by rw [getElem?_insertMany_map_of_not_mem hother, ha], hsame a⟩
  free id hid := by
    obtain ⟨b, hb, rfl⟩ := List.mem_map.1 hid
    exact hfree b hb
  mem _ := mem_insertMany_map

theorem adds_insert {id : Ident} {a : α} (hsame : ∀ a, same a a) (hfree : id ∉ t) :
    Adds (t.insert id a) t (· = id) same where
  kept key b hb := by
    have hne : id ≠ key := fun heq => hfree (heq ▸ mem_of_getElem? hb)
    exact ⟨b, by rw [Std.ExtTreeMap.getElem?_insert, if_neg (by rwa [compare_eq_iff]), hb], hsame b⟩
  free key hkey := hkey ▸ hfree
  mem key := by
    rw [Std.ExtTreeMap.mem_insert, compare_eq_iff, or_comm, eq_comm]

/-- What is new may change. -/
theorem Adds.insert (h : t'.Adds t new same) {id : Ident} (hid : new id) (a : α) :
    Adds (t'.insert id a) t new same where
  kept key b hb := by
    have hne : id ≠ key := fun heq => h.free id hid (heq ▸ mem_of_getElem? hb)
    obtain ⟨b', hb', hsame⟩ := h.kept key b hb
    refine ⟨b', ?_, hsame⟩
    rw [Std.ExtTreeMap.getElem?_insert, if_neg (by rwa [compare_eq_iff]), hb']
  free := h.free
  mem key := by
    rw [Std.ExtTreeMap.mem_insert, compare_eq_iff, ← h.mem]
    refine or_iff_right_of_imp ?_
    rintro rfl
    exact (h.mem id).2 (.inr hid)

theorem Adds.trans (hsame : ∀ a b c, same a b → same b c → same a c) (h : t'.Adds t new same)
    (h' : t''.Adds t' new' same) : t''.Adds t (fun id => new id ∨ new' id) same where
  kept id a ha := by
    obtain ⟨b, hb, hab⟩ := h.kept id a ha
    obtain ⟨c, hc, hbc⟩ := h'.kept id b hb
    exact ⟨c, hc, hsame a b c hab hbc⟩
  free id hid := by
    rcases hid with hid | hid
    · exact h.free id hid
    · exact fun hold => h'.free id hid ((h.mem id).2 (.inl hold))
  mem id := by rw [h'.mem, h.mem, or_assoc]

theorem Adds.congr (h : t'.Adds t new same) (hnew : ∀ id, new id ↔ new' id) :
    t'.Adds t new' same := by
  obtain rfl : new = new' := funext fun id => propext (hnew id)
  exact h

/-- Entries that were joined by copies of others have gained their names. -/
theorem Joins.adds {s : Registry α} {scope : Ident} {copy : α → α → Prop}
    (hsame : ∀ a, same a a) (h : t'.Joins t scope s copy) (hroom : t.HasRoom scope s) :
    t'.Adds t (fun id => ∃ inner ∈ s, scope.join inner = id) same where
  kept id a ha := ⟨a, h.kept id a ha, hsame a⟩
  free id hid := by
    obtain ⟨inner, hinner, rfl⟩ := hid
    exact hroom inner hinner
  mem id := by
    refine ⟨h.only id, ?_⟩
    rintro (hid | ⟨inner, hinner, rfl⟩)
    · obtain ⟨a, ha⟩ := mem_iff_exists.1 hid
      exact mem_of_getElem? (h.kept id a ha)
    · obtain ⟨a, ha⟩ := mem_iff_exists.1 hinner
      obtain ⟨a', ha', -⟩ := h.added inner a ha
      exact mem_of_getElem? ha'

end Registry

/-! ## Graphs -/

namespace Graph

variable {g next last : Graph} {new new' : EntityKind → Ident → Prop}

/-- There is an entity of the kind under the name. -/
def Has (g : Graph) : EntityKind → Ident → Prop
  | .vertex, id => id ∈ g.vertices
  | .edge, id => id ∈ g.edges
  | .component, id => id ∈ g.components
  | .label, id => id ∈ g.labels

/-- The graph holds what another one holds, apart from edges that vertices list, and entities under
new names. -/
structure Adds (next g : Graph) (new : EntityKind → Ident → Prop) : Prop where
  vertices : next.vertices.Adds g.vertices (new .vertex) fun v v' => v'.bare = v.bare
  edges : next.edges.Adds g.edges (new .edge) fun e e' => e' = e
  components : next.components.Adds g.components (new .component) fun c c' => c' = c
  labels : next.labels.Adds g.labels (new .label) fun l l' => l' = l

namespace Adds

theorem has (h : next.Adds g new) (kind : EntityKind) (id : Ident) :
    next.Has kind id ↔ g.Has kind id ∨ new kind id := by
  cases kind
  · exact h.vertices.mem id
  · exact h.edges.mem id
  · exact h.components.mem id
  · exact h.labels.mem id

theorem not_has (h : next.Adds g new) {kind : EntityKind} {id : Ident} (hid : new kind id) :
    ¬g.Has kind id := by
  cases kind
  · exact h.vertices.free id hid
  · exact h.edges.free id hid
  · exact h.components.free id hid
  · exact h.labels.free id hid

theorem touch (h : next.Adds g new) : next.touch.Adds g new :=
  ⟨h.vertices, h.edges, h.components, h.labels⟩

theorem congr (h : next.Adds g new) (hnew : ∀ kind id, new kind id ↔ new' kind id) :
    next.Adds g new' :=
  ⟨h.vertices.congr (hnew _), h.edges.congr (hnew _), h.components.congr (hnew _),
    h.labels.congr (hnew _)⟩

theorem self (hnone : ∀ kind id, ¬new kind id) : g.Adds g new :=
  ⟨Registry.adds_self (fun _ => rfl) (hnone _), Registry.adds_self (fun _ => rfl) (hnone _),
    Registry.adds_self (fun _ => rfl) (hnone _), Registry.adds_self (fun _ => rfl) (hnone _)⟩

theorem trans (h : next.Adds g new) (h' : last.Adds next new') :
    last.Adds g fun kind id => new kind id ∨ new' kind id where
  vertices := h.vertices.trans (fun _ _ _ hab hbc => hbc.trans hab) h'.vertices
  edges := h.edges.trans (fun _ _ _ hab hbc => hbc.trans hab) h'.edges
  components := h.components.trans (fun _ _ _ hab hbc => hbc.trans hab) h'.components
  labels := h.labels.trans (fun _ _ _ hab hbc => hbc.trans hab) h'.labels

variable {id : Ident}

theorem bare_vertex (h : next.Adds g new) {v : Vertex}
    (hv : g.vertices[id]?.map Vertex.bare = some v) :
    next.vertices[id]?.map Vertex.bare = some v := by
  obtain ⟨u, hu, rfl⟩ := Option.map_eq_some_iff.1 hv
  obtain ⟨u', hu', hsame⟩ := h.vertices.kept id u hu
  rw [hu', Option.map_some, hsame]

theorem edge (h : next.Adds g new) {e : Edge} (he : g.edges[id]? = some e) :
    next.edges[id]? = some e := by
  obtain ⟨_, he', rfl⟩ := h.edges.kept id e he
  exact he'

theorem component (h : next.Adds g new) {c : Component} (hc : g.components[id]? = some c) :
    next.components[id]? = some c := by
  obtain ⟨_, hc', rfl⟩ := h.components.kept id c hc
  exact hc'

theorem label (h : next.Adds g new) {l : Label} (hl : g.labels[id]? = some l) :
    next.labels[id]? = some l := by
  obtain ⟨_, hl', rfl⟩ := h.labels.kept id l hl
  exact hl'

end Adds

/-! ## Additions -/

/-- The name is that of the one entity. -/
def Only (kind : EntityKind) (id : Ident) (kind' : EntityKind) (id' : Ident) : Prop :=
  kind' = kind ∧ id' = id

/-- The name is that of a gadget or of one of its ports. -/
def OnlyGadget (id : Ident) (k : Gadget) : EntityKind → Ident → Prop
  | .component, id' => id' = id
  | .vertex, id' => ∃ plan ∈ k.ports id, id.child plan.name = id'
  | .edge, _ | .label, _ => False

private theorem adds_unchanged {α : Type} {t : Registry α} {kind kind' : EntityKind} {id : Ident}
    {same : α → α → Prop} (hsame : ∀ a, same a a) (hne : kind' ≠ kind) :
    t.Adds t (Only kind id kind') same :=
  Registry.adds_self hsame fun _ h => hne h.1

private theorem adds_inserted {α : Type} {t : Registry α} {kind : EntityKind} {id : Ident} {a : α}
    {same : α → α → Prop} (hsame : ∀ a, same a a) (hfree : id ∉ t) :
    Registry.Adds (t.insert id a) t (Only kind id kind) same :=
  (Registry.adds_insert hsame hfree).congr fun id' => by simp [Only]

theorem adds_putVertex {v : Vertex} (hfree : v.id ∉ g.vertices) :
    (g.putVertex v).Adds g (Only .vertex v.id) where
  vertices := adds_inserted (fun _ => rfl) hfree
  edges := adds_unchanged (fun _ => rfl) nofun
  components := adds_unchanged (fun _ => rfl) nofun
  labels := adds_unchanged (fun _ => rfl) nofun

theorem adds_putEdge {e : Edge} (hfree : e.id ∉ g.edges) :
    (g.putEdge e).Adds g (Only .edge e.id) where
  vertices := by
    refine ⟨fun id v hv => ?_, fun id hid => absurd hid.1 nofun, fun id => ?_⟩
    · rw [getElem?_vertices_putEdge, hv, Option.map_some]
      refine ⟨_, rfl, ?_⟩
      split <;> rfl
    · rw [Std.ExtTreeMap.mem_iff_isSome_getElem?, getElem?_vertices_putEdge, Option.isSome_map,
        ← Std.ExtTreeMap.mem_iff_isSome_getElem?]
      simp [Only]
  edges := adds_inserted (fun _ => rfl) hfree
  components := adds_unchanged (fun _ => rfl) nofun
  labels := adds_unchanged (fun _ => rfl) nofun

theorem adds_putLabel {l : Label} (hfree : l.id ∉ g.labels) :
    { g with labels := g.labels.insert l.id l }.Adds g (Only .label l.id) where
  vertices := adds_unchanged (fun _ => rfl) nofun
  edges := adds_unchanged (fun _ => rfl) nofun
  components := adds_unchanged (fun _ => rfl) nofun
  labels := adds_inserted (fun _ => rfl) hfree

theorem adds_putComponent {id : Ident} {position : Point} {k : Gadget}
    (hfree : id ∉ g.components) (hports : ∀ plan ∈ k.ports id, id.child plan.name ∉ g.vertices) :
    (g.putComponent (.ofGadget id position k)).Adds g (OnlyGadget id k) := by
  rw [putComponent_eq]
  refine ⟨?_, Registry.adds_self (fun _ => rfl) nofun,
    Registry.adds_insert (fun _ => rfl) hfree, Registry.adds_self (fun _ => rfl) nofun⟩
  have hnew : ∀ v ∈ (k.ports id).map fun plan => plan.vertex id position, v.id ∉ g.vertices := by
    simpa [PortPlan.vertex, Vertex.isolated] using hports
  refine Registry.Adds.congr (Registry.adds_insertMany (fun _ => rfl) hnew) fun id' => ?_
  simp [OnlyGadget, Component.ofGadget, PortPlan.vertex, Vertex.isolated]

/-- All ports of a gadget are put into the graph. -/
theorem getElem?_vertices_putComponent {id : Ident} {position : Point} {blueprint : Blueprint}
    {k : Gadget} (hk : Gadget.ofBlueprint blueprint = .ok k) {plan : PortPlan}
    (hplan : plan ∈ k.ports id) :
    (g.putComponent (.ofGadget id position k)).vertices[id.child plan.name]? =
      some (plan.vertex id position) := by
  have hids : (((k.ports id).map fun plan => plan.vertex id position).map Vertex.id).Nodup := by
    have hchild : Function.Injective id.child := fun a b h => by simpa [Ident.child] using h
    have hnames := (Gadget.nodup_portNames hk id).map hchild
    rw [List.map_map] at hnames ⊢
    exact hnames
  rw [putComponent_eq]
  exact Registry.getElem?_insertMany_map_of_mem (f := fun v => v) hids (List.mem_map_of_mem hplan)

/-- A graph that is joined by another one inside a scope gains its names. -/
theorem Joins.adds {built alone : Graph} {scope : Ident} (h : built.Joins g scope alone)
    (hroom : g.HasRoom scope alone) :
    built.Adds g fun kind id => ∃ inner, alone.Has kind inner ∧ scope.join inner = id where
  vertices := h.vertices.adds (fun _ => rfl) hroom.vertices
  edges := h.edges.adds (fun _ => rfl) hroom.edges
  components := h.components.adds (fun _ => rfl) hroom.components
  labels := h.labels.adds (fun _ => rfl) hroom.labels

end Graph

end ConstraintLogic
