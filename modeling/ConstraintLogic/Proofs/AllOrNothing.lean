import ConstraintLogic.Proofs.Gain
/-!
# All or nothing

An addition to a graph is refused with the graph as it was, or the graph gains what was asked for.
What is new may then be changed without being refused, so that several calls are all or nothing
too. A circuit is compiled into a graph in this way, however many parts it has.
-/

namespace ConstraintLogic

open ConstraintLogic.Graph

namespace Edit

variable {α β : Type} {g : Graph} {P : α → Graph → Prop} {Q : β → Graph → Prop}

/-- The edit is refused with the graph as it was, or leads to what is said. -/
def AllOrNothing (act : Edit α) (g : Graph) (P : α → Graph → Prop) : Prop :=
  (∃ fault, act.run g = .error fault g) ∨ ∃ a next, act.run g = .ok a next ∧ P a next

/-- What cannot be refused any more may follow. -/
theorem AllOrNothing.bind {act : Edit α} {f : α → Edit β} (h : act.AllOrNothing g P)
    (hf : ∀ a next, P a next → ∃ b last, (f a).run next = .ok b last ∧ Q b last) :
    (act >>= f).AllOrNothing g Q := by
  rcases h with ⟨fault, hrun⟩ | ⟨a, next, hrun, hP⟩
  · exact .inl ⟨fault, by rw [EStateM.run_bind, hrun]⟩
  · obtain ⟨b, last, hrest, hQ⟩ := hf a next hP
    exact .inr ⟨b, last, by rw [EStateM.run_bind, hrun]; exact hrest, hQ⟩

/-- What looks at nothing but its arguments may come first. -/
theorem allOrNothing_ofExcept_bind {outcome : Except Fault α} {f : α → Edit β}
    (h : ∀ a, outcome = .ok a → (f a).AllOrNothing g Q) :
    (ofExcept outcome >>= f : Edit β).AllOrNothing g Q := by
  cases outcome with
  | error fault => exact .inl ⟨fault, rfl⟩
  | ok a => exact h a rfl

theorem allOrNothing_get_bind {f : Graph → Edit β} (h : (f g).AllOrNothing g Q) :
    (get >>= f).AllOrNothing g Q :=
  h

theorem AllOrNothing.discard {act : Edit α} (h : act.AllOrNothing g P) :
    (discard act : Edit Unit).AllOrNothing g fun _ next => ∃ a, P a next := by
  rcases h with ⟨fault, hrun⟩ | ⟨a, next, hrun, hP⟩
  · exact .inl ⟨fault, by rw [run_discard, hrun]⟩
  · exact .inr ⟨(), next, by rw [run_discard, hrun], a, hP⟩

theorem AllOrNothing.of_run {act : Edit α} {a : α} {next : Graph} (h : act.AllOrNothing g P)
    (hrun : act.run g = .ok a next) : P a next := by
  rcases h with ⟨fault, hrun'⟩ | ⟨_, _, hrun', hP⟩
  · cases hrun.symm.trans hrun'
  · cases hrun.symm.trans hrun'
    exact hP

theorem AllOrNothing.mono {act : Edit α} {P' : α → Graph → Prop} (h : act.AllOrNothing g P)
    (hP : ∀ a next, P a next → P' a next) : act.AllOrNothing g P' :=
  h.imp_right fun ⟨a, next, hrun, hnext⟩ => ⟨a, next, hrun, hP a next hnext⟩

/-! ## Single additions -/

theorem allOrNothing_addVertex (id : Ident) (position : Point) (visible : Bool) :
    (addVertex id position visible).AllOrNothing g fun _ next =>
      next.Adds g (Only .vertex id) ∧
        next.vertices[id]? = some (.isolated id position visible .plain) := by
  have hrun := run_addVertex id position visible g
  split_ifs at hrun with hroot hfree
  · exact .inl ⟨_, hrun⟩
  · exact .inl ⟨_, hrun⟩
  · exact .inr ⟨_, _, hrun, (adds_putVertex (v := .isolated id _ _ _) hfree).touch,
      Std.ExtTreeMap.getElem?_insert_self⟩

theorem allOrNothing_addEdge (id source target : Ident) (weight : Weight) :
    (addEdge id source target weight).AllOrNothing g fun _ next =>
      next.Adds g (Only .edge id) ∧
        next.edges[id]? = some ⟨id, source, target, weight, false, false⟩ := by
  have hrun := run_addEdge id source target weight g
  split_ifs at hrun with hroot hfree hsource htarget
  · exact .inl ⟨_, hrun⟩
  · exact .inl ⟨_, hrun⟩
  · exact .inr ⟨_, _, hrun, (adds_putEdge (e := ⟨id, _, _, _, _, _⟩) hfree).touch,
      Std.ExtTreeMap.getElem?_insert_self⟩
  · exact .inl ⟨_, hrun⟩
  · exact .inl ⟨_, hrun⟩

theorem allOrNothing_addLabel (id : Ident) (position : Point) (text : String)
    (halign valign : Align) :
    (addLabel id position text halign valign).AllOrNothing g fun _ next =>
      next.Adds g (Only .label id) ∧
        next.labels[id]? = some ⟨id, position, text, halign, valign⟩ := by
  have hrun := run_addLabel id position text halign valign g
  split_ifs at hrun with hroot hfree
  · exact .inl ⟨_, hrun⟩
  · exact .inl ⟨_, hrun⟩
  · exact .inr ⟨_, _, hrun, (adds_putLabel (l := ⟨id, _, _, _, _⟩) hfree).touch,
      Std.ExtTreeMap.getElem?_insert_self⟩

/-- A gadget comes with all its ports. -/
theorem allOrNothing_addComponent (id : Ident) (position : Point) (blueprint : Blueprint) :
    (addComponent id position blueprint).AllOrNothing g fun _ next =>
      ∃ k, Gadget.ofBlueprint blueprint = .ok k ∧ next.Adds g (OnlyGadget id k) ∧
        next.components[id]? = some (.ofGadget id position k) ∧
        ∀ plan ∈ k.ports id,
          next.vertices[id.child plan.name]? = some (plan.vertex id position) := by
  have hrun := run_addComponent id position blueprint g
  split_ifs at hrun with hroot hfree
  · exact .inl ⟨_, hrun⟩
  · exact .inl ⟨_, hrun⟩
  · cases hk : Gadget.ofBlueprint blueprint with
    | error fault =>
      rw [hk] at hrun
      exact .inl ⟨_, hrun⟩
    | ok k =>
      cases hfind : (k.ports id).find? fun plan => id.child plan.name ∈ g.vertices with
      | some plan =>
        simp only [hk, hfind] at hrun
        exact .inl ⟨_, hrun⟩
      | none =>
        simp only [hk, hfind] at hrun
        have hports : ∀ plan ∈ k.ports id, id.child plan.name ∉ g.vertices := by
          simpa using List.find?_eq_none.1 hfind
        refine .inr ⟨_, _, hrun, k, rfl, (adds_putComponent hfree hports).touch,
          Std.ExtTreeMap.getElem?_insert_self,
          fun plan hplan => getElem?_vertices_putComponent hk hplan⟩

/-! ## Changing what is new -/

section New

variable {next : Graph} {new : EntityKind → Ident → Prop} {id : Ident}

theorem exists_run_setVertexMuted (h : next.Adds g new) (hid : new .vertex id) {v : Vertex}
    (hv : next.vertices[id]? = some v) (muted : Bool) :
    ∃ last, (setVertexMuted id muted).run next = .ok () last ∧ last.Adds g new ∧
      last.vertices[id]? = some { v with muted := muted } := by
  refine ⟨_, by rw [run_setVertexMuted, hv], ?_, Std.ExtTreeMap.getElem?_insert_self⟩
  exact ⟨h.vertices.insert hid _, h.edges, h.components, h.labels⟩

theorem exists_run_changeEdge (h : next.Adds g new) (hid : new .edge id) {e : Edge}
    (he : next.edges[id]? = some e) (f : Edge → Edge) :
    ∃ last, (changeEdge id f).run next = .ok (f e) last ∧ last.Adds g new ∧
      last.edges[id]? = some (f e) := by
  refine ⟨_, by rw [run_changeEdge, he], ?_, Std.ExtTreeMap.getElem?_insert_self⟩
  exact ⟨h.vertices, h.edges.insert hid _, h.components, h.labels⟩

/-- New components may be muted, some of them more than once. -/
theorem exists_run_forM_setComponentMuted (made : List Ident) (h : next.Adds g new)
    (hmade : ∀ id ∈ made, new .component id) :
    ∃ last, (made.forM fun id => setComponentMuted id true : Edit Unit).run next = .ok () last ∧
      last.Adds g new ∧ last.vertices = next.vertices ∧ last.edges = next.edges ∧
      last.labels = next.labels ∧ ∀ id : Ident, last.components[id]? =
        next.components[id]?.map fun c => if id ∈ made then { c with muted := true } else c := by
  induction made generalizing next with
  | nil => exact ⟨next, rfl, h, rfl, rfl, rfl, by simp⟩
  | cons id rest ih =>
    have hid := hmade id List.mem_cons_self
    obtain ⟨c, hc⟩ := Registry.mem_iff_exists.1 ((h.components.mem id).2 (.inr hid))
    have hmid : { next with
        components := next.components.insert id { c with muted := true } }.touch.Adds g new :=
      ⟨h.vertices, h.edges, h.components.insert hid _, h.labels⟩
    obtain ⟨last, hrun, hadds, hvertices, hedges, hlabels, hcomponents⟩ :=
      ih hmid fun id hid => hmade id (List.mem_cons_of_mem _ hid)
    refine ⟨last, ?_, hadds, hvertices, hedges, hlabels, fun id' => ?_⟩
    · rw [List.forM_eq_forM] at hrun ⊢
      rw [List.forM_cons, EStateM.run_bind, run_setComponentMuted, hc]
      exact hrun
    · rw [hcomponents]
      simp only [touch, Std.ExtTreeMap.getElem?_insert, Registry.compare_eq_iff, List.mem_cons]
      by_cases hsame : id = id'
      · subst hsame
        rw [if_pos rfl, hc]
        simp
      · simp [hsame, Ne.symm hsame]

theorem exists_run_mute (made : List Ident) (h : next.Adds g new)
    (hmade : ∀ id ∈ made, new .component id) (muted : Bool) :
    ∃ last, (if muted then made.forM fun id => setComponentMuted id true else pure () :
        Edit Unit).run next = .ok () last ∧
      last.Adds g new ∧ last.vertices = next.vertices ∧ last.edges = next.edges ∧
      last.labels = next.labels ∧ ∀ id : Ident, last.components[id]? = next.components[id]?.map
        fun c => if id ∈ made then { c with muted := c.muted || muted } else c := by
  cases muted with
  | false => exact ⟨next, rfl, h, rfl, rfl, rfl, by simp⟩
  | true =>
    simp only [Bool.or_true]
    exact exists_run_forM_setComponentMuted made h hmade

end New

end Edit

namespace Circuit

/-- The gadgets of a circuit inside a scope are components of the circuit. -/
theorem mem_components_of_mem_within {q : Qbf} (hq : q.IsProper) {scope id : Ident}
    (hid : id ∈ (within scope q).quantifiers ++ [(within scope q).formula]) :
    ∃ inner ∈ ((∅ : Graph).withParts .root .origin (plan q)).components, scope.join inner = id := by
  have hmem {inner : Ident} (h : inner ∈ (letters q).map quantifierId ∨ inner = formulaId) :
      inner ∈ ((∅ : Graph).withParts .root .origin (plan q)).components := by
    rw [Graph.withParts, Registry.mem_insertMany_map, ids_components_plan hq, ids_circuitComponents]
    rcases h with h | rfl
    · exact .inr (List.mem_append_left _ h)
    · exact .inr (List.mem_append_right _ List.mem_cons_self)
  rcases List.mem_append.1 hid with hid | hid
  · obtain ⟨b, hb, rfl⟩ := List.mem_map.1 hid
    exact ⟨_, hmem (.inl (List.mem_map_of_mem (List.mem_map_of_mem hb))), rfl⟩
  · rw [List.mem_singleton.1 hid]
    exact ⟨_, hmem (.inr rfl), rfl⟩

/-- A circuit is compiled into a graph as it is on its own, or not at all. -/
theorem allOrNothing_compileInto {g : Graph} (scope : Ident) (offset : Point) (text : String) :
    (compileInto scope offset text).AllOrNothing g fun circuit built =>
      ∃ alone, compile text = .ok alone ∧ g.HasRoom scope alone ∧ built.Joins g scope alone ∧
        ∀ id ∈ circuit.quantifiers ++ [circuit.formula],
          ∃ inner ∈ alone.components, scope.join inner = id := by
  rw [Edit.AllOrNothing, run_compileInto]
  cases hq : Qbf.parse text with
  | error fault => exact .inl ⟨fault, rfl⟩
  | ok q =>
    have hproper := Qbf.isProper_of_parse hq
    have hcoherent := coherent_plan hproper
    cases hbuild : (build scope offset q).run g with
    | error fault mid =>
      simp only [hbuild]
      exact .inl ⟨fault, rfl⟩
    | ok _ mid =>
      have hfree := isFree_of_run_forM_place hcoherent.inside hbuild
      obtain rfl : g.withParts scope offset (plan q) = mid := by
        have hplaced := run_forM_place hcoherent.inside hfree
        rw [build, hplaced] at hbuild
        cases hbuild
        rfl
      simp only [hbuild]
      exact .inr ⟨_, _, rfl, _, compile_of_parse hq, Graph.hasRoom_withParts.2 hfree,
        Graph.joins_withParts hcoherent hfree, fun id => mem_components_of_mem_within hproper⟩

/-- The ports of a circuit that was just compiled are all there. -/
theorem portsKept_of_compile {text : String} {alone : Graph} (h : compile text = .ok alone) :
    alone.PortsKept := by
  cases hq : Qbf.parse text with
  | error fault => simp [compile, run_compileInto, hq] at h
  | ok q =>
    obtain rfl := Except.ok.inj ((compile_of_parse hq).symm.trans h)
    exact portsKept_withParts (coherent_plan (Qbf.isProper_of_parse hq))

end Circuit

end ConstraintLogic
