import ConstraintLogic.Graph.Integrity
/-!
# What the integrity check establishes

What the check of an edge, of a vertex and of a component asks for, and that a graph passes the
check if all its entities do. A graph that passes has every port that a component lists, each with
a gate that names the component.
-/

namespace ConstraintLogic.Graph

variable {g : Graph} {e : Edge} {v : Vertex} {c : Component} {id : Ident}

private theorem forM_eq_ok_iff {α : Type} {l : List α} {f : α → Except Fault Unit} :
    l.forM f = .ok () ↔ ∀ a ∈ l, f a = .ok () := by
  rw [List.forM_eq_forM]
  induction l with
  | nil => simp [pure, Except.pure]
  | cons a rest ih =>
    rw [List.forM_cons, List.forall_mem_cons, ← ih]
    cases f a with
    | error fault => simp [bind, Except.bind]
    | ok _ => simp [bind, Except.bind]

private theorem bind_eq_ok_iff {first second : Except Fault Unit} :
    (first >>= fun _ => second) = .ok () ↔ first = .ok () ∧ second = .ok () := by
  cases first <;> simp [bind, Except.bind]

theorem checkIntegrity_eq_ok_iff :
    g.checkIntegrity = .ok () ↔
      (∀ (id : Ident) (e : Edge), g.edges[id]? = some e → g.checkEdge e = .ok ()) ∧
      (∀ (id : Ident) (v : Vertex), g.vertices[id]? = some v → g.checkVertex v = .ok ()) ∧
      ∀ (id : Ident) (c : Component), g.components[id]? = some c → g.checkComponent c = .ok () := by
  rw [checkIntegrity, bind_eq_ok_iff, bind_eq_ok_iff]
  simp only [forM_eq_ok_iff, Prod.forall, Std.ExtTreeMap.mem_toList_iff_getElem?_eq_some]

/-- Both ends of an edge exist and list it. -/
theorem checkEdge_eq_ok_iff :
    g.checkEdge e = .ok () ↔
      ∀ endpoint ∈ [e.source, e.target], ∃ v, g.vertices[endpoint]? = some v ∧ e.id ∈ v.edges := by
  rw [checkEdge, forM_eq_ok_iff]
  refine forall₂_congr fun endpoint _ => ?_
  cases g.vertices[endpoint]? with
  | none => exact ⟨nofun, nofun⟩
  | some v =>
    simp only [Option.some.injEq, exists_eq_left']
    split
    · next hlisted => exact ⟨fun _ => hlisted, fun _ => rfl⟩
    · next hmissing => exact ⟨nofun, fun hlisted => absurd hlisted hmissing⟩

theorem checkListed_eq_ok_iff :
    g.checkListed v id = .ok () ↔
      ∃ e, g.edges[id]? = some e ∧ (e.source = v.id ∨ e.target = v.id) := by
  rw [checkListed]
  cases g.edges[id]? with
  | none => exact ⟨nofun, nofun⟩
  | some e =>
    simp only [Option.some.injEq, exists_eq_left']
    split
    · next hend => exact ⟨fun _ => hend, fun _ => rfl⟩
    · next hother => exact ⟨nofun, fun hend => absurd hend hother⟩

/-- The edges that a vertex lists end at it, and what they carry flows in or out. -/
theorem checkVertex_eq_ok_iff :
    g.checkVertex v = .ok () ↔
      (∀ id ∈ v.edges, ∃ e, g.edges[id]? = some e ∧ (e.source = v.id ∨ e.target = v.id)) ∧
      g.inflow v + g.outflow v = totalWeight (g.incident v) := by
  rw [checkVertex, bind_eq_ok_iff, forM_eq_ok_iff]
  simp only [Std.ExtTreeSet.mem_toList, checkListed_eq_ok_iff]
  refine and_congr_right fun _ => ?_
  split
  · next hflow => exact ⟨fun _ => hflow, fun _ => rfl⟩
  · next hother => exact ⟨nofun, fun hflow => absurd hflow hother⟩

/-- The ports of a component exist and their gates name it. -/
theorem checkComponent_eq_ok_iff :
    g.checkComponent c = .ok () ↔ ∀ (name : String) (port : Ident), c.ports[name]? = some port →
      ∃ v, g.vertices[port]? = some v ∧ v.gate.owner? = some c.id := by
  rw [checkComponent, forM_eq_ok_iff]
  simp only [Prod.forall, Std.ExtTreeMap.mem_toList_iff_getElem?_eq_some]
  refine forall_congr' fun name => forall_congr' fun port => imp_congr_right fun _ => ?_
  cases g.vertices[port]? with
  | none => exact ⟨nofun, nofun⟩
  | some v =>
    simp only [Option.some.injEq, exists_eq_left']
    split
    · next howner => exact ⟨fun _ => howner, fun _ => rfl⟩
    · next hother => exact ⟨nofun, fun howner => absurd howner hother⟩

theorem exists_port_of_checkIntegrity (h : g.checkIntegrity = .ok ())
    (hc : g.components[id]? = some c) {name : String} {port : Ident}
    (hport : c.ports[name]? = some port) :
    ∃ v, g.vertices[port]? = some v ∧ v.gate.owner? = some c.id :=
  checkComponent_eq_ok_iff.1 ((checkIntegrity_eq_ok_iff.1 h).2.2 id c hc) name port hport

theorem checkIntegrity_of_isOk (h : g.checkIntegrity.isOk = true) : g.checkIntegrity = .ok () := by
  cases hcheck : g.checkIntegrity with
  | ok _ => rfl
  | error fault =>
    rw [hcheck] at h
    cases h

end ConstraintLogic.Graph
