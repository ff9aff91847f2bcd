import ConstraintLogic.Graph.Move
import ConstraintLogic.Proofs.Registry
/-!
# What a pass finds

The requests of a pass over some vertices are those of the gadgets that own one of them, however
often a gadget is met. A graph in which every vertex is satisfied and every latch is as its gadget
asks passes validation unchanged.
-/

namespace ConstraintLogic

namespace Graph

/-- What the gadget of this name asks for its latch. -/
def request? (g : Graph) (owner : Ident) : Option LatchRequest :=
  g.components[owner]?.bind g.latchRequest?

theorem ownerRequest?_eq_some_iff {g : Graph} {v : Vertex} {owner : Ident} {r : LatchRequest} :
    g.ownerRequest? v = some (owner, r) ↔
      v.gate.owner? = some owner ∧ g.request? owner = some r := by
  unfold ownerRequest? request?
  cases v.gate.owner? with
  | none => simp
  | some o =>
    cases hc : g.components[o]? with
    | none => simp only [Option.bind_eq_bind, Option.bind_some, hc]; grind
    | some c =>
      cases hr : g.latchRequest? c <;>
        simp only [Option.bind_eq_bind, Option.bind_some, hc, hr] <;> grind

end Graph

namespace Pass

variable {g : Graph}

/-- All requests noted so far are what the gadgets ask for in the graph. -/
def Faithful (p : Pass) (g : Graph) : Prop :=
  ∀ (id : Ident) (r : LatchRequest), p.requests[id]? = some r → g.request? id = some r

theorem requests_request {p : Pass} {owner id : Ident} {r : LatchRequest} :
    (p.request owner r).requests[id]? =
      if owner = id then some (p.requests[id]?.elim r (·.merge r)) else p.requests[id]? := by
  rw [request, Std.ExtTreeMap.getElem?_alter]
  simp only [Registry.compare_eq_iff]
  split
  · next h => rw [h]
  · rfl

theorem requests_visitVertex {p : Pass} (hp : p.Faithful g) (v : Vertex) {id : Ident}
    {r : LatchRequest} :
    (p.visitVertex g v).requests[id]? = some r ↔
      p.requests[id]? = some r ∨ v.gate.owner? = some id ∧ g.request? id = some r := by
  unfold visitVertex
  cases ho : g.ownerRequest? v with
  | none =>
    have hnone : ¬(v.gate.owner? = some id ∧ g.request? id = some r) := by
      rw [← Graph.ownerRequest?_eq_some_iff, ho]
      simp
    simp [hnone]
  | some found =>
    obtain ⟨owner, asked⟩ := found
    obtain ⟨hgate, hasked⟩ := Graph.ownerRequest?_eq_some_iff.1 ho
    simp only [requests_request]
    by_cases hid : owner = id
    · subst hid
      have hsame : p.requests[owner]?.elim asked (·.merge asked) = asked := by
        cases hr : p.requests[owner]? with
        | none => rfl
        | some pending =>
          have := hp owner pending hr
          rw [hasked, Option.some.injEq] at this
          simp [this]
      have hback := hp owner r
      rw [if_pos rfl, hsame]
      grind
    · have hne : v.gate.owner? ≠ some id := by simp [hgate, hid]
      simp [hid, hne]

theorem Faithful.visitVertex {p : Pass} (hp : p.Faithful g) (v : Vertex) :
    (p.visitVertex g v).Faithful g := by
  intro id r hr
  rcases (requests_visitVertex hp v).1 hr with h | ⟨-, h⟩
  · exact hp id r h
  · exact h

/-- A gadget's request is noted as soon as one of its ports is visited. -/
theorem requests_foldl {p : Pass} (hp : p.Faithful g) (vs : List Vertex) {id : Ident}
    {r : LatchRequest} :
    (vs.foldl (fun p v => p.visitVertex g v) p).requests[id]? = some r ↔
      p.requests[id]? = some r ∨
        (∃ v ∈ vs, v.gate.owner? = some id) ∧ g.request? id = some r := by
  induction vs generalizing p with
  | nil => simp
  | cons v rest ih =>
    rw [List.foldl_cons, ih (hp.visitVertex v), requests_visitVertex hp v]
    simp only [List.mem_cons, exists_eq_or_imp]
    tauto

theorem verdicts_visitVertex (p : Pass) (v : Vertex) :
    (p.visitVertex g v).verdicts = p.verdicts.insert v.id (g.isSatisfied v) := by
  unfold visitVertex
  cases g.ownerRequest? v <;> rfl

theorem mem_verdicts_foldl {p : Pass} (vs : List Vertex) {id : Ident} :
    id ∈ (vs.foldl (fun p v => p.visitVertex g v) p).verdicts ↔
      id ∈ p.verdicts ∨ ∃ v ∈ vs, v.id = id := by
  induction vs generalizing p with
  | nil => simp
  | cons v rest ih =>
    rw [List.foldl_cons, ih, verdicts_visitVertex, Std.ExtTreeMap.mem_insert,
      Registry.compare_eq_iff]
    simp only [List.mem_cons, exists_eq_or_imp]
    tauto

theorem verdicts_foldl {p : Pass} (vs : List Vertex) {id : Ident} {ok : Bool}
    (h : (vs.foldl (fun p v => p.visitVertex g v) p).verdicts[id]? = some ok) :
    p.verdicts[id]? = some ok ∨ ∃ v ∈ vs, v.id = id ∧ g.isSatisfied v = ok := by
  induction vs generalizing p with
  | nil => exact .inl h
  | cons v rest ih =>
    rcases ih h with hv | ⟨u, hu, hok⟩
    · rw [verdicts_visitVertex, Std.ExtTreeMap.getElem?_insert] at hv
      simp only [Registry.compare_eq_iff] at hv
      split at hv
      · next hid => exact .inr ⟨v, by simp, hid, by simpa using hv⟩
      · exact .inl hv
    · exact .inr ⟨u, by simp [hu], hok⟩

/-- Settling changes latches only, each as the pass has been asked. -/
theorem components_settle (p : Pass) (g : Graph) (id : Ident) :
    (p.settle g).components[id]? = g.components[id]?.map fun c =>
      p.requests[id]?.elim c fun r => c.withLatch r.target := by
  rw [settle, Std.ExtTreeMap.getElem?_map]
  cases p.requests[id]? <;> rfl

theorem faithful_empty (g : Graph) : Pass.empty.Faithful g := by
  intro id r h
  simp [Pass.empty] at h

end Pass

namespace Graph

variable {g : Graph}

theorem mem_vertices_toList {v : Vertex} :
    v ∈ g.vertices.toList.map (·.2) ↔ ∃ id : Ident, g.vertices[id]? = some v := by
  simp only [List.mem_map, Prod.exists, exists_eq_right,
    Std.ExtTreeMap.mem_toList_iff_getElem?_eq_some]

def OwnsVertex (g : Graph) (owner : Ident) : Prop :=
  ∃ (id : Ident) (v : Vertex), g.vertices[id]? = some v ∧ v.gate.owner? = some owner

theorem requests_fullPass {id : Ident} {r : LatchRequest} :
    g.fullPass.requests[id]? = some r ↔ g.OwnsVertex id ∧ g.request? id = some r := by
  rw [fullPass, Pass.visitAll, Pass.requests_foldl (Pass.faithful_empty g)]
  have hempty : Pass.empty.requests[id]? = none := Std.ExtTreeMap.getElem?_empty
  simp only [hempty, mem_vertices_toList, OwnsVertex]
  grind

theorem verdicts_fullPass {id : Ident} {ok : Bool} (h : g.fullPass.verdicts[id]? = some ok) :
    ∃ (key : Ident) (v : Vertex), g.vertices[key]? = some v ∧ v.id = id ∧ g.isSatisfied v = ok := by
  rcases Pass.verdicts_foldl _ h with hv | ⟨v, hv, hok⟩
  · simp [Pass.empty] at hv
  · obtain ⟨key, hkey⟩ := mem_vertices_toList.1 hv
    exact ⟨key, v, hkey, hok⟩

theorem mem_verdicts_fullPass {id : Ident} :
    id ∈ g.fullPass.verdicts ↔
      ∃ (key : Ident) (v : Vertex), g.vertices[key]? = some v ∧ v.id = id := by
  rw [fullPass, Pass.visitAll, Pass.mem_verdicts_foldl]
  simp only [mem_vertices_toList, Pass.empty, Std.ExtTreeMap.not_mem_empty, false_or]
  constructor
  · rintro ⟨v, ⟨key, hkey⟩, hid⟩
    exact ⟨key, v, hkey, hid⟩
  · rintro ⟨key, v, hkey, hid⟩
    exact ⟨v, ⟨key, hkey⟩, hid⟩

/-- The component with its latch as it asks for it. -/
def settledComponent (g : Graph) (c : Component) : Component :=
  (g.latchRequest? c).elim c fun r => c.withLatch r.target

/-- Settling a graph answers the request of every gadget that owns a vertex. -/
theorem components_settled {id : Ident} {c : Component} (hc : g.components[id]? = some c)
    (ho : g.OwnsVertex id) : g.settled.components[id]? = some (g.settledComponent c) := by
  have hr : g.fullPass.requests[id]? = g.latchRequest? c := by
    apply Option.ext
    intro r
    rw [requests_fullPass, request?, hc]
    simp [ho]
  rw [settled, Pass.components_settle, hc, hr]
  rfl

theorem components_settled_of_latch?_eq_none {id : Ident} {c : Component}
    (hc : g.components[id]? = some c) (hl : c.latch? = none) :
    g.settled.components[id]? = some c := by
  have hkeep (value : Bool) : c.withLatch value = c := by
    have hgadget : c.gadget.withLatch value = c.gadget :=
      Gadget.withLatch_of_latch? (by rw [← Component.latch?, hl]; simp)
    simp [Component.withLatch, hgadget]
  rw [settled, Pass.components_settle, hc]
  cases g.fullPass.requests[id]? with
  | none => rfl
  | some r => simp [hkeep]

/-- Every latch is as its gadget asks for it. -/
def IsSettled (g : Graph) : Prop :=
  ∀ (id : Ident) (c : Component) (r : LatchRequest), g.components[id]? = some c →
    g.latchRequest? c = some r → c.latch? = some r.target

theorem settle_fullPass_of_isSettled (h : g.IsSettled) : g.fullPass.settle g = g := by
  have hsame : (g.fullPass.settle g).components = g.components := by
    apply Std.ExtTreeMap.ext_getElem?
    intro id
    rw [Pass.components_settle]
    cases hc : g.components[id]? with
    | none => rfl
    | some c =>
      rw [Option.map_some, Option.some.injEq]
      cases hr : g.fullPass.requests[id]? with
      | none => rfl
      | some r =>
        have hask := (requests_fullPass.1 hr).2
        rw [request?, hc, Option.bind_some] at hask
        have hlatch := h id c r hc hask
        have hgadget : c.gadget.withLatch r.target = c.gadget :=
          Gadget.withLatch_of_latch? fun b hb => by
            rw [Component.latch?] at hlatch
            simpa [hlatch] using hb.symm
        simp [Component.withLatch, hgadget]
  calc g.fullPass.settle g
      = { g with components := (g.fullPass.settle g).components } := rfl
    _ = g := by rw [hsame]

theorem latchChanges_of_isSettled (h : g.IsSettled) :
    (g.fullPass.outcome g).latchChanges = [] := by
  rw [Pass.outcome, List.filterMap_eq_nil_iff]
  rintro ⟨id, r⟩ hmem
  have hr := (requests_fullPass.1 (Std.ExtTreeMap.mem_toList_iff_getElem?_eq_some.1 hmem)).2
  obtain ⟨c, hc, hask⟩ := Option.bind_eq_some_iff.1 hr
  simp [Pass.change?, hc, h id c r hc hask]

theorem allSatisfied_outcome
    (h : ∀ (id : Ident) (v : Vertex), g.vertices[id]? = some v → g.isSatisfied v = true) :
    (g.fullPass.outcome g).allSatisfied = true := by
  have hnone : (g.fullPass.verdicts.filter fun _ ok => !ok).keys = [] := by
    rw [List.eq_nil_iff_forall_not_mem]
    intro id hid
    rw [Std.ExtTreeMap.mem_keys, Std.ExtTreeMap.mem_iff_isSome_getElem?,
      Std.ExtTreeMap.getElem?_filter, Option.isSome_iff_exists] at hid
    obtain ⟨ok, hok⟩ := hid
    obtain ⟨hv, hnot⟩ := Option.pfilter_eq_some_iff.1 hok
    obtain ⟨key, v, hkey, -, hsat⟩ := verdicts_fullPass hv
    rw [h key v hkey] at hsat
    simp [← hsat] at hnot
  rw [Validation.allSatisfied, Pass.outcome, List.isEmpty_iff]
  exact hnone

theorem mem_satisfied_outcome
    (h : ∀ (id : Ident) (v : Vertex), g.vertices[id]? = some v → g.isSatisfied v = true)
    {id : Ident} :
    id ∈ (g.fullPass.outcome g).satisfied ↔
      ∃ (key : Ident) (v : Vertex), g.vertices[key]? = some v ∧ v.id = id := by
  rw [← mem_verdicts_fullPass, Pass.outcome, Std.ExtTreeMap.mem_keys,
    Std.ExtTreeMap.mem_iff_isSome_getElem?, Std.ExtTreeMap.mem_iff_isSome_getElem?,
    Std.ExtTreeMap.getElem?_filter]
  cases hok : g.fullPass.verdicts[id]? with
  | none => rfl
  | some ok =>
    obtain ⟨key, v, hkey, -, hsat⟩ := verdicts_fullPass hok
    rw [h key v hkey] at hsat
    simp [← hsat]

/-- A satisfied and settled graph passes validation as it is. -/
theorem validate_of_isSettled
    (hv : ∀ (id : Ident) (v : Vertex), g.vertices[id]? = some v → g.isSatisfied v = true)
    (hs : g.IsSettled) :
    g.validate.1.allSatisfied = true ∧ g.validate.1.latchChanges = [] ∧ g.validate.2 = g := by
  refine ⟨allSatisfied_outcome hv, latchChanges_of_isSettled hs, ?_⟩
  simp only [validate, Pass.commit, latchChanges_of_isSettled hs, List.isEmpty_nil, if_true]
  exact settle_fullPass_of_isSettled hs

end Graph

end ConstraintLogic
