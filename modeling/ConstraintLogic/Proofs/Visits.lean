import ConstraintLogic.Proofs.Acceptance
/-!
# The order of visits

A pass may visit vertices in any order and as often as it likes. The graph stays as it is in the
meantime, so every visit of a vertex finds the same verdict, and every gadget asks for the same at
each of its ports. What is committed in the end depends only on which vertices were visited, and
the graph that is left only on which universal gadgets were met.
-/

namespace ConstraintLogic

theorem Gate.exists_eq_universal {gate : Gate} {owner : Ident} (hkind : gate.kind = .universal)
    (howner : gate.owner? = some owner) : ∃ port, gate = .universal owner port := by
  cases gate with
  | universal o port =>
    obtain rfl := Option.some.inj howner
    exact ⟨port, rfl⟩
  | plain | converter | existential | evaluator => cases hkind

namespace Graph

theorem gateKind_of_latchRequest? {g : Graph} {c : Component} {r : LatchRequest}
    (h : g.latchRequest? c = some r) : c.gadget.gateKind = .universal := by
  rw [latchRequest?] at h
  cases hgadget : c.gadget with
  | universal => rfl
  | converter | existential | evaluator =>
    rw [hgadget] at h
    cases h

/-- The vertex of this name exists and is satisfied. -/
def verdict (g : Graph) (id : Ident) : Bool :=
  g.vertices[id]?.any g.isSatisfied

/-- One of the vertices of these names is a port of the universal gadget. -/
def MeetsUniversal (g : Graph) (ids : List Ident) (owner : Ident) : Prop :=
  ∃ id ∈ ids, ∃ v port, g.vertices[id]? = some v ∧ v.gate = .universal owner port

def latchOf? (g : Graph) (id : Ident) : Option Bool :=
  g.components[id]?.bind Component.latch?

/-- Only latches differ between the graphs; that any of them does is one change on record. -/
structure Relatched (g g' : Graph) : Prop where
  frame : g'.SameFrame g
  edges : g'.edges = g.edges
  recorded : (∃ id, g'.latchOf? id ≠ g.latchOf? id) →
    g'.revision = g.revision + 1 ∧ g'.changed = true
  untouched : (∀ id, g'.latchOf? id = g.latchOf? id) → g' = g

end Graph

namespace Pass

variable {p p' : Pass} {g : Graph} {ids ids' : List Ident} {id owner : Ident} {r : LatchRequest}

/-- The answers to visits of these vertices, one after the other, and what the pass has found. -/
def visits (p : Pass) (g : Graph) : List Ident → Except Fault (List Bool × Pass)
  | [] => .ok ([], p)
  | id :: rest => do
    let (answer, p) ← p.visit g id
    let (answers, p) ← p.visits g rest
    return (answer :: answers, p)

/-- What a pass has found after visits of these vertices. -/
def found (g : Graph) (ids : List Ident) : Pass :=
  (ids.filterMap fun id => g.vertices[id]?).foldl (fun p v => p.visitVertex g v) ∅

/-! ## Visits -/

theorem visits_eq_ok (h : ∀ id ∈ ids, id ∈ g.vertices) :
    p.visits g ids = .ok (ids.map g.verdict,
      (ids.filterMap fun id => g.vertices[id]?).foldl (fun p v => p.visitVertex g v) p) := by
  induction ids generalizing p with
  | nil => rfl
  | cons id rest ih =>
    obtain ⟨hid, hrest⟩ := List.forall_mem_cons.1 h
    obtain ⟨v, hv⟩ := Registry.mem_iff_exists.1 hid
    have hvisit : p.visit g id = .ok (g.verdict id, p.visitVertex g v) := by
      rw [visit, Graph.vertex, Graph.find, Graph.verdict, hv]
      rfl
    rw [visits, hvisit, List.filterMap_cons_some hv, List.foldl_cons]
    simp only [bind, Except.bind, ih hrest]
    rfl

/-! ## What the visits find -/

theorem mem_filterMap_vertices {v : Vertex} :
    v ∈ ids.filterMap (fun id => g.vertices[id]?) ↔ ∃ id ∈ ids, g.vertices[id]? = some v :=
  List.mem_filterMap

theorem verdicts_found (hg : Registry.Named g.vertices Vertex.id)
    (h : ∀ id ∈ ids, id ∈ g.vertices) :
    (found g ids).verdicts[id]? = if id ∈ ids then some (g.verdict id) else none := by
  have hmem : id ∈ (found g ids).verdicts ↔ id ∈ ids := by
    rw [found, mem_verdicts_foldl]
    constructor
    · rintro (hempty | ⟨v, hv, rfl⟩)
      · exact absurd hempty Std.ExtTreeMap.not_mem_empty
      · obtain ⟨key, hkey, hv⟩ := mem_filterMap_vertices.1 hv
        rwa [(hg key v hv).1]
    · intro hid
      obtain ⟨v, hv⟩ := Registry.mem_iff_exists.1 (h id hid)
      exact .inr ⟨v, mem_filterMap_vertices.2 ⟨id, hid, hv⟩, (hg id v hv).1⟩
  split_ifs with hid
  · obtain ⟨ok, hok⟩ := Registry.mem_iff_exists.1 (hmem.2 hid)
    rcases verdicts_foldl _ hok with hempty | ⟨v, hv, rfl, rfl⟩
    · cases Std.ExtTreeMap.getElem?_empty.symm.trans hempty
    · obtain ⟨key, -, hv⟩ := mem_filterMap_vertices.1 hv
      rw [hok, Graph.verdict, (hg key v hv).1, hv, Option.any_some]
  · exact Std.ExtTreeMap.getElem?_eq_none fun hfound => hid (hmem.1 hfound)

/-- Only universal gadgets ask for anything, so a request comes from one of their ports. -/
theorem requests_found (hg : g.Consistent) :
    (found g ids).requests[owner]? = some r ↔
      g.MeetsUniversal ids owner ∧ g.request? owner = some r := by
  have hempty : Pass.empty.requests[owner]? = none := Std.ExtTreeMap.getElem?_empty
  refine (requests_foldl (faithful_empty g) _).trans ?_
  simp only [hempty, reduceCtorEq, false_or, and_congr_left_iff]
  intro hr
  constructor
  · rintro ⟨v, hv, howner⟩
    obtain ⟨id, hid, hv⟩ := mem_filterMap_vertices.1 hv
    obtain ⟨c, hc, hkind⟩ := hg.exists_owner hv howner
    rw [Graph.request?, hc, Option.bind_some] at hr
    obtain ⟨port, hgate⟩ :=
      Gate.exists_eq_universal (hkind.trans (Graph.gateKind_of_latchRequest? hr)) howner
    exact ⟨id, hid, v, port, hv, hgate⟩
  · rintro ⟨id, hid, v, port, hv, hgate⟩
    exact ⟨v, mem_filterMap_vertices.2 ⟨id, hid, hv⟩, by rw [hgate]; rfl⟩

theorem verdicts_found_congr (hg : Registry.Named g.vertices Vertex.id)
    (h : ∀ id ∈ ids, id ∈ g.vertices) (hsame : ∀ id, id ∈ ids ↔ id ∈ ids') :
    (found g ids).verdicts = (found g ids').verdicts := by
  apply Std.ExtTreeMap.ext_getElem?
  intro id
  rw [verdicts_found hg h, verdicts_found hg fun id hid => h id ((hsame id).2 hid)]
  simp only [hsame]

theorem requests_found_congr (hg : g.Consistent)
    (hsame : ∀ owner, g.MeetsUniversal ids owner ↔ g.MeetsUniversal ids' owner) :
    (found g ids).requests = (found g ids').requests := by
  apply Std.ExtTreeMap.ext_getElem?
  intro owner
  apply Option.ext
  intro r
  rw [requests_found hg, requests_found hg, hsame]

/-! ## What a commit changes -/

theorem latchOf?_settle :
    (p.settle g).latchOf? id = (g.latchOf? id).map fun latch =>
      p.requests[id]?.elim latch LatchRequest.target := by
  rw [Graph.latchOf?, Graph.latchOf?, components_settle]
  cases g.components[id]? with
  | none => rfl
  | some c =>
    cases p.requests[id]? with
    | none => simp
    | some r => exact Gadget.latch?_withLatch r.target c.gadget

theorem change?_eq_none_iff :
    change? g id r = none ↔ ∀ latch ∈ g.latchOf? id, latch = r.target := by
  rw [change?, ← Graph.latchOf?]
  cases g.latchOf? id <;> simp

theorem change?_eq_some_iff {key : Ident} {b : Bool} :
    change? g key r = some (id, b) ↔ key = id ∧ r.target = b ∧ g.latchOf? id = some (!b) := by
  rw [change?, ← Graph.latchOf?]
  constructor
  · intro h
    cases hlatch : g.latchOf? key with
    | none => simp [hlatch] at h
    | some latch =>
      simp only [hlatch, Option.ite_none_left_eq_some, Option.some.injEq, Prod.mk.injEq] at h
      obtain ⟨hne, rfl, rfl⟩ := h
      exact ⟨rfl, rfl, by rw [hlatch, Bool.eq_not.2 hne]⟩
  · rintro ⟨rfl, rfl, hlatch⟩
    simp [hlatch]

/-- The pass lists the requests for what a latch is not yet. -/
theorem mem_latchChanges_outcome {b : Bool} :
    (id, b) ∈ (p.outcome g).latchChanges ↔
      ∃ r, p.requests[id]? = some r ∧ r.target = b ∧ g.latchOf? id = some (!b) := by
  simp only [outcome, List.mem_filterMap, Prod.exists, change?_eq_some_iff,
    Std.ExtTreeMap.mem_toList_iff_getElem?_eq_some]
  constructor
  · rintro ⟨_, r, hr, rfl, htarget, hlatch⟩
    exact ⟨r, hr, htarget, hlatch⟩
  · rintro ⟨r, hr, htarget, hlatch⟩
    exact ⟨id, r, hr, rfl, htarget, hlatch⟩

/-- The pass lists a change exactly if settling changes some latch. -/
theorem latchChanges_eq_nil_iff :
    (p.outcome g).latchChanges = [] ↔ ∀ id, (p.settle g).latchOf? id = g.latchOf? id := by
  simp only [outcome, List.filterMap_eq_nil_iff, Prod.forall,
    Std.ExtTreeMap.mem_toList_iff_getElem?_eq_some, change?_eq_none_iff, latchOf?_settle]
  refine forall_congr' fun id => ?_
  cases g.latchOf? id <;> cases p.requests[id]? <;> simp [eq_comm]

theorem settle_eq_of_latchOf? (h : ∀ id, (p.settle g).latchOf? id = g.latchOf? id) :
    p.settle g = g := by
  have hcomponents : (p.settle g).components = g.components := by
    apply Std.ExtTreeMap.ext_getElem?
    intro id
    have hframe := (Graph.sameFrame_settle p g).components id
    have hlatch := h id
    rw [Graph.latchOf?, Graph.latchOf?] at hlatch
    rw [components_settle] at hframe hlatch ⊢
    cases hc : g.components[id]? with
    | none => rfl
    | some c =>
      rw [hc] at hframe hlatch
      exact congrArg some (Component.eq_of_unlatched (Option.some.inj hframe) hlatch)
  calc p.settle g
      = { g with components := (p.settle g).components } := rfl
    _ = g := by rw [hcomponents]

theorem relatched_commit (p : Pass) (g : Graph) : g.Relatched (p.commit g).2 := by
  have hframe := Graph.sameFrame_settle p g
  cases hchanges : (p.outcome g).latchChanges with
  | nil =>
    have hsame := settle_eq_of_latchOf? (latchChanges_eq_nil_iff.1 hchanges)
    have hcommit : (p.commit g).2 = g := by
      rw [commit, hchanges]
      exact hsame
    rw [hcommit]
    refine ⟨.refl g, rfl, ?_, fun _ => rfl⟩
    rintro ⟨id, hne⟩
    exact absurd rfl hne
  | cons change rest =>
    have hcommit : (p.commit g).2 = (p.settle g).touch := by
      rw [commit, hchanges]
      rfl
    rw [hcommit]
    refine ⟨⟨hframe.vertices, hframe.components, hframe.labels⟩, rfl, fun _ => ⟨rfl, rfl⟩, ?_⟩
    intro hsame
    cases hchanges.symm.trans (latchChanges_eq_nil_iff.2 hsame)

/-! ## Order independence -/

/-- All visits find the verdicts of the graph as it is. Neither their order nor repetitions matter
for what is committed, and for the graph that is left not even the vertices, but only which
universal gadgets they belong to. -/
theorem commit_visits (hg : g.Reachable) (h : ∀ id ∈ ids, id ∈ g.vertices)
    (h' : ∀ id ∈ ids', id ∈ g.vertices) :
    ∃ p p', visits ∅ g ids = .ok (ids.map g.verdict, p) ∧
      visits ∅ g ids' = .ok (ids'.map g.verdict, p') ∧
      ((∀ id, id ∈ ids ↔ id ∈ ids') → p.commit g = p'.commit g) ∧
      ((∀ owner, g.MeetsUniversal ids owner ↔ g.MeetsUniversal ids' owner) →
        (p.commit g).2 = (p'.commit g).2) ∧
      g.Relatched (p.commit g).2 := by
  have hconsistent := hg.consistent
  have hgraph (hmeets : ∀ owner, g.MeetsUniversal ids owner ↔ g.MeetsUniversal ids' owner) :
      ((found g ids).commit g).2 = ((found g ids').commit g).2 := by
    have hrequests := requests_found_congr hconsistent hmeets
    simp only [commit, outcome, settle, hrequests]
  refine ⟨found g ids, found g ids', visits_eq_ok h, visits_eq_ok h', ?_, hgraph,
    relatched_commit _ g⟩
  intro hsame
  have hverdicts := verdicts_found_congr hconsistent.vertices h hsame
  have hmeets (owner : Ident) :
      g.MeetsUniversal ids owner ↔ g.MeetsUniversal ids' owner := by
    simp only [Graph.MeetsUniversal, hsame]
  have hrequests := requests_found_congr hconsistent hmeets
  simp only [commit, outcome, settle, hverdicts, hrequests]

/-- The lone gadget when it is no longer asked to try, and so asks for its latch to be cleared. -/
def loneUniversalUnasked : Graph :=
  Change.after Graph.loneUniversal (.reverseEdge ⟨["try"]⟩)

def portsForward : List Ident :=
  [⟨["gadget", "satin"]⟩, ⟨["hub"]⟩, ⟨["gadget", "satin"]⟩, ⟨["gadget", "out"]⟩]

def portsBackward : List Ident :=
  [⟨["gadget", "out"]⟩, ⟨["gadget", "satin"]⟩, ⟨["gadget", "out"]⟩, ⟨["hub"]⟩]

theorem commit_visits_loneUniversal :
    (∀ id ∈ portsForward, id ∈ loneUniversalUnasked.vertices) ∧
      (∀ id ∈ portsBackward, id ∈ loneUniversalUnasked.vertices) ∧
      ∃ p p', visits ∅ loneUniversalUnasked portsForward =
          .ok (portsForward.map loneUniversalUnasked.verdict, p) ∧
        visits ∅ loneUniversalUnasked portsBackward =
          .ok (portsBackward.map loneUniversalUnasked.verdict, p') ∧
        p.commit loneUniversalUnasked = p'.commit loneUniversalUnasked := by
  have hforward : ∀ id ∈ portsForward, id ∈ loneUniversalUnasked.vertices := by decide +kernel
  have hbackward : ∀ id ∈ portsBackward, id ∈ loneUniversalUnasked.vertices := by decide +kernel
  have hreach : loneUniversalUnasked.Reachable := Graph.Reachable.after ⟨_, rfl⟩ _
  obtain ⟨p, p', hp, hp', hsame, -⟩ := commit_visits hreach hforward hbackward
  refine ⟨hforward, hbackward, p, p', hp, hp', hsame fun id => ?_⟩
  simp only [portsForward, portsBackward, List.mem_cons, List.not_mem_nil, or_false]
  tauto

end Pass

end ConstraintLogic
