import ConstraintLogic.Proofs.Integrity
import ConstraintLogic.Proofs.Reachable
/-!
# What an accepted move leaves behind

A move is accepted if the latches as they are let both ends of its edge be satisfied; only then are
the latches settled. This takes the latch from a universal gadget that is no longer asked to try,
and if the gadget still tells of a success, its ports are then not satisfied. Apart from the ports
of such gadgets, both ends of the edge are satisfied in the graph that the move leaves.
-/

namespace ConstraintLogic

namespace Gadget

theorem latch?_eq_none {k : Gadget} (h : k.gateKind ≠ .universal) : k.latch? = none := by
  cases k with
  | universal => exact absurd rfl h
  | converter | existential | evaluator => rfl

theorem exists_eq_universal {k : Gadget} (h : k.gateKind = .universal) :
    ∃ letter latch, k = .universal letter latch := by
  cases k with
  | universal letter latch => exact ⟨letter, latch, rfl⟩
  | converter | existential | evaluator => cases h

end Gadget

namespace Graph

variable {g next : Graph} {id : Ident}

/-- The vertex is a port of a universal gadget that tells of a success without being asked to
try. -/
def TellsUnasked (g : Graph) (v : Vertex) : Prop :=
  ∃ owner port c, v.gate = .universal owner port ∧ g.components[owner]? = some c ∧
    (g.signals c).satOut = true ∧ (g.signals c).tryIn = false

/-- Settling its latch breaks the rule of a universal gadget only if it tells unasked. -/
theorem gadgetHolds_settledComponent_iff {c : Component} {letter : Char} {latch : Bool}
    (hc : c.gadget = .universal letter latch) (h : g.gadgetHolds c = true) :
    g.gadgetHolds (g.settledComponent c) = true ↔
      ¬((g.signals c).satOut = true ∧ (g.signals c).tryIn = false) := by
  have hlatch (value : Bool) :
      g.gadgetHolds (c.withLatch value) = (g.signals c).universalHolds value := by
    simp only [gadgetHolds, Component.withLatch, hc, Gadget.withLatch]
    rfl
  have hrule : (g.signals c).universalHolds latch = true := by
    simpa only [gadgetHolds, hc] using h
  cases htry : (g.signals c).tryIn with
  | false =>
    have hask : g.latchRequest? c = some .clear := by simp [latchRequest?, hc, htry]
    rw [settledComponent, hask, Option.elim_some, hlatch]
    revert hrule
    simp only [Signals.universalHolds, LatchRequest.target, htry]
    cases (g.signals c).satOut <;> simp
  | true =>
    have hkeeps : g.gadgetHolds (g.settledComponent c) = true := by
      cases hask : g.latchRequest? c with
      | none =>
        rw [settledComponent, hask]
        exact h
      | some r =>
        have hset : r = .set := by
          simp only [latchRequest?, hc, htry] at hask
          split at hask
          · simp_all
          · split at hask <;> simp_all
        rw [settledComponent, hask, Option.elim_some, hlatch, hset]
        cases latch with
        | false => exact (g.signals c).universalHolds_mono hrule
        | true => exact hrule
    simp [hkeeps]

/-- The gadget of a port without a latch is not changed when the latches are settled. -/
theorem ownerHolds_settled_of_latch?_eq_none {owner : Ident} {c : Component}
    (hc : g.components[owner]? = some c) (hl : c.latch? = none) :
    g.settled.ownerHolds owner = g.ownerHolds owner := by
  rw [ownerHolds, components_settled_of_latch?_eq_none hc hl, ownerHolds, hc]
  rfl

theorem Consistent.isSatisfied_settled_of_ne (h : g.Consistent) {v : Vertex}
    (hv : g.vertices[id]? = some v) (hkind : v.gate.kind ≠ .universal) :
    g.settled.isSatisfied v = g.isSatisfied v := by
  cases hgate : v.gate with
  | universal => exact absurd (congrArg Gate.kind hgate) hkind
  | plain | converter =>
    simp only [isSatisfied, hgate]
    rfl
  | existential owner port | evaluator owner port =>
    obtain ⟨c, hc, hsame⟩ := h.exists_owner hv (congrArg Gate.owner? hgate)
    have hl : c.latch? = none := Gadget.latch?_eq_none (hsame ▸ hkind)
    simp only [isSatisfied, hgate, ownerHolds_settled_of_latch?_eq_none hc hl]
    rfl

theorem Consistent.isSatisfied_settled_of_universal (h : g.Consistent) {v : Vertex}
    {owner : Ident} {port : QuantifierPort} (hv : g.vertices[id]? = some v)
    (hgate : v.gate = .universal owner port) (hs : g.isSatisfied v = true) :
    ∃ c, g.settled.components[owner]? = some c ∧
      (g.settled.isSatisfied v = true ↔
        ¬((g.settled.signals c).satOut = true ∧ (g.settled.signals c).tryIn = false)) := by
  have ho : v.gate.owner? = some owner := congrArg Gate.owner? hgate
  obtain ⟨c, hc, hkind⟩ := h.exists_owner hv ho
  obtain ⟨letter, latch, hgadget⟩ := Gadget.exists_eq_universal (k := c.gadget)
    (hkind.symm.trans (congrArg Gate.kind hgate))
  have hsettled := components_settled hc ⟨id, v, hv, ho⟩
  have hsignals : g.settled.signals (g.settledComponent c) = g.signals c := by
    rw [settledComponent]
    cases g.latchRequest? c <;> rfl
  simp only [isSatisfied, hgate, ownerHolds, hc, Option.any_some, Bool.and_eq_true] at hs
  obtain ⟨hwired, hholds⟩ := hs
  have hsame : g.settled.isSatisfied v = g.gadgetHolds (g.settledComponent c) := by
    have hkept : g.settled.isWired v port.arity = true := hwired
    simp only [isSatisfied, hgate, ownerHolds, hsettled, Option.any_some, hkept, Bool.true_and]
    rfl
  refine ⟨_, hsettled, ?_⟩
  rw [hsame, hsignals]
  exact gadgetHolds_settledComponent_iff hgadget hholds

theorem Consistent.isSatisfied_settled_iff (h : g.Consistent) {v : Vertex}
    (hv : g.vertices[id]? = some v) (hs : g.isSatisfied v = true) :
    g.settled.isSatisfied v = true ↔ ¬g.settled.TellsUnasked v := by
  by_cases hkind : v.gate.kind = .universal
  · obtain ⟨owner, port, hgate⟩ : ∃ owner port, v.gate = .universal owner port := by
      cases hgate : v.gate with
      | universal owner port => exact ⟨owner, port, rfl⟩
      | plain | converter | existential | evaluator =>
        rw [hgate] at hkind
        cases hkind
    obtain ⟨c, hc, hiff⟩ := h.isSatisfied_settled_of_universal hv hgate hs
    rw [hiff, not_iff_not]
    constructor
    · intro htells
      exact ⟨owner, port, c, hgate, hc, htells⟩
    · rintro ⟨owner', port', c', hgate', hc', htells⟩
      obtain ⟨rfl, rfl⟩ : owner = owner' ∧ port = port' := by simpa [hgate] using hgate'
      obtain rfl := Option.some.inj (hc.symm.trans hc')
      exact htells
  · rw [h.isSatisfied_settled_of_ne hv hkind, hs, eq_self, true_iff]
    rintro ⟨owner, port, -, hgate, -⟩
    exact hkind (congrArg Gate.kind hgate)

/-- After an accepted move an end of the edge is satisfied unless its gadget tells unasked. -/
theorem isSatisfied_end_iff_of_tryReverse (hg : g.Reachable)
    (h : (Edit.tryReverse id).run g = .ok true next) :
    ∃ e, next.edges[id]? = some e ∧ ∀ vertex, e.EndsAt vertex →
      ∃ v, next.vertices[vertex]? = some v ∧
        (next.isSatisfied v = true ↔ ¬next.TellsUnasked v) := by
  have hconsistent := hg.consistent
  obtain ⟨e, he, -, hends, rfl⟩ := moved?_eq_some_iff.1 (Edit.run_tryReverse_eq_ok_true_iff.1 h)
  obtain rfl : e.id = id := (hconsistent.edges id e he).1
  have hflip : (g.flip e).Consistent :=
    hconsistent.of_sameShape (SameShape.insert_edge he (Edge.shape_reverse e))
  have hend (vertex : Ident)
      (hany : (g.flip e).vertices[vertex]?.any (g.flip e).isSatisfied = true) :
      ∃ v, (g.flip e).settled.touch.vertices[vertex]? = some v ∧
        ((g.flip e).settled.touch.isSatisfied v = true ↔
          ¬(g.flip e).settled.touch.TellsUnasked v) := by
    obtain ⟨v, hv, hs⟩ := (Option.any_eq_true _ _).1 hany
    exact ⟨v, hv, hflip.isSatisfied_settled_iff hv hs⟩
  rw [isEdgeSatisfied, Bool.and_eq_true] at hends
  refine ⟨e.reverse, by simp [touch, settled, Pass.settle, flip], ?_⟩
  rintro vertex (rfl | rfl)
  · exact hend _ hends.1
  · exact hend _ hends.2

/-- A universal gadget alone with a hidden vertex, which asks it to try and tells it of a success;
it drives its letter both ways, has won the negated branch and tells of its own success. -/
def loneUniversal : Graph :=
  let hub : Ident := ⟨["hub"]⟩
  let port (p : QuantifierPort) : Ident := Ident.child ⟨["gadget"]⟩ p.name
  afterAll ∅
    [.addComponent ⟨["gadget"]⟩ .origin (.universal 'x'),
     .addVertex hub .origin false,
     .addEdge ⟨["try"]⟩ hub (port .tryIn) .double,
     .addEdge ⟨["called"]⟩ hub (port .tryOut) .double,
     .addEdge ⟨["told"]⟩ hub (port .satIn) .double,
     .addEdge ⟨["negative"]⟩ (port .inv) hub .single,
     .addEdge ⟨["sat"]⟩ (port .satOut) hub .double,
     .addEdge ⟨["positive"]⟩ (port .out) hub .single,
     .validate]

theorem isSatisfied_end_iff_loneUniversal :
    ∃ next, (Edit.tryReverse ⟨["try"]⟩).run loneUniversal = .ok true next ∧
      ∃ e, next.edges[(⟨["try"]⟩ : Ident)]? = some e ∧ ∀ vertex, e.EndsAt vertex →
        ∃ v, next.vertices[vertex]? = some v ∧
          (next.isSatisfied v = true ↔ ¬next.TellsUnasked v) := by
  have haccepted : (Edit.tryReverse ⟨["try"]⟩).run loneUniversal =
      .ok true (loneUniversal.attempt ⟨["try"]⟩) :=
    Edit.run_tryReverse_eq_ok_true_iff.2 (moved?_eq_some_attempt (by decide +kernel))
  exact ⟨_, haccepted, isSatisfied_end_iff_of_tryReverse ⟨_, rfl⟩ haccepted⟩

/-- A gadget that is no longer asked to try loses its latch, and with it its ports are lost. -/
theorem not_isEdgeSatisfied_of_tryReverse_loneUniversal :
    loneUniversal.Reachable ∧ loneUniversal.checkIntegrity = .ok () ∧
      ∃ next e, (Edit.tryReverse ⟨["try"]⟩).run loneUniversal = .ok true next ∧
        next.edges[(⟨["try"]⟩ : Ident)]? = some e ∧ next.isEdgeSatisfied e = false := by
  refine ⟨⟨_, rfl⟩, checkIntegrity_of_isOk (by decide +kernel),
    loneUniversal.attempt ⟨["try"]⟩,
    ⟨⟨["try"]⟩, ⟨["gadget", "tryin"]⟩, ⟨["hub"]⟩, .double, false, false⟩, ?_, ?_, ?_⟩
  · exact Edit.run_tryReverse_eq_ok_true_iff.2 (moved?_eq_some_attempt (by decide +kernel))
  · decide +kernel
  · decide +kernel

end Graph

end ConstraintLogic
