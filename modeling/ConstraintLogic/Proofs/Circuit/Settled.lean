import ConstraintLogic.Proofs.Branches
import ConstraintLogic.Proofs.Circuit.Simulation
/-!
# Satisfied and settled

However a circuit is played, its vertices stay satisfied and its latches stay as the gadgets ask
for them. A move checks its two ends before the latches are settled, and settling may clear a
latch; but a gadget whose latch is cleared is not asked to try, and then it tells of no success.
-/

namespace ConstraintLogic

/-- Every vertex is satisfied, every set latch is in use, and a validation changes nothing. -/
structure Graph.AtRest (g : Graph) : Prop where
  satisfied : ∀ (id : Ident) (v : Vertex), g.vertices[id]? = some v → g.isSatisfied v = true
  asked : ∀ (id : Ident) (c : Component), g.components[id]? = some c → c.latch? = some true →
    g.portReceives c QuantifierPort.tryIn.name = true
  validated : ∃ report, Edit.validate.run g = .ok report g ∧ report.allSatisfied = true ∧
    (∀ id : Ident, id ∈ report.satisfied ↔ id ∈ g.vertices) ∧ report.latchChanges = []

namespace Circuit

variable {text : String} {q : Qbf} {g : Graph} {b : Board}

theorem Shows.isSatisfied (hq : q.IsProper) (h : Shows q g b) (hb : b.Lawful q) {id : Ident}
    {v : Vertex} (hv : g.vertices[id]? = some v) : g.isSatisfied v = true := by
  obtain ⟨p, hp, rfl, hat⟩ := h.place id v hv
  rw [h.isSatisfied_eq hq hp hat]
  exact hb _

/-- A component with a latch is a universal quantifier of the formula. -/
theorem Shows.exists_universal (h : Shows q g b) {id : Ident} {c : Component}
    (hc : g.components[id]? = some c) (hl : c.latch? ≠ none) :
    ∃ (index : Nat) (letter : Char), q.bindings[index]? = some ⟨.universal, letter⟩ ∧
      QuantifierAt ⟨.universal, letter⟩ (b.latch letter) c := by
  obtain ⟨⟨kind, letter⟩, hmem, rfl⟩ := h.binding id c hc hl
  obtain ⟨c', hc', hat⟩ := h.quantifier _ hmem
  obtain rfl : c = c' := Option.some.inj (hc.symm.trans hc')
  obtain ⟨index, hi⟩ := List.mem_iff_getElem?.1 hmem
  cases kind with
  | existential =>
    refine absurd ?_ hl
    rw [Component.latch?, hat.gadget_eq]
    rfl
  | universal => exact ⟨index, letter, hi, hat⟩

theorem QuantifierAt.latch?_eq {letter : Char} {latch : Bool} {c : Component}
    (h : QuantifierAt ⟨.universal, letter⟩ latch c) : c.latch? = some latch := by
  rw [Component.latch?, h.gadget_eq]
  rfl

theorem latch?_ne_none_of_latchRequest? {c : Component} {r : LatchRequest}
    (h : g.latchRequest? c = some r) : c.latch? ≠ none := by
  intro hnone
  cases hgadget : c.gadget <;> simp_all [Graph.latchRequest?, Component.latch?, Gadget.latch?]

/-- On a steady board no gadget asks for another latch than it has. -/
theorem Shows.isSettled (hq : q.IsProper) (h : Shows q g b) (hb : b.Steady q) : g.IsSettled := by
  intro id c r hc hr
  obtain ⟨index, letter, hi, hat⟩ := h.exists_universal hc (latch?_ne_none_of_latchRequest? hr)
  have hlatch := hb.latch_eq hq.nodup hi
  rw [h.latchRequest?_eq hq hb.lawful hi hat] at hr
  rw [hat.latch?_eq, Option.some.injEq, hlatch]
  cases hcall : b.on (.call index) with
  | false =>
    rw [hcall, if_neg (by simp), Option.some.injEq] at hr
    rw [← hr]
    rfl
  | true =>
    rw [hcall, if_pos rfl] at hr
    split at hr
    · next hwon =>
      rw [Option.some.injEq] at hr
      rw [← hr, hwon, Bool.or_true]
      rfl
    · cases hr

theorem Shows.portReceives_of_latch (hq : q.IsProper) (h : Shows q g b) (hb : b.Steady q)
    {id : Ident} {c : Component} (hc : g.components[id]? = some c) (hl : c.latch? = some true) :
    g.portReceives c QuantifierPort.tryIn.name = true := by
  obtain ⟨index, letter, hi, hat⟩ := h.exists_universal hc (by simp [hl])
  have hlatch : b.latch letter = true := Option.some.inj (hat.latch?_eq.symm.trans hl)
  have hcall := hb.call_of_latch hq.nodup hi hlatch
  exact (congrArg Signals.tryIn (h.signals_eq hq hi hat)).trans hcall

theorem Shows.exists_id_iff_mem (h : Shows q g b) {id : Ident} :
    (∃ (key : Ident) (v : Vertex), g.vertices[key]? = some v ∧ v.id = id) ↔ id ∈ g.vertices := by
  rw [Registry.mem_iff_exists]
  have hid {key : Ident} {v : Vertex} (hv : g.vertices[key]? = some v) : v.id = key := by
    obtain ⟨p, -, rfl, hat⟩ := h.place key v hv
    exact hat.id_eq
  constructor
  · rintro ⟨key, v, hv, rfl⟩
    exact ⟨v, by rwa [hid hv]⟩
  · rintro ⟨v, hv⟩
    exact ⟨id, v, hv, hid hv⟩

theorem Shows.atRest (hq : q.IsProper) (h : Shows q g b) (hb : b.Steady q) : g.AtRest where
  satisfied _ _ := h.isSatisfied hq hb.lawful
  asked _ _ := h.portReceives_of_latch hq hb
  validated := by
    have hsatisfied (id : Ident) (v : Vertex) (hv : g.vertices[id]? = some v) :
        g.isSatisfied v = true := h.isSatisfied hq hb.lawful hv
    obtain ⟨hall, hchanges, hsame⟩ := Graph.validate_of_isSettled hsatisfied (h.isSettled hq hb)
    have hrun : Edit.validate.run g = .ok g.validate.1 g.validate.2 := rfl
    refine ⟨g.validate.1, by rw [hrun, hsame], hall, ?_, hchanges⟩
    intro id
    rw [← h.exists_id_iff_mem]
    exact Graph.mem_satisfied_outcome hsatisfied

/-- However a circuit is played, it is at rest after each attempt. -/
theorem atRest_play (hq : Qbf.parse text = .ok q) :
    ∃ g, compile text = .ok g ∧ ∀ moves : List Ident, (g.play moves).AtRest := by
  have hproper := Qbf.isProper_of_parse hq
  obtain ⟨g, hg, hshows⟩ := exists_compile hq
  refine ⟨g, hg, fun moves => ?_⟩
  obtain ⟨b, hplay, hreach⟩ := hshows.play hproper (Board.steady_start q) moves
  exact hplay.atRest hproper (hreach.steady hproper.nodup (Board.steady_start q))

theorem atRest_play_copycat :
    Qbf.parse "forall x exists y : (x||!y)&&(!x||y)" = .ok Qbf.copycat ∧
      ∃ g, compile "forall x exists y : (x||!y)&&(!x||y)" = .ok g ∧
        ∀ moves : List Ident, (g.play moves).AtRest :=
  ⟨Qbf.parse_copycat, atRest_play Qbf.parse_copycat⟩

end Circuit

end ConstraintLogic
