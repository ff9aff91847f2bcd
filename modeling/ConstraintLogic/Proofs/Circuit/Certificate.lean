import ConstraintLogic.Proofs.Circuit.Complete
import ConstraintLogic.Proofs.Circuit.Simulation
/-!
# What stands behind a win

When the edge into the sink points into it, the whole circuit bears it out. Every quantifier tells
of a success, so that the junction does; the probes have told it that all quantifiers try and that
the matrix is true under the values they drive. Each universal quantifier drives its letter true
and has its latch set for the other value.
-/

namespace ConstraintLogic

/-- The edge of this name points from one vertex to another. -/
def Graph.Points (g : Graph) (edge source target : Ident) : Prop :=
  ∃ e, g.edges[edge]? = some e ∧ e.source = source ∧ e.target = target

namespace Circuit

/-- What the edges and gadgets of a won circuit show. -/
structure Certificate (q : Qbf) (g : Graph) : Prop where
  source_try : ∀ first, q.bindings.head? = some first →
    g.Points ⟨["source", "try"]⟩ sourceId (quantifierPort first.letter .tryIn)
  try_link : ∀ (index : Nat) (left right : Binding), q.bindings[index]? = some left →
    q.bindings[index + 1]? = some right →
    g.Points (tryId index) (quantifierPort left.letter .tryOut) (quantifierPort right.letter .tryIn)
  sat_link : ∀ (index : Nat) (left right : Binding), q.bindings[index]? = some left →
    q.bindings[index + 1]? = some right →
    g.Points (satId index) (quantifierPort right.letter .satOut) (quantifierPort left.letter .satIn)
  junction_sat : ∀ last, q.bindings.getLast? = some last →
    g.Points ⟨["junction", "sat"]⟩ junctionId (quantifierPort last.letter .satIn)
  tryout_in : ∀ last, q.bindings.getLast? = some last →
    g.Points ⟨["probe", "tryout", "in"]⟩ (quantifierPort last.letter .tryOut)
      ⟨["probe", "tryout", "port"]⟩
  tryout_out : g.Points ⟨["probe", "tryout", "out"]⟩ ⟨["probe", "tryout", "port"]⟩ junctionId
  result_in : g.Points ⟨["probe", "result", "in"]⟩ (evaluatorPort .satisfied)
    ⟨["probe", "result", "port"]⟩
  result_out : g.Points ⟨["probe", "result", "out"]⟩ ⟨["probe", "result", "port"]⟩ junctionId
  matrix : ∃ c, g.components[formulaId]? = some c ∧
    q.matrix.evaluate (fun l => g.portReceives c (EvaluatorPort.literal l).name) = true
  existential : ∀ letter, ⟨.existential, letter⟩ ∈ q.bindings →
    ∃ c, g.components[quantifierId letter]? = some c ∧
      ¬(g.portDrives c QuantifierPort.out.name = true ∧
        g.portDrives c QuantifierPort.inv.name = true)
  universal : ∀ letter, ⟨.universal, letter⟩ ∈ q.bindings →
    ∃ c, g.components[quantifierId letter]? = some c ∧
      g.portDrives c QuantifierPort.out.name = true ∧
      g.portDrives c QuantifierPort.inv.name = false ∧ c.latch? = some true

variable {text : String} {q : Qbf} {g : Graph} {b : Board} {w : Wire}

/-! ## On the board -/

/-- Every signal between the parts of the circuit is on, and the matrix is true. -/
structure Board.AllOn (b : Board) (q : Qbf) : Prop where
  call : ∀ index ≤ q.bindings.length, b.on (.call index) = true
  success : ∀ index ≤ q.bindings.length, b.on (.success index) = true
  called : b.on .called = true
  result : b.on .result = true
  told : b.on .told = true
  formula : b.formulaHolds q.matrix = true

theorem Board.Lawful.allOn (h : b.Lawful q) (hon : b.on (.success 0) = true) : b.AllOn q := by
  have hlast := h.success_of_le (Nat.zero_le _) (Nat.le_refl _) hon
  obtain ⟨hcalled, htold⟩ := h.probes_of_success_last hlast
  have hresult := h.result_of_told htold
  exact
    { call := fun index hi => h.call_of_success (Nat.zero_le _) hi hon
      success := fun index hi => h.success_of_le (Nat.zero_le _) hi hon
      called := hcalled
      result := hresult
      told := htold
      formula := h.formulaHolds_of_result hresult }

/-! ## In the graph -/

/-- Edges point along their signals where the wires are on. -/
theorem Shows.points_iff (h : Shows q g b) (hw : w.IsIn (letters q)) (hloop : w ≠ .loop) :
    g.Points (w.id (letters q)) (w.driver (letters q)).id (w.receiver (letters q)).id ↔
      b.on w = true := by
  have hne : (w.driver (letters q)).id ≠ (w.receiver (letters q)).id :=
    Wire.id_driver_ne_receiver hloop
  rw [Graph.Points, h.getElem?_edges hw]
  cases b.on w <;> simp [Wire.edge, hne, hne.symm]

theorem Shows.points (h : Shows q g b) (hw : w.IsIn (letters q)) (hon : b.on w = true) {d r : Place}
    (hd : w.driver (letters q) = d) (hr : w.receiver (letters q) = r) :
    g.Points (w.id (letters q)) d.id r.id := by
  refine ⟨_, h.getElem?_edges hw, ?_, ?_⟩
  · simp [Wire.edge, hon, hd]
  · simp [Wire.edge, hon, hr]

theorem driver_success_zero {first : Binding} (hfirst : q.bindings.head? = some first) :
    (Wire.success 0).driver (letters q) = .port first.letter .satOut := by
  rw [List.head?_eq_getElem?] at hfirst
  exact (driver_portWire (getElem?_letters hfirst)).2

/-- The edge into the sink points into it where the first quantifier tells of a success. -/
theorem Shows.points_sinkEdge_iff (h : Shows q g b) {first : Binding}
    (hfirst : q.bindings.head? = some first) :
    g.Points sinkEdgeId (quantifierPort first.letter .satOut) ⟨["sink", "a"]⟩ ↔
      b.on (.success 0) = true := by
  have hiff := h.points_iff (w := .success 0) (Nat.zero_le _) (by simp)
  rwa [driver_success_zero hfirst] at hiff

theorem call_isIn_iff {index : Nat} :
    (Wire.call index).IsIn (letters q) ↔ index ≤ q.bindings.length := by
  rw [Wire.IsIn, length_letters]

theorem success_isIn_iff {index : Nat} :
    (Wire.success index).IsIn (letters q) ↔ index ≤ q.bindings.length := by
  rw [Wire.IsIn, length_letters]

theorem getElem?_of_getLast? {last : Binding} (hlast : q.bindings.getLast? = some last) :
    ∃ index, q.bindings.length = index + 1 ∧ q.bindings[index]? = some last := by
  rw [List.getLast?_eq_getElem?] at hlast
  have hlt : q.bindings.length - 1 < q.bindings.length := (List.getElem?_eq_some_iff.1 hlast).1
  exact ⟨q.bindings.length - 1, by omega, hlast⟩

section Links

variable {index : Nat} {left right : Binding}

theorem Shows.points_tryId (h : Shows q g b) (hon : b.AllOn q)
    (hleft : q.bindings[index]? = some left) (hright : q.bindings[index + 1]? = some right) :
    g.Points (tryId index) (quantifierPort left.letter .tryOut)
      (quantifierPort right.letter .tryIn) := by
  have hlt : index + 1 < q.bindings.length := (List.getElem?_eq_some_iff.1 hright).1
  have hid : (Wire.call (index + 1)).id (letters q) = tryId index := by
    rw [Wire.id, length_letters, if_neg (Nat.ne_of_lt hlt)]
  rw [← hid]
  exact h.points (call_isIn_iff.2 (Nat.le_of_lt hlt)) (hon.call _ (Nat.le_of_lt hlt))
    (driver_portWire (getElem?_letters hleft)).1 (receiver_portWire (getElem?_letters hright)).1

theorem Shows.points_satId (h : Shows q g b) (hon : b.AllOn q)
    (hleft : q.bindings[index]? = some left) (hright : q.bindings[index + 1]? = some right) :
    g.Points (satId index) (quantifierPort right.letter .satOut)
      (quantifierPort left.letter .satIn) := by
  have hlt : index + 1 < q.bindings.length := (List.getElem?_eq_some_iff.1 hright).1
  have hid : (Wire.success (index + 1)).id (letters q) = satId index := by
    rw [Wire.id, length_letters, if_neg (Nat.ne_of_lt hlt)]
  rw [← hid]
  exact h.points (success_isIn_iff.2 (Nat.le_of_lt hlt)) (hon.success _ (Nat.le_of_lt hlt))
    (driver_portWire (getElem?_letters hright)).2 (receiver_portWire (getElem?_letters hleft)).2

theorem Shows.points_source (h : Shows q g b) (hon : b.AllOn q) {first : Binding}
    (hfirst : q.bindings.head? = some first) :
    g.Points ⟨["source", "try"]⟩ sourceId (quantifierPort first.letter .tryIn) := by
  rw [List.head?_eq_getElem?] at hfirst
  exact h.points (w := .call 0) (d := .source) (Nat.zero_le _) (hon.call 0 (Nat.zero_le _)) rfl
    (receiver_portWire (getElem?_letters hfirst)).1

theorem Shows.points_junction (h : Shows q g b)
    (hon : b.on (.success q.bindings.length) = true) {last : Binding}
    (hlast : q.bindings.getLast? = some last) :
    g.Points ⟨["junction", "sat"]⟩ junctionId (quantifierPort last.letter .satIn) := by
  obtain ⟨index, hlength, hi⟩ := getElem?_of_getLast? hlast
  have hletters : (letters q).length = index + 1 := by rw [length_letters, hlength]
  have hid : (Wire.success (index + 1)).id (letters q) = ⟨["junction", "sat"]⟩ := by
    rw [Wire.id, if_pos hletters.symm]
  rw [← hid]
  rw [hlength] at hon
  exact h.points (success_isIn_iff.2 (Nat.le_of_eq hlength.symm)) hon
    (d := .junction) (portOr_of_length_le (Nat.le_of_eq hletters) _ _)
    (receiver_portWire (getElem?_letters hi)).2

theorem Shows.points_tryout (h : Shows q g b) (hon : b.AllOn q) {last : Binding}
    (hlast : q.bindings.getLast? = some last) :
    g.Points ⟨["probe", "tryout", "in"]⟩ (quantifierPort last.letter .tryOut)
      ⟨["probe", "tryout", "port"]⟩ := by
  obtain ⟨index, hlength, hi⟩ := getElem?_of_getLast? hlast
  have hletters : (letters q).length = index + 1 := by rw [length_letters, hlength]
  have hid : (Wire.call (index + 1)).id (letters q) = ⟨["probe", "tryout", "in"]⟩ := by
    rw [Wire.id, if_pos hletters.symm]
  rw [← hid]
  exact h.points (call_isIn_iff.2 (Nat.le_of_eq hlength.symm))
    (hon.call _ (Nat.le_of_eq hlength.symm)) (driver_portWire (getElem?_letters hi)).1
    (r := .callProbe) (portOr_of_length_le (Nat.le_of_eq hletters) _ _)

end Links

/-! ## Quantifiers -/

theorem Shows.not_drives_both (hq : q.IsProper) (h : Shows q g b) (hb : b.Lawful q)
    (hon : b.AllOn q) {letter : Char} (hmem : ⟨.existential, letter⟩ ∈ q.bindings) :
    ∃ c, g.components[quantifierId letter]? = some c ∧
      ¬(g.portDrives c QuantifierPort.out.name = true ∧
        g.portDrives c QuantifierPort.inv.name = true) := by
  obtain ⟨index, hi⟩ := List.mem_iff_getElem?.1 hmem
  obtain ⟨c, hc, hat⟩ := h.quantifier _ hmem
  have hlt : index < q.bindings.length := (List.getElem?_eq_some_iff.1 hi).1
  have hsignals := h.signals_eq hq hi hat
  have hout : g.portDrives c QuantifierPort.out.name = b.on (.literal (.positive letter)) :=
    congrArg Signals.out hsignals
  have hinv : g.portDrives c QuantifierPort.inv.name = b.on (.literal (.negative letter)) :=
    congrArg Signals.inv hsignals
  refine ⟨c, hc, ?_⟩
  rw [hout, hinv]
  exact hb.not_out_and_inv hi (hon.call _ hlt)

theorem Shows.drives_out (hq : q.IsProper) (h : Shows q g b) (hb : b.Lawful q)
    (hon : b.AllOn q) {letter : Char} (hmem : ⟨.universal, letter⟩ ∈ q.bindings) :
    ∃ c, g.components[quantifierId letter]? = some c ∧
      g.portDrives c QuantifierPort.out.name = true ∧
      g.portDrives c QuantifierPort.inv.name = false ∧ c.latch? = some true := by
  obtain ⟨index, hi⟩ := List.mem_iff_getElem?.1 hmem
  obtain ⟨c, hc, hat⟩ := h.quantifier _ hmem
  have hlt : index < q.bindings.length := (List.getElem?_eq_some_iff.1 hi).1
  have hsignals := h.signals_eq hq hi hat
  obtain ⟨hlatch, hout⟩ := hb.latch_and_out hi (hon.success _ (Nat.le_of_lt hlt))
  have hinv : b.on (.literal (.negative letter)) = false := by
    have hne := hb.out_ne_inv hi (hon.call _ hlt)
    rw [hout] at hne
    exact Bool.eq_false_iff.2 hne.symm
  refine ⟨c, hc, (congrArg Signals.out hsignals).trans hout,
    (congrArg Signals.inv hsignals).trans hinv, ?_⟩
  rw [Component.latch?, hat.gadget_eq, hlatch]
  rfl

theorem Shows.certificate (hq : q.IsProper) (h : Shows q g b) (hb : b.Lawful q)
    (hwon : b.on (.success 0) = true) : Certificate q g := by
  have hon := hb.allOn hwon
  obtain ⟨c, hc, hat⟩ := h.evaluator
  exact
    { source_try := fun _ => h.points_source hon
      try_link := fun _ _ _ => h.points_tryId hon
      sat_link := fun _ _ _ => h.points_satId hon
      junction_sat := fun _ => h.points_junction (hon.success _ (Nat.le_refl _))
      tryout_in := fun _ => h.points_tryout hon
      tryout_out := h.points (w := .called) trivial hon.called rfl rfl
      result_in := h.points (w := .result) trivial hon.result rfl rfl
      result_out := h.points (w := .told) trivial hon.told rfl rfl
      matrix := ⟨c, hc, (h.formulaHolds_eq hq hat).trans hon.formula⟩
      existential := fun _ => h.not_drives_both hq hb hon
      universal := fun _ => h.drives_out hq hb hon }

/-! ## Plays -/

theorem Shows.exists_points (hq : q.IsProper) (h : Shows q g .start)
    (hbranches : q.EveryBranchSatisfiable) {first : Binding}
    (hfirst : q.bindings.head? = some first) :
    ∃ moves, (g.play moves).Points sinkEdgeId (quantifierPort first.letter .satOut)
      ⟨["sink", "a"]⟩ := by
  obtain ⟨won, hreach, hon⟩ := Board.exists_won hq hbranches
  obtain ⟨moves, -, hshows⟩ := h.exists_play hq (Board.steady_start q) hreach
  exact ⟨moves, (hshows.points_sinkEdge_iff hfirst).2 hon⟩

/-- However a circuit is played, a success into the sink comes with its certificate. -/
theorem certificate_of_points (hq : Qbf.parse text = .ok q) :
    ∃ g first, compile text = .ok g ∧ q.bindings.head? = some first ∧ ∀ moves : List Ident,
      (g.play moves).Points sinkEdgeId (quantifierPort first.letter .satOut) ⟨["sink", "a"]⟩ →
        Certificate q (g.play moves) := by
  have hproper := Qbf.isProper_of_parse hq
  obtain ⟨g, hg, hshows⟩ := exists_compile hq
  have hfirst := List.head?_eq_some_head hproper.bindings_ne_nil
  refine ⟨g, _, hg, hfirst, ?_⟩
  intro moves hpoints
  obtain ⟨b, hplay, hreach⟩ := hshows.play hproper (Board.steady_start q) moves
  have hb := hreach.steady hproper.nodup (Board.steady_start q)
  exact hplay.certificate hproper hb.lawful ((hplay.points_sinkEdge_iff hfirst).1 hpoints)

theorem certificate_of_points_copycat :
    ∃ g moves, compile "forall x exists y : (x||!y)&&(!x||y)" = .ok g ∧
      (g.play moves).Points sinkEdgeId (quantifierPort 'x' .satOut) ⟨["sink", "a"]⟩ ∧
      Certificate Qbf.copycat (g.play moves) := by
  obtain ⟨g, first, hg, hfirst, hall⟩ := certificate_of_points Qbf.parse_copycat
  obtain ⟨g', hg', hshows⟩ := exists_compile Qbf.parse_copycat
  obtain rfl : g = g' := Except.ok.inj (hg.symm.trans hg')
  obtain rfl : ⟨.universal, 'x'⟩ = first := Option.some.inj hfirst
  have hq := Qbf.isProper_of_parse Qbf.parse_copycat
  have hbranches := Qbf.isTrue_copycat.everyBranchSatisfiable hq
  obtain ⟨moves, hpoints⟩ := hshows.exists_points hq hbranches rfl
  exact ⟨g, moves, hg, hpoints, hall moves hpoints⟩

end Circuit

end ConstraintLogic
