import ConstraintLogic.Proofs.Circuit.Certificate
/-!
# What a latch remembers

A set latch stands for a position of the past. The branch of the negated letter was won there, and
from there on the quantifier was asked to try without a break, so that no universal letter further
out could take its other value. A universal quantifier that tells of a success has its latch set
and wins the other branch where it stands: it has won both, under the same outer values.
-/

namespace ConstraintLogic

namespace Graph

/-- An edge points into the vertex of this name. -/
def receivesAt (g : Graph) (id : Ident) : Bool :=
  g.vertices[id]?.any g.receives

/-- An edge points out of the vertex of this name. -/
def drivesAt (g : Graph) (id : Ident) : Bool :=
  g.vertices[id]?.any g.drives

end Graph

namespace Circuit

/-! ## Runs of boards -/

namespace Board

/-- Each position of the run, up to the last one, is as the one before or a legal move further. -/
def IsRun (q : Qbf) (position : Nat → Board) (last : Nat) : Prop :=
  ∀ t < last, position (t + 1) = position t ∨ Step q (position t) (position (t + 1))

/-- The matrix is won while a literal is driven. -/
structure WonWith (b : Board) (q : Qbf) (l : Literal) : Prop where
  driven : b.on (.literal l) = true
  success : b.on (.success q.bindings.length) = true
  formula : b.formulaHolds q.matrix = true

/-- A quantifier is asked to try, and each universal letter further out is driven to its value. -/
structure TriesUnder (b : Board) (q : Qbf) (k : Nat) (value : Char → Bool) : Prop where
  call : b.on (.call k) = true
  outer : ∀ i c, i < k → q.bindings[i]? = some ⟨.universal, c⟩ →
    b.on (.literal (.positive c)) = value c ∧ b.on (.literal (.negative c)) = !value c

/-- The branch of a literal was won at some position, and ever since then the quantifier has been
trying under the same values. -/
def WonSince (q : Qbf) (k : Nat) (l : Literal) (position : Nat → Board) (last : Nat) : Prop :=
  ∃ p ≤ last, (position p).WonWith q l ∧
    ∃ value, ∀ t, p ≤ t → t ≤ last → (position t).TriesUnder q k value

variable {q : Qbf} {b next : Board} {k : Nat} {position : Nat → Board} {last : Nat}

theorem IsRun.of_succ (h : IsRun q position (last + 1)) : IsRun q position last :=
  fun t ht => h t (Nat.lt_succ_of_lt ht)

theorem IsRun.steady (hn : (letters q).Nodup) (h : IsRun q position last)
    (hb : (position 0).Steady q) : (position last).Steady q := by
  induction last with
  | zero => exact hb
  | succ last ih =>
    have hlast := ih h.of_succ
    rcases h last (Nat.lt_succ_self last) with hsame | ⟨w, -, hm⟩
    · rwa [hsame]
    · exact hlast.move? hn hm

theorem Lawful.triesUnder_value (h : b.Lawful q) (hk : k ≤ q.bindings.length)
    (hon : b.on (.call k) = true) : b.TriesUnder q k b.value where
  call := hon
  outer i c hi hc := by
    have hne := h.out_ne_inv hc (h.call_of_le hi hk hon)
    simp only [value]
    grind

/-- A success behind a quantifier means that the matrix is won. -/
theorem Lawful.wonWith (h : b.Lawful q) {l : Literal} (hk : k ≤ q.bindings.length)
    (hon : b.on (.success k) = true) (hl : b.on (.literal l) = true) : b.WonWith q l := by
  have hlast := h.success_of_le hk (Nat.le_refl _) hon
  have htold := (h.probes_of_success_last hlast).2
  exact ⟨hl, hlast, h.formulaHolds_of_result (h.result_of_told htold)⟩

/-- While a quantifier is asked to try, a move leaves the outer universal letters alone. -/
theorem TriesUnder.move? (hq : q.IsProper) (hb : b.Steady q) {value : Char → Bool} {w : Wire}
    (hk : k ≤ q.bindings.length) (h : b.TriesUnder q k value) (hm : b.move? q w = some next)
    (hon : next.on (.call k) = true) : next.TriesUnder q k value where
  call := hon
  outer i c hi hc := by
    have hnext := (hb.move? hq.nodup hm).lawful
    have hsame := value_eq_of_move hb.lawful hnext hm hi hk hc h.call hon
    have hvalue : next.value c = value c := hsame.trans (h.outer i c hi hc).1
    have houter := (hnext.triesUnder_value hk hon).outer i c hi hc
    rwa [hvalue] at houter

/-- A latch that a move sets is set by a win of the negated letter. -/
theorem Steady.wonWith_of_latch (hq : q.IsProper) (hb : b.Steady q) {u : Char} {w : Wire}
    (hu : q.bindings[k]? = some ⟨.universal, u⟩) (hm : b.move? q w = some next)
    (hold : b.latch u = false) (hl : next.latch u = true) : next.WonWith q (.negative u) := by
  have hk : k < q.bindings.length := (List.getElem?_eq_some_iff.1 hu).1
  have hnext := (hb.move? hq.nodup hm).lawful
  have hidx : (letters q).idxOf u = k := idxOf_letter hq.nodup hu
  obtain ⟨-, -, -, rfl⟩ := move?_eq_some_iff.1 hm
  simp only [settle, settledLatch, hidx, turn_latch, hold, Bool.false_or, Bool.and_eq_true] at hl
  exact hnext.wonWith hk hl.2.1 hl.2.2

theorem WonSince.extend {l : Literal} (h : WonSince q k l position last)
    (hnext : ∀ value, (position last).TriesUnder q k value →
      (position (last + 1)).TriesUnder q k value) : WonSince q k l position (last + 1) := by
  obtain ⟨p, hp, hwon, value, hsince⟩ := h
  refine ⟨p, Nat.le_succ_of_le hp, hwon, value, ?_⟩
  intro t hpt ht
  rcases Nat.lt_or_eq_of_le ht with hlt | rfl
  · exact hsince t hpt (Nat.le_of_lt_succ hlt)
  · exact hnext value (hsince last hp (Nat.le_refl _))

/-- A set latch has its position in the past of the run. -/
theorem IsRun.wonSince_of_latch (hq : q.IsProper) (h : IsRun q position last)
    (hstart : position 0 = start) {u : Char} (hu : q.bindings[k]? = some ⟨.universal, u⟩)
    (hl : (position last).latch u = true) : WonSince q k (.negative u) position last := by
  have hk : k < q.bindings.length := (List.getElem?_eq_some_iff.1 hu).1
  have hsteady : (position 0).Steady q := by
    rw [hstart]
    exact steady_start q
  induction last with
  | zero =>
    rw [hstart] at hl
    cases hl
  | succ last ih =>
    have hb := h.of_succ.steady hq.nodup hsteady
    rcases h last (Nat.lt_succ_self last) with hsame | ⟨w, -, hm⟩
    · rw [hsame] at hl
      exact (ih h.of_succ hl).extend fun value htries => by rwa [hsame]
    · have hnext := hb.move? hq.nodup hm
      have hcall := hnext.call_of_latch hq.nodup hu hl
      cases hold : (position last).latch u with
      | true =>
        exact (ih h.of_succ hold).extend fun value htries =>
          htries.move? hq hb (Nat.le_of_lt hk) hm hcall
      | false =>
        have hwon := hb.wonWith_of_latch hq hu hm hold hl
        have htries := hnext.lawful.triesUnder_value (Nat.le_of_lt hk) hcall
        refine ⟨last + 1, Nat.le_refl _, hwon, (position (last + 1)).value, ?_⟩
        intro t hlt ht
        rwa [Nat.le_antisymm ht hlt]

/-- A universal quantifier that tells of a success wins its letter now and has won the negated
letter before. -/
theorem IsRun.wonSince_of_success (hq : q.IsProper) (h : IsRun q position last)
    (hstart : position 0 = start) {u : Char} (hu : q.bindings[k]? = some ⟨.universal, u⟩)
    (hon : (position last).on (.success k) = true) :
    (position last).WonWith q (.positive u) ∧ ∃ p < last, (position p).WonWith q (.negative u) ∧
      ∃ value, ∀ t, p ≤ t → t ≤ last → (position t).TriesUnder q k value := by
  have hk : k < q.bindings.length := (List.getElem?_eq_some_iff.1 hu).1
  have hsteady : (position 0).Steady q := by
    rw [hstart]
    exact steady_start q
  have hlast := (h.steady hq.nodup hsteady).lawful
  obtain ⟨hlatch, hout⟩ := hlast.latch_and_out hu hon
  obtain ⟨p, hp, hwon, hsince⟩ := h.wonSince_of_latch hq hstart hu hlatch
  refine ⟨hlast.wonWith (Nat.le_of_lt hk) hon hout, p, ?_, hwon, hsince⟩
  -- the letter is driven one way at a time, so that the branches are won at different positions
  refine Nat.lt_of_le_of_ne hp ?_
  rintro rfl
  have hne := hlast.out_ne_inv hu (hlast.call_of_success (Nat.le_of_lt hk) hk hon)
  rw [hout, hwon.driven] at hne
  exact hne rfl

end Board

/-! ## Runs of graphs -/

/-- The matrix is won while a port of the quantifier of a letter is driving. -/
structure BranchWon (q : Qbf) (g : Graph) (letter : Char) (port : QuantifierPort) : Prop where
  drives : g.drivesAt (quantifierPort letter port) = true
  junction : ∃ last, q.bindings.getLast? = some last ∧
    g.Points ⟨["junction", "sat"]⟩ junctionId (quantifierPort last.letter .satIn)
  matrix : (q.matrix.evaluate fun l => g.receivesAt (evaluatorPort (.literal l))) = true

/-- The quantifier at an index is asked to try, and each universal quantifier further out drives
one of its two ports, as its value says. -/
structure AskedUnder (q : Qbf) (g : Graph) (k : Nat) (letter : Char) (value : Char → Bool) :
    Prop where
  asked : g.receivesAt (quantifierPort letter .tryIn) = true
  outer : ∀ i c, i < k → q.bindings[i]? = some ⟨.universal, c⟩ →
    g.drivesAt (quantifierPort c .out) = value c ∧ g.drivesAt (quantifierPort c .inv) = !value c

variable {text : String} {q : Qbf} {g : Graph} {b : Board} {k : Nat} {letter : Char}

theorem Shows.receivesAt_eq (hq : q.IsProper) (h : Shows q g b) {p : Place} {w : Wire}
    (hp : p.IsIn (letters q)) (hw : w ≠ .loop) (hat : wiresAt (letters q) p = [w])
    (hr : w.receiver (letters q) = p) : g.receivesAt p.id = b.on w := by
  obtain ⟨v, hv, hvat⟩ := h.vertex p hp
  rw [Graph.receivesAt, hv, Option.any_some, h.receives_eq hq hp hvat hw hat hr]

theorem Shows.drivesAt_eq (hq : q.IsProper) (h : Shows q g b) {p : Place} {w : Wire}
    (hp : p.IsIn (letters q)) (hw : w ≠ .loop) (hat : wiresAt (letters q) p = [w])
    (hd : w.driver (letters q) = p) : g.drivesAt p.id = b.on w := by
  obtain ⟨v, hv, hvat⟩ := h.vertex p hp
  rw [Graph.drivesAt, hv, Option.any_some, h.drives_eq hq hp hvat hw hat hd]

section Quantifier

variable {kind : Quantifier}

theorem wiresAt_port (hq : q.IsProper) (hb : q.bindings[k]? = some ⟨kind, letter⟩)
    (port : QuantifierPort) :
    wiresAt (letters q) (.port letter port) = [portWire k letter port] := by
  have hidx : (letters q).idxOf letter = k := idxOf_letter hq.nodup hb
  rw [wiresAt, hidx]

theorem port_isIn (hb : q.bindings[k]? = some ⟨kind, letter⟩) (port : QuantifierPort) :
    (Place.port letter port).IsIn (letters q) :=
  List.mem_of_getElem? (getElem?_letters hb)

theorem Shows.receivesAt_tryIn (hq : q.IsProper) (h : Shows q g b)
    (hb : q.bindings[k]? = some ⟨kind, letter⟩) :
    g.receivesAt (quantifierPort letter .tryIn) = b.on (.call k) :=
  h.receivesAt_eq hq (port_isIn hb .tryIn) (by simp) (wiresAt_port hq hb .tryIn)
    (receiver_portWire (getElem?_letters hb)).1

theorem Shows.drivesAt_satOut (hq : q.IsProper) (h : Shows q g b)
    (hb : q.bindings[k]? = some ⟨kind, letter⟩) :
    g.drivesAt (quantifierPort letter .satOut) = b.on (.success k) :=
  h.drivesAt_eq hq (port_isIn hb .satOut) (by simp) (wiresAt_port hq hb .satOut)
    (driver_portWire (getElem?_letters hb)).2

theorem Shows.drivesAt_out (hq : q.IsProper) (h : Shows q g b)
    (hb : q.bindings[k]? = some ⟨kind, letter⟩) :
    g.drivesAt (quantifierPort letter .out) = b.on (.literal (.positive letter)) :=
  h.drivesAt_eq hq (port_isIn hb .out) (by simp) (wiresAt_port hq hb .out) rfl

theorem Shows.drivesAt_inv (hq : q.IsProper) (h : Shows q g b)
    (hb : q.bindings[k]? = some ⟨kind, letter⟩) :
    g.drivesAt (quantifierPort letter .inv) = b.on (.literal (.negative letter)) :=
  h.drivesAt_eq hq (port_isIn hb .inv) (by simp) (wiresAt_port hq hb .inv) rfl

theorem Shows.askedUnder (hq : q.IsProper) (h : Shows q g b)
    (hk : q.bindings[k]? = some ⟨kind, letter⟩) {value : Char → Bool}
    (hb : b.TriesUnder q k value) : AskedUnder q g k letter value where
  asked := (h.receivesAt_tryIn hq hk).trans hb.call
  outer i c hi hc := by
    obtain ⟨hout, hinv⟩ := hb.outer i c hi hc
    exact ⟨(h.drivesAt_out hq hc).trans hout, (h.drivesAt_inv hq hc).trans hinv⟩

end Quantifier

theorem Shows.evaluate_receivesAt (hq : q.IsProper) (h : Shows q g b) :
    (q.matrix.evaluate fun l => g.receivesAt (evaluatorPort (.literal l))) =
      b.formulaHolds q.matrix := by
  apply Cnf.evaluate_congr
  intro clause hclause l hl
  have hin : (Place.evaluator (.literal l)).IsIn (letters q) := hq.letter_mem clause hclause l hl
  exact h.receivesAt_eq hq hin (by simp) rfl rfl

theorem Shows.branchWon (hq : q.IsProper) (h : Shows q g b) {l : Literal} (hb : b.WonWith q l)
    {port : QuantifierPort}
    (hport : g.drivesAt (quantifierPort letter port) = b.on (.literal l)) :
    BranchWon q g letter port where
  drives := hport.trans hb.driven
  junction := by
    have hlast := List.getLast?_eq_some_getLast hq.bindings_ne_nil
    exact ⟨_, hlast, h.points_junction hb.success hlast⟩
  matrix := (h.evaluate_receivesAt hq).trans hb.formula

/-- The graphs of a run of attempts show the boards of a run. -/
theorem Shows.exists_isRun (hq : q.IsProper) (h : Shows q g b) (hb : b.Steady q)
    (moves : List Ident) :
    ∃ position : Nat → Board, position 0 = b ∧ Board.IsRun q position moves.length ∧
      ∀ t ≤ moves.length, Shows q (g.play (moves.take t)) (position t) := by
  induction moves generalizing g b with
  | nil =>
    refine ⟨fun _ => b, rfl, fun t ht => absurd ht (Nat.not_lt_zero t), ?_⟩
    intro t _
    rwa [List.take_nil]
  | cons id rest ih =>
    obtain ⟨middle, hmiddle, hfirst⟩ := h.attempt_eq_or_step hq hb.lawful id
    have hsteady : middle.Steady q := by
      rcases hfirst with rfl | ⟨w, -, hm⟩
      · exact hb
      · exact hb.move? hq.nodup hm
    obtain ⟨position, hzero, hrun, hshows⟩ := ih hmiddle hsteady
    refine ⟨fun | 0 => b | t + 1 => position t, rfl, ?_, ?_⟩
    · intro t ht
      cases t with
      | zero => rwa [← hzero] at hfirst
      | succ t => exact hrun t (Nat.lt_of_succ_lt_succ ht)
    · intro t ht
      cases t with
      | zero => exact h
      | succ t => exact hshows t (Nat.le_of_succ_le_succ ht)

/-- A universal quantifier tells of a success only after both its branches were won, the second
one where the run stands now, under the same values of the universal letters further out. -/
theorem branchWon_before_of_drivesAt_satOut (hq : Qbf.parse text = .ok q) :
    ∃ g, compile text = .ok g ∧ ∀ (moves : List Ident) (k : Nat) (u : Char),
      q.bindings[k]? = some ⟨.universal, u⟩ →
      (g.play moves).drivesAt (quantifierPort u .satOut) = true →
        BranchWon q (g.play moves) u .out ∧
        ∃ p < moves.length, BranchWon q (g.play (moves.take p)) u .inv ∧
          ∃ value, ∀ t, p ≤ t → t ≤ moves.length →
            AskedUnder q (g.play (moves.take t)) k u value := by
  have hproper := Qbf.isProper_of_parse hq
  obtain ⟨g, hg, hstart⟩ := exists_compile hq
  refine ⟨g, hg, ?_⟩
  intro moves k u hu hdrives
  obtain ⟨position, hzero, hrun, hshows⟩ :=
    hstart.exists_isRun hproper (Board.steady_start q) moves
  have hlast := hshows moves.length (Nat.le_refl _)
  rw [List.take_length] at hlast
  have hon : (position moves.length).on (.success k) = true :=
    (hlast.drivesAt_satOut hproper hu).symm.trans hdrives
  obtain ⟨hout, p, hp, hinv, value, hsince⟩ := hrun.wonSince_of_success hproper hzero hu hon
  have hbefore := hshows p (Nat.le_of_lt hp)
  refine ⟨hlast.branchWon hproper hout (hlast.drivesAt_out hproper hu), p, hp,
    hbefore.branchWon hproper hinv (hbefore.drivesAt_inv hproper hu), value, ?_⟩
  intro t hpt ht
  exact (hshows t ht).askedUnder hproper hu (hsince t hpt ht)

theorem branchWon_before_copycat :
    ∃ g moves, compile "forall x exists y : (x||!y)&&(!x||y)" = .ok g ∧
      Qbf.copycat.bindings[0]? = some ⟨.universal, 'x'⟩ ∧
      (g.play moves).drivesAt (quantifierPort 'x' .satOut) = true ∧
      BranchWon Qbf.copycat (g.play moves) 'x' .out ∧
      ∃ p < moves.length, BranchWon Qbf.copycat (g.play (moves.take p)) 'x' .inv ∧
        ∃ value, ∀ t, p ≤ t → t ≤ moves.length →
          AskedUnder Qbf.copycat (g.play (moves.take t)) 0 'x' value := by
  obtain ⟨g, hg, hall⟩ := branchWon_before_of_drivesAt_satOut Qbf.parse_copycat
  obtain ⟨g', hg', hstart⟩ := exists_compile Qbf.parse_copycat
  obtain rfl : g = g' := Except.ok.inj (hg.symm.trans hg')
  have hq := Qbf.isProper_of_parse Qbf.parse_copycat
  have hbranches := Qbf.isTrue_copycat.everyBranchSatisfiable hq
  have hfirst : Qbf.copycat.bindings.head? = some ⟨.universal, 'x'⟩ := rfl
  have hu : Qbf.copycat.bindings[0]? = some ⟨.universal, 'x'⟩ := rfl
  obtain ⟨moves, hpoints⟩ := hstart.exists_points hq hbranches hfirst
  obtain ⟨b, hplay, -⟩ := hstart.play hq (Board.steady_start _) moves
  have hon : b.on (.success 0) = true := (hplay.points_sinkEdge_iff hfirst).1 hpoints
  have hdrives : (g.play moves).drivesAt (quantifierPort 'x' .satOut) = true :=
    (hplay.drivesAt_satOut hq hu).trans hon
  exact ⟨g, moves, hg, hu, hdrives, hall moves 0 'x' hu hdrives⟩

end Circuit

end ConstraintLogic
