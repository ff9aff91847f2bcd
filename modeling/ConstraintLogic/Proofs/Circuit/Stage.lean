import ConstraintLogic.Proofs.Circuit.Steady
import ConstraintLogic.Proofs.Reading
/-!
# Stages of a play

The boards that a play towards a win passes through. At a stage the calls are on from the left up
to some quantifier, the successes from some quantifier to the right, and the ring of the sink is
off. One stage passes to another if legal moves lead from every steady board at the one to a board
at the other, while the latches of the first quantifiers stay set.
-/

namespace ConstraintLogic.Circuit

structure Stage where
  /-- The number of calls that are on. -/
  calls : Nat
  driven : Literal → Bool
  result : Bool
  told : Bool
  called : Bool
  /-- The first success that is on. -/
  wins : Nat

namespace Stage

/-- The wires that are on, where the last call and success have this index. -/
def on (s : Stage) (count : Nat) : Wire → Bool
  | .call index => index < s.calls
  | .success index => s.wins ≤ index && index ≤ count
  | .literal l => s.driven l
  | .called => s.called
  | .result => s.result
  | .told => s.told
  | .loop | .ringAB | .ringBC | .ringCA => false

/-- The letter of a binding is driven as its quantifier may while it tries. -/
def Fits (driven : Literal → Bool) (binding : Binding) : Prop :=
  match binding.quantifier with
  | .existential =>
    ¬(driven (.positive binding.letter) = true ∧ driven (.negative binding.letter) = true)
  | .universal => driven (.positive binding.letter) ≠ driven (.negative binding.letter)

/-- The stage obeys all rules, given the latches. -/
structure Legal (s : Stage) (q : Qbf) (latch : Char → Bool) : Prop where
  fits : ∀ i binding, q.bindings[i]? = some binding → i + 1 < s.calls → Fits s.driven binding
  latched : ∀ i c, q.bindings[i]? = some ⟨.universal, c⟩ → s.wins ≤ i →
    latch c = true ∧ s.driven (.positive c) = true
  result_true : s.result = true → q.matrix.evaluate s.driven = true
  told_result : s.told = true → s.result = true
  called_calls : s.called = true → q.bindings.length < s.calls
  wins_probes : s.wins ≤ q.bindings.length → s.called = true ∧ s.told = true

variable {s : Stage} {q : Qbf} {b : Board}

theorem legal_of_lawful (hs : b.on = s.on q.bindings.length) (h : b.Lawful q) :
    s.Legal q b.latch := by
  have hon (w : Wire) : b.on w = s.on q.bindings.length w := congrFun hs w
  refine ⟨?_, ?_, ?_, ?_, ?_, ?_⟩
  · intro i binding hb hi
    have hcall : b.on (.call (i + 1)) = true := by
      rw [hon]
      exact decide_eq_true hi
    obtain ⟨kind, c⟩ := binding
    cases kind with
    | existential =>
      have hnot := h.not_out_and_inv hb hcall
      rwa [hon, hon] at hnot
    | universal =>
      have hne := h.out_ne_inv hb hcall
      rwa [hon, hon] at hne
  · intro i c hb hi
    have hlt : i < q.bindings.length := (List.getElem?_eq_some_iff.1 hb).1
    have hsuccess : b.on (.success i) = true := by
      rw [hon]
      simp only [on, hi, Nat.le_of_lt hlt, decide_true, Bool.and_self]
    have hwon := h.latch_and_out hb hsuccess
    rwa [hon] at hwon
  · intro hresult
    have hformula := h.formulaHolds_of_result ((hon .result).trans hresult)
    rwa [Board.formulaHolds, hs] at hformula
  · intro htold
    exact (hon .result).symm.trans (h.result_of_told ((hon .told).trans htold))
  · intro hcalled
    have hlast := h.call_last_of_called ((hon .called).trans hcalled)
    rw [hon] at hlast
    exact of_decide_eq_true hlast
  · intro hwins
    have hsuccess : b.on (.success q.bindings.length) = true := by
      rw [hon]
      simp only [on, hwins, Nat.le_refl, decide_true, Bool.and_self]
    have hprobes := h.probes_of_success_last hsuccess
    rwa [hon, hon] at hprobes

theorem Legal.quantifierHolds (hs : b.on = s.on q.bindings.length) (h : s.Legal q b.latch)
    {index : Nat} {binding : Binding} (hb : q.bindings[index]? = some binding) :
    b.quantifierHolds index binding = true := by
  have hi : index < q.bindings.length := (List.getElem?_eq_some_iff.1 hb).1
  have hfits := h.fits index binding hb
  obtain ⟨kind, c⟩ := binding
  simp only [Board.quantifierHolds]
  cases kind with
  | existential =>
    refine Signals.existentialHolds_iff.2 ⟨?_, ?_, ?_⟩ <;>
      simp only [Board.signals, hs, on, decide_eq_true_eq, Bool.and_eq_true]
    · omega
    · intro hcall
      exact hfits hcall
    · omega
  | universal =>
    have hlatched := h.latched index c hb
    refine Signals.universalHolds_iff.2 ⟨?_, ?_, ?_⟩ <;>
      simp only [Board.signals, hs, on, decide_eq_true_eq, Bool.and_eq_true]
    · omega
    · intro hcall
      exact hfits hcall
    · intro hwins
      exact ⟨by omega, hlatched hwins.1⟩

theorem Legal.lawful (hs : b.on = s.on q.bindings.length) (h : s.Legal q b.latch) :
    b.Lawful q := by
  intro cell
  cases cell with
  | quantifier index =>
    rw [Board.holds, Option.all_eq_true]
    intro binding hb
    exact h.quantifierHolds hs hb
  | evaluator =>
    have hresult := h.result_true
    simp only [Board.holds, Board.formulaHolds, hs, on]
    grind
  | callProbe =>
    have hcalled := h.called_calls
    simp only [Board.holds, hs, on]
    grind
  | resultProbe =>
    have htold := h.told_result
    simp only [Board.holds, hs, on]
    grind
  | junction =>
    have hwins := h.wins_probes
    simp only [Board.holds, hs, on]
    grind
  | _ => simp [Board.holds, hs, on]

end Stage

/-! ## Passing from stage to stage -/

namespace Board

/-- Legal moves lead on, and the set latches of the first quantifiers stay set. -/
structure Leads (q : Qbf) (keep : Nat) (b next : Board) : Prop where
  reaches : Reaches q b next
  latches : ∀ i c, i < keep → q.bindings[i]? = some ⟨.universal, c⟩ →
    b.latch c = true → next.latch c = true

theorem Leads.refl (q : Qbf) (keep : Nat) (b : Board) : Leads q keep b b :=
  ⟨.refl, fun _ _ _ _ h => h⟩

theorem Leads.trans {q : Qbf} {keep : Nat} {b middle next : Board} (h : Leads q keep b middle)
    (h' : Leads q keep middle next) : Leads q keep b next where
  reaches := h.reaches.trans h'.reaches
  latches i c hi hb hl := h'.latches i c hi hb (h.latches i c hi hb hl)

theorem Leads.mono {q : Qbf} {keep keep' : Nat} {b next : Board} (h : Leads q keep b next)
    (hle : keep' ≤ keep) : Leads q keep' b next where
  reaches := h.reaches
  latches i c hi := h.latches i c (Nat.lt_of_lt_of_le hi hle)

/-- The board is steady and at a stage. -/
structure Stands (b : Board) (q : Qbf) (s : Stage) : Prop where
  steady : b.Steady q
  on_eq : b.on = s.on q.bindings.length

variable {q : Qbf} {b : Board} {s s' : Stage}

theorem Stands.legal (h : b.Stands q s) : s.Legal q b.latch :=
  Stage.legal_of_lawful h.on_eq h.steady.lawful

/-- Turning one wire leads to any stage that differs in this wire and obeys the rules. -/
theorem Stands.step (hq : q.IsProper) (h : b.Stands q s) {w : Wire} (hw : w.IsIn (letters q))
    (hloop : w ≠ .loop)
    (hself : s'.on q.bindings.length w = !s.on q.bindings.length w)
    (hother : ∀ w', w' ≠ w → s'.on q.bindings.length w' = s.on q.bindings.length w')
    (hlegal : s'.Legal q b.latch) {keep : Nat} (hkeep : keep ≤ s'.calls) :
    ∃ next, Leads q keep b next ∧ next.Stands q s' := by
  have hon : (b.turn w).on = s'.on q.bindings.length := by
    funext w'
    by_cases hw' : w' = w
    · rw [hw', turn_on_self, hself, h.on_eq]
    · rw [turn_on_of_ne b hw', hother w' hw', h.on_eq]
  have hlawful : (b.turn w).Lawful q := Stage.Legal.lawful hon hlegal
  have hmove := (h.steady.lawful.isSome_move?_iff hq.nodup hloop).2 hlawful
  obtain ⟨next, hm⟩ := Option.isSome_iff_exists.1 hmove
  have hsteady := h.steady.move? hq.nodup hm
  obtain ⟨-, -, -, rfl⟩ := move?_eq_some_iff.1 hm
  refine ⟨_, ⟨.single ⟨w, hw, hm⟩, ?_⟩, hsteady, hon⟩
  intro i c hi hb hl
  have hidx : (letters q).idxOf c = i := idxOf_letter hq.nodup hb
  have hcall : (b.turn w).on (.call i) = true := by
    rw [hon]
    exact decide_eq_true (by omega)
  simp only [settle, settledLatch, hidx, hcall, turn_latch, hl, Bool.true_or, Bool.and_self]

end Board

namespace Stage

/-- From every board at the one stage legal moves lead to some board at the other. -/
def Passes (q : Qbf) (keep : Nat) (s s' : Stage) : Prop :=
  ∀ b : Board, b.Stands q s → ∃ next, Board.Leads q keep b next ∧ next.Stands q s'

variable {q : Qbf} {keep : Nat} {s s' s'' : Stage}

theorem Passes.refl (q : Qbf) (keep : Nat) (s : Stage) : Passes q keep s s :=
  fun b h => ⟨b, .refl q keep b, h⟩

theorem Passes.trans (h : Passes q keep s s') (h' : Passes q keep s' s'') :
    Passes q keep s s'' := by
  intro b hb
  obtain ⟨middle, hlead, hmiddle⟩ := h b hb
  obtain ⟨next, hlead', hnext⟩ := h' middle hmiddle
  exact ⟨next, hlead.trans hlead', hnext⟩

theorem passes_of_turn (hq : q.IsProper) {w : Wire} (hw : w.IsIn (letters q))
    (hloop : w ≠ .loop)
    (hself : s'.on q.bindings.length w = !s.on q.bindings.length w)
    (hother : ∀ w', w' ≠ w → s'.on q.bindings.length w' = s.on q.bindings.length w')
    (hlegal : ∀ latch, s.Legal q latch → s'.Legal q latch) (hkeep : keep ≤ s'.calls) :
    Passes q keep s s' :=
  fun _ hb => hb.step hq hw hloop hself hother (hlegal _ hb.legal) hkeep

/-! ## Single moves -/

/-- Calls are on up to the one with this index, and nothing answers yet. -/
def asked (q : Qbf) (k : Nat) (driven : Literal → Bool) : Stage :=
  ⟨k + 1, driven, false, false, false, q.bindings.length + 1⟩

/-- Everything is on from the call at the left to the success with this index. -/
def won (q : Qbf) (k : Nat) (driven : Literal → Bool) : Stage :=
  ⟨q.bindings.length + 1, driven, true, true, true, k⟩

theorem legal_asked_iff {k : Nat} {driven : Literal → Bool} {latch : Char → Bool} :
    (asked q k driven).Legal q latch ↔
      ∀ i binding, i < k → q.bindings[i]? = some binding → Fits driven binding := by
  constructor
  · intro h i binding hi hb
    exact h.fits i binding hb (Nat.succ_lt_succ hi)
  · intro h
    refine ⟨?_, ?_, ?_, ?_, ?_, ?_⟩
    · intro i binding hb hi
      exact h i binding (Nat.lt_of_succ_lt_succ hi) hb
    · intro i c hb hi
      have hlt : i < q.bindings.length := (List.getElem?_eq_some_iff.1 hb).1
      have hle : q.bindings.length + 1 ≤ i := hi
      omega
    · intro h
      cases h
    · intro h
      cases h
    · intro h
      cases h
    · intro hwins
      have hle : q.bindings.length + 1 ≤ q.bindings.length := hwins
      omega

/-- Every quantifier is asked to try, and some of the probes tell what they should. -/
def answering (q : Qbf) (driven : Literal → Bool) (result told called : Bool) : Stage :=
  ⟨q.bindings.length + 1, driven, result, told, called, q.bindings.length + 1⟩

theorem asked_last (q : Qbf) (driven : Literal → Bool) :
    asked q q.bindings.length driven = answering q driven false false false := rfl

theorem won_none (q : Qbf) (driven : Literal → Bool) :
    won q (q.bindings.length + 1) driven = answering q driven true true true := rfl

theorem Legal.answering {driven : Literal → Bool} {result told called result' told' called' : Bool}
    {latch : Char → Bool} (h : (answering q driven result told called).Legal q latch)
    (hresult : result' = true → q.matrix.evaluate driven = true)
    (htold : told' = true → result' = true) :
    (Stage.answering q driven result' told' called').Legal q latch where
  fits := h.fits
  latched := h.latched
  result_true := hresult
  told_result := htold
  called_calls _ := Nat.lt_succ_self _
  wins_probes hwins := absurd hwins (Nat.not_succ_le_self _)

theorem on_won_succ {k : Nat} (hk : k ≤ q.bindings.length) (driven : Literal → Bool) :
    (won q (k + 1) driven).on q.bindings.length (.success k) = false ∧
      (won q k driven).on q.bindings.length (.success k) = true ∧
      ∀ w, w ≠ .success k → (won q (k + 1) driven).on q.bindings.length w =
        (won q k driven).on q.bindings.length w := by
  have hoff : decide (k + 1 ≤ k) = false := decide_eq_false (Nat.not_succ_le_self k)
  refine ⟨by rw [on, won, hoff, Bool.false_and], by simp [on, won, hk], ?_⟩
  intro w hne
  cases w with
  | success index =>
    have hne : index ≠ k := fun h => hne (congrArg Wire.success h)
    have hiff : decide (k + 1 ≤ index) = decide (k ≤ index) := decide_eq_decide.2 (by omega)
    rw [on, on, won, won, hiff]
  | _ => rfl

section Moves

variable (hq : q.IsProper)

include hq

/-- The next quantifier is asked to try, once the letter of the one before is driven. -/
theorem passes_call {k : Nat} {driven : Literal → Bool} (hk : k < q.bindings.length)
    (hkeep : keep ≤ k + 2)
    (hfits : ∀ binding, q.bindings[k]? = some binding → Fits driven binding) :
    Passes q keep (asked q k driven) (asked q (k + 1) driven) := by
  have hw : (Wire.call (k + 1)).IsIn (letters q) := by
    rw [Wire.IsIn, length_letters]
    exact hk
  refine passes_of_turn hq hw (by simp) (by simp [on, asked]) ?_ ?_ hkeep
  · intro w hne
    cases w with
    | call index =>
      have hne : index ≠ k + 1 := fun h => hne (congrArg Wire.call h)
      exact decide_eq_decide.2 (show index < k + 2 ↔ index < k + 1 by omega)
    | _ => rfl
  · intro latch h
    rw [legal_asked_iff] at h ⊢
    intro i binding hi hb
    by_cases hik : i = k
    · subst hik
      exact hfits binding hb
    · exact h i binding (by omega) hb

theorem passes_uncall {k : Nat} {driven : Literal → Bool} (hk : k < q.bindings.length)
    (hkeep : keep ≤ k + 1) :
    Passes q keep (asked q (k + 1) driven) (asked q k driven) := by
  have hw : (Wire.call (k + 1)).IsIn (letters q) := by
    rw [Wire.IsIn, length_letters]
    exact hk
  refine passes_of_turn hq hw (by simp) (by simp [on, asked]) ?_ ?_ hkeep
  · intro w hne
    cases w with
    | call index =>
      have hne : index ≠ k + 1 := fun h => hne (congrArg Wire.call h)
      exact decide_eq_decide.2 (show index < k + 1 ↔ index < k + 2 by omega)
    | _ => rfl
  · intro latch h
    rw [legal_asked_iff] at h ⊢
    intro i binding hi hb
    exact h i binding (by omega) hb

/-- A literal is driven or not, while every quantifier that tries permits it. -/
theorem passes_drive {k : Nat} {driven : Literal → Bool} {l : Literal}
    (hl : l.letter ∈ letters q) (hkeep : keep ≤ k + 1) (value : Bool)
    (hfits : ∀ i binding, i < k → q.bindings[i]? = some binding →
      Fits (Function.update driven l value) binding) :
    Passes q keep (asked q k driven) (asked q k (Function.update driven l value)) := by
  by_cases hsame : value = driven l
  · rw [hsame, Function.update_eq_self]
    exact .refl q keep _
  · refine passes_of_turn hq (w := .literal l) hl (by simp) ?_ ?_ ?_ hkeep
    · have hnot : value = !driven l := by
        cases value <;> simp_all
      simp [on, asked, hnot]
    · intro w hne
      cases w with
      | literal l' =>
        have hne : l' ≠ l := fun h => hne (congrArg Wire.literal h)
        exact Function.update_of_ne hne value driven
      | _ => rfl
    · intro latch _
      exact legal_asked_iff.2 hfits

/-- A matrix that is true is told to the junction together with the last call. -/
theorem passes_answer {driven : Literal → Bool} (hkeep : keep ≤ q.bindings.length + 1)
    (hf : q.matrix.evaluate driven = true) :
    Passes q keep (asked q q.bindings.length driven) (won q (q.bindings.length + 1) driven) := by
  rw [asked_last, won_none]
  have hresult : Passes q keep (answering q driven false false false)
      (answering q driven true false false) :=
    passes_of_turn hq (w := .result) trivial (by simp) rfl
      (fun w hne => by cases w <;> first | rfl | exact absurd rfl hne)
      (fun _ h => h.answering (fun _ => hf) (by simp)) hkeep
  have htold : Passes q keep (answering q driven true false false)
      (answering q driven true true false) :=
    passes_of_turn hq (w := .told) trivial (by simp) rfl
      (fun w hne => by cases w <;> first | rfl | exact absurd rfl hne)
      (fun _ h => h.answering (fun _ => hf) (by simp)) hkeep
  have hcalled : Passes q keep (answering q driven true true false)
      (answering q driven true true true) :=
    passes_of_turn hq (w := .called) trivial (by simp) rfl
      (fun w hne => by cases w <;> first | rfl | exact absurd rfl hne)
      (fun _ h => h.answering (fun _ => hf) (by simp)) hkeep
  exact (hresult.trans htold).trans hcalled

theorem passes_unanswer {driven : Literal → Bool} (hkeep : keep ≤ q.bindings.length + 1) :
    Passes q keep (won q (q.bindings.length + 1) driven) (asked q q.bindings.length driven) := by
  rw [asked_last, won_none]
  have hcalled : Passes q keep (answering q driven true true true)
      (answering q driven true true false) :=
    passes_of_turn hq (w := .called) trivial (by simp) rfl
      (fun w hne => by cases w <;> first | rfl | exact absurd rfl hne)
      (fun _ h => h.answering h.result_true (by simp)) hkeep
  have htold : Passes q keep (answering q driven true true false)
      (answering q driven true false false) :=
    passes_of_turn hq (w := .told) trivial (by simp) rfl
      (fun w hne => by cases w <;> first | rfl | exact absurd rfl hne)
      (fun _ h => h.answering h.result_true (by simp)) hkeep
  have hresult : Passes q keep (answering q driven true false false)
      (answering q driven false false false) :=
    passes_of_turn hq (w := .result) trivial (by simp) rfl
      (fun w hne => by cases w <;> first | rfl | exact absurd rfl hne)
      (fun _ h => h.answering (by simp) (by simp)) hkeep
  exact (hcalled.trans htold).trans hresult

theorem passes_lower {k : Nat} {driven : Literal → Bool} (hk : k ≤ q.bindings.length)
    (hkeep : keep ≤ q.bindings.length + 1) :
    Passes q keep (won q k driven) (won q (k + 1) driven) := by
  obtain ⟨hoff, hon, hother⟩ := on_won_succ hk driven
  have hw : (Wire.success k).IsIn (letters q) := by
    rw [Wire.IsIn, length_letters]
    exact hk
  refine passes_of_turn hq hw (by simp) (by rw [hoff, hon]; rfl) hother ?_ hkeep
  intro latch h
  refine ⟨h.fits, ?_, h.result_true, h.told_result, h.called_calls, fun _ => ⟨rfl, rfl⟩⟩
  intro i c hb hi
  exact h.latched i c hb (Nat.le_of_succ_le hi)

/-- A quantifier tells of a success, if it is universal with its latch and for its letter. -/
theorem raise {k : Nat} {driven : Literal → Bool} {b : Board}
    (hk : k ≤ q.bindings.length) (hkeep : keep ≤ q.bindings.length + 1)
    (hb : b.Stands q (won q (k + 1) driven))
    (hlatched : ∀ c, q.bindings[k]? = some ⟨.universal, c⟩ →
      b.latch c = true ∧ driven (.positive c) = true) :
    ∃ next, Board.Leads q keep b next ∧ next.Stands q (won q k driven) := by
  obtain ⟨hoff, hon, hother⟩ := on_won_succ hk driven
  have hw : (Wire.success k).IsIn (letters q) := by
    rw [Wire.IsIn, length_letters]
    exact hk
  have h := hb.legal
  refine hb.step hq hw (by simp) (by rw [hoff, hon]; rfl) (fun w hne => (hother w hne).symm) ?_
    hkeep
  refine ⟨h.fits, ?_, h.result_true, h.told_result, h.called_calls, fun _ => ⟨rfl, rfl⟩⟩
  intro i c hc hi
  by_cases hik : i = k
  · subst hik
    exact hlatched c hc
  · have hle : k ≤ i := hi
    exact h.latched i c hc (show k + 1 ≤ i by omega)

theorem passes_rewind {k : Nat} {driven : Literal → Bool} (hk : k ≤ q.bindings.length)
    (hkeep : keep ≤ k + 1) : Passes q keep (won q k driven) (asked q k driven) := by
  have hlower (d : Nat) (j : Nat) (hj : j + d = q.bindings.length + 1) :
      Passes q keep (won q j driven) (won q (q.bindings.length + 1) driven) := by
    induction d generalizing j with
    | zero =>
      obtain rfl : j = q.bindings.length + 1 := by omega
      exact .refl q keep _
    | succ d ih => exact (passes_lower hq (by omega) (by omega)).trans (ih (j + 1) (by omega))
  have huncall (d : Nat) (j : Nat) (hj : k + d = j) (hle : j ≤ q.bindings.length) :
      Passes q keep (asked q j driven) (asked q k driven) := by
    induction d generalizing j with
    | zero =>
      obtain rfl : j = k := by omega
      exact .refl q keep _
    | succ d ih =>
      obtain rfl : j = k + d + 1 := by omega
      exact (passes_uncall hq (by omega) (by omega)).trans (ih (k + d) rfl (by omega))
  exact ((hlower _ k (Nat.add_sub_cancel' (by omega))).trans
    (passes_unanswer hq (by omega))).trans
      (huncall _ _ (Nat.add_sub_cancel' hk) (Nat.le_refl _))

end Moves

end Stage

end ConstraintLogic.Circuit
