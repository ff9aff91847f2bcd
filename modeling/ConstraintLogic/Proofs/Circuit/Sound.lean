import ConstraintLogic.Proofs.Branches
import ConstraintLogic.Proofs.Circuit.Steady
/-!
# What a win proves

A set latch says that its quantifier was won with its letter false while the letters further out
had the values that they still have. But it remembers nothing about the values that existential
letters had then, and those may change while it stays set. So a success of the whole chain proves
that every choice of the universal letters has an answer by the existential ones, wherever these
stand in the prefix.
-/

namespace ConstraintLogic

namespace Qbf

/-- Two assignments give the same values to the universal letters in front of an index. -/
def AgreeBefore (q : Qbf) (k : Nat) (choice choice' : Char → Bool) : Prop :=
  ∀ i c, i < k → q.bindings[i]? = some ⟨.universal, c⟩ → choice' c = choice c

/-- Each choice of the universal letters from an index on has an answer by the existential ones. -/
def Answerable (q : Qbf) (k : Nat) (choice : Char → Bool) : Prop :=
  ∀ choice', q.AgreeBefore k choice choice' → ∃ assignment : Char → Bool,
    (∀ c, ⟨.universal, c⟩ ∈ q.bindings → assignment c = choice' c) ∧
      q.matrix.evaluate (Literal.holds assignment) = true

variable {q : Qbf} {k : Nat} {choice choice' : Char → Bool}

theorem everyBranchSatisfiable_of_answerable (h : q.Answerable 0 choice) :
    q.EveryBranchSatisfiable := by
  intro choice'
  exact h choice' fun _ _ hi => absurd hi (Nat.not_lt_zero _)

theorem Answerable.congr (h : q.Answerable k choice) (ha : q.AgreeBefore k choice' choice) :
    q.Answerable k choice' := by
  intro other hother
  apply h other
  intro i c hi hb
  rw [hother i c hi hb, ha i c hi hb]

theorem Answerable.of_existential {c : Char} (hb : q.bindings[k]? = some ⟨.existential, c⟩)
    (h : q.Answerable (k + 1) choice) : q.Answerable k choice := by
  intro other hother
  apply h other
  intro i d hi hd
  by_cases hik : i = k
  · subst hik
    rw [hb] at hd
    cases hd
  · exact hother i d (by omega) hd

/-- Answers for both values of a universal letter are answers without it. -/
theorem Answerable.of_universal (hn : (q.bindings.map Binding.letter).Nodup) {c : Char}
    (hb : q.bindings[k]? = some ⟨.universal, c⟩) (hc : choice c = true)
    (htrue : q.Answerable (k + 1) choice)
    (hfalse : q.Answerable (k + 1) (assign choice c false)) : q.Answerable k choice := by
  intro other hother
  cases hvalue : other c with
  | true =>
    apply htrue other
    intro i d hi hd
    by_cases hik : i = k
    · subst hik
      rw [hb] at hd
      cases hd
      rw [hvalue, hc]
    · exact hother i d (by omega) hd
  | false =>
    apply hfalse other
    intro i d hi hd
    by_cases hik : i = k
    · subst hik
      rw [hb] at hd
      cases hd
      rw [hvalue, assign, if_pos rfl]
    · have hne : d ≠ c := by
        rintro rfl
        exact hik (Circuit.index_eq_of_letter_eq hn hd hb rfl)
      rw [hother i d (by omega) hd, assign, if_neg hne]

end Qbf

namespace Circuit.Board

variable {q : Qbf} {b : Board} {w : Wire}

/-- The value that each letter is driven to. -/
def value (b : Board) (c : Char) : Bool :=
  b.on (.literal (.positive c))

/-- A latch that is set at or behind an index has its reason. -/
def Reasoned (b : Board) (q : Qbf) (k : Nat) : Prop :=
  ∀ i c, k ≤ i → q.bindings[i]? = some ⟨.universal, c⟩ → b.latch c = true →
    q.Answerable (i + 1) (assign b.value c false)

theorem Lawful.value_eq_false (h : b.Lawful q) {i : Nat} {binding : Binding}
    (hb : q.bindings[i]? = some binding) (hon : b.on (.call (i + 1)) = true)
    (hinv : b.on (.literal (.negative binding.letter)) = true) :
    b.value binding.letter = false := by
  obtain ⟨kind, c⟩ := binding
  cases kind with
  | existential =>
    have := h.not_out_and_inv hb hon
    simp only [value]
    grind
  | universal =>
    have := h.out_ne_inv hb hon
    simp only [value]
    grind

/-- With every quantifier trying, a true matrix is true under the values of the letters. -/
theorem Lawful.evaluate_value (hq : q.IsProper) (h : b.Lawful q)
    (hcall : b.on (.call q.bindings.length) = true) (hf : b.formulaHolds q.matrix = true) :
    q.matrix.evaluate (Literal.holds b.value) = true := by
  simp only [formulaHolds, Cnf.evaluate, List.all_eq_true, List.any_eq_true] at hf ⊢
  intro clause hclause
  obtain ⟨l, hl, hon⟩ := hf clause hclause
  refine ⟨l, hl, ?_⟩
  obtain ⟨binding, hmem, hletter⟩ := List.mem_map.1 (hq.letter_mem clause hclause l hl)
  obtain ⟨i, hb⟩ := List.mem_iff_getElem?.1 hmem
  have hi : i + 1 ≤ q.bindings.length := (List.getElem?_eq_some_iff.1 hb).1
  have htry := h.call_of_le hi (Nat.le_refl _) hcall
  obtain ⟨c, negated⟩ := l
  cases negated with
  | false =>
    have : b.value c = true := hon
    simp [Literal.holds, this]
  | true =>
    have hinv : b.on (.literal (.negative binding.letter)) = true := by
      rw [hletter]
      exact hon
    have : b.value c = false := by
      have := h.value_eq_false hb htry hinv
      rwa [hletter] at this
    simp [Literal.holds, this]

/-- A success behind which all latches have their reason answers what lies behind it. -/
theorem Lawful.answerable_of_success (hq : q.IsProper) (h : b.Lawful q) {k : Nat}
    (hk : k ≤ q.bindings.length) (hr : b.Reasoned q k) (hon : b.on (.success k) = true) :
    q.Answerable k b.value := by
  induction hd : q.bindings.length - k generalizing k with
  | zero =>
    obtain rfl : k = q.bindings.length := by omega
    have hprobes := h.probes_of_success_last hon
    have hcall := h.call_last_of_called hprobes.1
    have hformula := h.formulaHolds_of_result (h.result_of_told hprobes.2)
    intro choice hchoice
    refine ⟨b.value, ?_, h.evaluate_value hq hcall hformula⟩
    intro c hc
    obtain ⟨i, hb⟩ := List.mem_iff_getElem?.1 hc
    exact (hchoice i c (List.getElem?_eq_some_iff.1 hb).1 hb).symm
  | succ d ih =>
    have hlt : k < q.bindings.length := by omega
    have hnext : q.Answerable (k + 1) b.value := by
      apply ih hlt
      · intro i c hi
        exact hr i c (by omega)
      · exact h.success_succ_of_success hlt hon
      · omega
    obtain ⟨⟨kind, c⟩, hb⟩ : ∃ binding, q.bindings[k]? = some binding :=
      ⟨_, List.getElem?_eq_getElem hlt⟩
    cases kind with
    | existential => exact hnext.of_existential hb
    | universal =>
      obtain ⟨hlatch, hout⟩ := h.latch_and_out hb hon
      exact hnext.of_universal hq.nodup hb hout (hr k c (Nat.le_refl _) hb hlatch)

/-! ## Moves -/

/-- A universal letter stays as it is while a quantifier further in is asked to try. -/
theorem value_eq_of_move (hb : b.Lawful q) {next : Board} (hnext : next.Lawful q)
    (hm : b.move? q w = some next) {i j : Nat} {c : Char} (hj : j < i)
    (hi : i ≤ q.bindings.length) (hc : q.bindings[j]? = some ⟨.universal, c⟩)
    (hon : b.on (.call i) = true) (hon' : next.on (.call i) = true) :
    next.value c = b.value c := by
  obtain ⟨-, -, -, rfl⟩ := move?_eq_some_iff.1 hm
  have hbefore := hb.out_ne_inv hc (hb.call_of_le hj hi hon)
  have hafter := hnext.out_ne_inv hc (hnext.call_of_le hj hi hon')
  simp only [value, settle_on] at hafter ⊢
  by_cases hw : w = .literal (.positive c)
  · -- turning one of the two wires alone would leave the letter without a single value
    have hkeep : (b.turn w).on (.literal (.negative c)) = b.on (.literal (.negative c)) := by
      apply turn_on_of_ne
      rw [hw]
      simp [Literal.positive, Literal.negative]
    subst hw
    rw [hkeep, turn_on_self] at hafter
    grind
  · exact turn_on_of_ne b (Ne.symm hw)

theorem Reasoned.move? (hq : q.IsProper) (hb : b.Steady q) (hr : b.Reasoned q 0) {next : Board}
    (hm : b.move? q w = some next) : next.Reasoned q 0 := by
  have hnext := hb.move? hq.nodup hm
  have hreason (i : Nat) (c : Char) (hc : q.bindings[i]? = some ⟨.universal, c⟩)
      (hl : next.latch c = true) : q.Answerable (i + 1) (assign next.value c false) := by
    induction hd : q.bindings.length - i using Nat.strongRecOn generalizing i c with
    | ind d ih =>
      have hi : i < q.bindings.length := (List.getElem?_eq_some_iff.1 hc).1
      have hcall := hnext.call_of_latch hq.nodup hc hl
      cases hold : b.latch c with
      | true =>
        have hcall' := hb.call_of_latch hq.nodup hc hold
        refine (hr i c (Nat.zero_le _) hc hold).congr ?_
        intro j e hj he
        by_cases hji : j = i
        · subst hji
          rw [hc] at he
          cases he
          rw [assign, assign, if_pos rfl, if_pos rfl]
        · have hsame := value_eq_of_move hb.lawful hnext.lawful hm (show j < i by omega)
            (Nat.le_of_lt hi) he hcall' hcall
          simp only [assign, hsame]
      | false =>
        have hset : next.on (.success (i + 1)) = true ∧
            next.on (.literal (.negative c)) = true := by
          obtain ⟨-, -, -, rfl⟩ := move?_eq_some_iff.1 hm
          have hidx : (letters q).idxOf c = i := idxOf_letter hq.nodup hc
          simp only [settle, settledLatch, hidx, turn_latch, hold, Bool.false_or,
            Bool.and_eq_true] at hl
          exact hl.2
        have hbehind : next.Reasoned q (i + 1) := by
          intro j e hj he hlatch
          exact ih (q.bindings.length - j) (by omega) j e he hlatch rfl
        have hanswer := hnext.lawful.answerable_of_success hq hi hbehind hset.1
        have htry := hnext.lawful.call_of_success hi hi hset.1
        have hvalue := hnext.lawful.value_eq_false hc htry hset.2
        refine hanswer.congr ?_
        intro j e hj he
        rw [assign]
        split
        · next heq => rw [heq, hvalue]
        · rfl
  intro i c _ hc hl
  exact hreason i c hc hl

theorem reasoned_start (q : Qbf) : start.Reasoned q 0 := by
  intro i c _ _ hl
  cases hl

theorem Reaches.reasoned (hq : q.IsProper) {next : Board} (h : Reaches q b next)
    (hb : b.Steady q) (hr : b.Reasoned q 0) : next.Reasoned q 0 := by
  induction h with
  | refl => exact hr
  | tail hmiddle hstep ih =>
    obtain ⟨w, -, hm⟩ := hstep
    exact ih.move? hq (Reaches.steady hq.nodup hmiddle hb) hm

/-- Where the wire into the sink can be turned, every branch is satisfiable. -/
theorem Reaches.everyBranchSatisfiable (hq : q.IsProper) (h : Reaches q start b)
    {next : Board} (hm : b.move? q (.success 0) = some next) : q.EveryBranchSatisfiable := by
  have hb := h.steady hq.nodup (steady_start q)
  have hr := h.reasoned hq (steady_start q) (reasoned_start q)
  have hnext := hb.move? hq.nodup hm
  cases hon : b.on (.success 0) with
  | true =>
    exact Qbf.everyBranchSatisfiable_of_answerable
      (hb.lawful.answerable_of_success hq (Nat.zero_le _) hr hon)
  | false =>
    have hon' : next.on (.success 0) = true := by
      obtain ⟨-, -, -, rfl⟩ := move?_eq_some_iff.1 hm
      rw [settle_on, turn_on_self, hon]
      rfl
    exact Qbf.everyBranchSatisfiable_of_answerable
      (hnext.lawful.answerable_of_success hq (Nat.zero_le _) (hr.move? hq hb hm) hon')

end Circuit.Board

end ConstraintLogic
