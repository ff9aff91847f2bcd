import ConstraintLogic.Proofs.Reading
/-!
# Truth and branches

A branch of a formula is a choice for its universal letters, made all at once. A formula that is
true is satisfiable on every branch. The converse holds if no existential letter is bound further
out than a universal one, and not in general: otherwise the existential letter may need different
values on different branches.
-/

namespace ConstraintLogic

namespace Qbf

/-- Each choice of the universal letters has an answer by the other ones. -/
def EveryBranchSatisfiable (q : Qbf) : Prop :=
  ∀ choice : Char → Bool, ∃ assignment : Char → Bool,
    (∀ c, ⟨.universal, c⟩ ∈ q.bindings → assignment c = choice c) ∧
      q.matrix.evaluate (Literal.holds assignment) = true

/-- No existential binding stands in front of a universal one. -/
def UniversalFirst (q : Qbf) : Prop :=
  q.bindings.Pairwise fun b b' => b.quantifier = .existential → b'.quantifier = .existential

end Qbf

namespace Cnf

variable {matrix : Cnf}

/-- A true formula has an answer to each choice, and it keeps the values of the free letters. -/
theorem HoldsUnder.exists_answer {bindings : List Binding}
    (hn : (bindings.map Binding.letter).Nodup) {free : Char → Bool}
    (h : matrix.HoldsUnder bindings free) (choice : Char → Bool) :
    ∃ assignment : Char → Bool,
      (∀ c, ⟨.universal, c⟩ ∈ bindings → assignment c = choice c) ∧
      (∀ c, c ∉ bindings.map Binding.letter → assignment c = free c) ∧
      matrix.evaluate (Literal.holds assignment) = true := by
  induction bindings generalizing free with
  | nil => exact ⟨free, by simp, by simp, h⟩
  | cons binding rest ih =>
    obtain ⟨kind, letter⟩ := binding
    rw [List.map_cons, List.nodup_cons] at hn
    have hanswer (value : Bool) (hrest : matrix.HoldsUnder rest (assign free letter value)) :
        ∃ assignment : Char → Bool, assignment letter = value ∧
          (∀ c, ⟨.universal, c⟩ ∈ rest → assignment c = choice c) ∧
          (∀ c, c ∉ letter :: rest.map Binding.letter → assignment c = free c) ∧
          matrix.evaluate (Literal.holds assignment) = true := by
      obtain ⟨assignment, huniversal, hfree, htrue⟩ := ih hn.2 hrest
      refine ⟨assignment, ?_, huniversal, ?_, htrue⟩
      · rw [hfree letter hn.1, assign, if_pos rfl]
      · intro c hc
        rw [List.mem_cons, not_or] at hc
        rw [hfree c hc.2, assign, if_neg hc.1]
    cases kind with
    | existential =>
      obtain ⟨value, hrest⟩ := h
      obtain ⟨assignment, -, huniversal, hfree, htrue⟩ := hanswer value hrest
      refine ⟨assignment, ?_, hfree, htrue⟩
      intro c hc
      apply huniversal c
      simpa using hc
    | universal =>
      obtain ⟨assignment, hletter, huniversal, hfree, htrue⟩ :=
        hanswer (choice letter) (h (choice letter))
      refine ⟨assignment, ?_, hfree, htrue⟩
      intro c hc
      rcases List.mem_cons.1 hc with heq | hc
      · cases heq
        exact hletter
      · exact huniversal c hc

theorem HoldsUnder.of_assignment {bindings : List Binding} {free assignment : Char → Bool}
    (hkind : ∀ b ∈ bindings, b.quantifier = .existential)
    (hfree : ∀ c, c ∉ bindings.map Binding.letter → free c = assignment c)
    (h : matrix.evaluate (Literal.holds assignment) = true) :
    matrix.HoldsUnder bindings free := by
  induction bindings generalizing free with
  | nil =>
    have hsame : free = assignment := funext fun c => hfree c (by simp)
    rw [hsame]
    exact h
  | cons binding rest ih =>
    obtain ⟨kind, letter⟩ := binding
    obtain rfl : kind = .existential := hkind _ List.mem_cons_self
    refine ⟨assignment letter, ih (fun b hb => hkind b (List.mem_cons_of_mem _ hb)) ?_⟩
    intro c hc
    rw [assign]
    split
    · next heq => rw [heq]
    · next hne => exact hfree c (by simp [hne, hc])

/-- With the universal bindings in front, answers to all choices make a formula true. -/
theorem HoldsUnder.of_answers {bindings : List Binding} {free : Char → Bool}
    (hn : (bindings.map Binding.letter).Nodup)
    (hfirst : bindings.Pairwise fun b b' =>
      b.quantifier = .existential → b'.quantifier = .existential)
    (h : ∀ choice : Char → Bool, ∃ assignment : Char → Bool,
      (∀ c, ⟨.universal, c⟩ ∈ bindings → assignment c = choice c) ∧
      (∀ c, c ∉ bindings.map Binding.letter → assignment c = free c) ∧
      matrix.evaluate (Literal.holds assignment) = true) :
    matrix.HoldsUnder bindings free := by
  induction bindings generalizing free with
  | nil =>
    obtain ⟨assignment, -, hfree, htrue⟩ := h free
    have hsame : assignment = free := funext fun c => hfree c (by simp)
    rwa [hsame] at htrue
  | cons binding rest ih =>
    obtain ⟨kind, letter⟩ := binding
    rw [List.pairwise_cons] at hfirst
    rw [List.map_cons, List.nodup_cons] at hn
    cases kind with
    | existential =>
      obtain ⟨assignment, -, hfree, htrue⟩ := h free
      refine HoldsUnder.of_assignment ?_ (fun c hc => (hfree c hc).symm) htrue
      intro b hb
      rcases List.mem_cons.1 hb with rfl | hb
      · rfl
      · exact hfirst.1 b hb rfl
    | universal =>
      intro value
      apply ih hn.2 hfirst.2
      intro choice
      obtain ⟨assignment, huniversal, hfree, htrue⟩ := h (assign choice letter value)
      refine ⟨assignment, ?_, ?_, htrue⟩
      · intro c hc
        have hne : c ≠ letter := by
          rintro rfl
          exact hn.1 (List.mem_map_of_mem hc)
        rw [huniversal c (List.mem_cons_of_mem _ hc), assign, if_neg hne]
      · intro c hc
        rw [assign]
        split
        · next heq =>
          rw [heq, huniversal letter List.mem_cons_self, assign, if_pos rfl]
        · next hne => exact hfree c (by simp [hne, hc])

end Cnf

namespace Qbf

variable {q : Qbf}

theorem IsTrue.everyBranchSatisfiable (hq : q.IsProper) (h : q.IsTrue) :
    q.EveryBranchSatisfiable := by
  intro choice
  obtain ⟨assignment, huniversal, -, htrue⟩ := Cnf.HoldsUnder.exists_answer hq.nodup h choice
  exact ⟨assignment, huniversal, htrue⟩

theorem EveryBranchSatisfiable.isTrue (hq : q.IsProper) (hfirst : q.UniversalFirst)
    (h : q.EveryBranchSatisfiable) : q.IsTrue := by
  apply Cnf.HoldsUnder.of_answers hq.nodup hfirst
  intro choice
  obtain ⟨assignment, huniversal, htrue⟩ := h choice
  let bound := q.bindings.map Binding.letter
  -- letters that are not bound do not occur in the matrix
  refine ⟨fun c => if c ∈ bound then assignment c else false, ?_, ?_, ?_⟩
  · intro c hc
    have hmem : c ∈ bound := List.mem_map_of_mem hc
    simp only [if_pos hmem]
    exact huniversal c hc
  · intro c hc
    exact if_neg hc
  · rw [← htrue]
    apply Cnf.evaluate_congr
    intro clause hclause l hl
    have hmem : l.letter ∈ bound := hq.letter_mem clause hclause l hl
    simp only [Literal.holds, if_pos hmem]

/-- Here the existential letter can follow the universal one. -/
def copycat : Qbf where
  bindings := [⟨.universal, 'x'⟩, ⟨.existential, 'y'⟩]
  matrix :=
    { source := "(x||!y)&&(!x||y)"
      letters := ['x', 'y']
      clauses := [[.positive 'x', .negative 'y'], [.negative 'x', .positive 'y']] }

theorem parse_copycat : parse "forall x exists y : (x||!y)&&(!x||y)" = .ok copycat := by
  have hblank : "forall x exists y : (x||!y)&&(!x||y)".toList.dropWhile Text.isBlank =
      "forall x exists y : (x||!y)&&(!x||y)".toList := by decide +kernel
  have hx : binding? "forall x exists y : (x||!y)&&(!x||y)".toList =
      some (⟨.universal, 'x'⟩, " exists y : (x||!y)&&(!x||y)".toList) := by decide +kernel
  have hy : binding? "exists y : (x||!y)&&(!x||y)".toList =
      some (⟨.existential, 'y'⟩, " : (x||!y)&&(!x||y)".toList) := by decide +kernel
  have hheader : header? "forall x exists y : (x||!y)&&(!x||y)".toList =
      some (copycat.bindings, " (x||!y)&&(!x||y)".toList) :=
    header?_cons hx (by decide +kernel) (by decide +kernel) (header?_last hy (by decide +kernel))
  rw [← hblank] at hheader
  exact parse_of_header? hheader (by decide +kernel) (by decide) rfl

theorem isTrue_copycat : copycat.IsTrue := by
  intro value
  refine ⟨value, ?_⟩
  cases value <;> rfl

/-- Here the existential letter would have to differ from a universal one further in. -/
def mirror : Qbf where
  bindings := [⟨.existential, 'x'⟩, ⟨.universal, 'y'⟩]
  matrix :=
    { source := "(x||y)&&(!x||!y)"
      letters := ['x', 'y']
      clauses := [[.positive 'x', .positive 'y'], [.negative 'x', .negative 'y']] }

theorem parse_mirror : parse "exists x forall y : (x||y)&&(!x||!y)" = .ok mirror := by
  have hblank : "exists x forall y : (x||y)&&(!x||!y)".toList.dropWhile Text.isBlank =
      "exists x forall y : (x||y)&&(!x||!y)".toList := by decide +kernel
  have hx : binding? "exists x forall y : (x||y)&&(!x||!y)".toList =
      some (⟨.existential, 'x'⟩, " forall y : (x||y)&&(!x||!y)".toList) := by decide +kernel
  have hy : binding? "forall y : (x||y)&&(!x||!y)".toList =
      some (⟨.universal, 'y'⟩, " : (x||y)&&(!x||!y)".toList) := by decide +kernel
  have hheader : header? "exists x forall y : (x||y)&&(!x||!y)".toList =
      some (mirror.bindings, " (x||y)&&(!x||!y)".toList) :=
    header?_cons hx (by decide +kernel) (by decide +kernel) (header?_last hy (by decide +kernel))
  rw [← hblank] at hheader
  exact parse_of_header? hheader (by decide +kernel) (by decide) rfl

theorem not_isTrue_mirror : ¬mirror.IsTrue := by
  rintro ⟨value, h⟩
  have htrue : mirror.matrix.evaluate
      (Literal.holds (assign (assign (fun _ => false) 'x' value) 'y' value)) = true := h value
  revert htrue
  cases value <;> decide

end Qbf

end ConstraintLogic
