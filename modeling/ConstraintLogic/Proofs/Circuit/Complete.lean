import ConstraintLogic.Proofs.Circuit.Sound
import ConstraintLogic.Proofs.Circuit.Stage
/-!
# Plays that win

Where each choice of the universal letters has an answer, the circuit can be won. The play is by
induction on the quantifiers that are left: an existential one passes the call on, a universal one
is won for its negated letter first, then rewound up to its latch, and won for the letter.
-/

namespace ConstraintLogic.Circuit

/-- Drives a letter to a value and leaves the other letters as they are. -/
def redrive (driven : Literal → Bool) (letter : Char) (value : Bool) : Literal → Bool :=
  fun l => if l.letter = letter then Literal.holds (fun _ => value) l else driven l

section Redrive

variable {driven : Literal → Bool} {letter : Char} {value : Bool}

theorem redrive_positive : redrive driven letter value (.positive letter) = value := by
  simp [redrive, Literal.positive, Literal.holds]

theorem redrive_negative : redrive driven letter value (.negative letter) = !value := by
  simp [redrive, Literal.negative, Literal.holds]

theorem redrive_of_ne {l : Literal} (h : l.letter ≠ letter) :
    redrive driven letter value l = driven l := by
  simp [redrive, h]

theorem fits_redrive (quantifier : Quantifier) :
    Stage.Fits (redrive driven letter value) ⟨quantifier, letter⟩ := by
  cases quantifier <;> simp [Stage.Fits, redrive_positive, redrive_negative]

/-- Driving one literal of a letter after the other drives the letter. -/
theorem update_eq_redrive {driven' : Literal → Bool}
    (h : ∀ l : Literal, l.letter ≠ letter → driven' l = driven l) :
    Function.update (Function.update driven' (.positive letter) value) (.negative letter)
      (!value) = redrive driven letter value := by
  funext l
  by_cases hc : l.letter = letter
  · obtain ⟨c, negated⟩ := l
    subst hc
    cases negated <;> simp [redrive, Literal.holds, Literal.positive, Literal.negative]
  · have hp : l ≠ .positive letter := fun heq => hc (congrArg Literal.letter heq)
    have hn : l ≠ .negative letter := fun heq => hc (congrArg Literal.letter heq)
    rw [redrive_of_ne hc, Function.update_of_ne hn, Function.update_of_ne hp, h l hc]

theorem update_of_letter_ne {l l' : Literal} (hl : l'.letter = letter) (h : l.letter ≠ letter) :
    Function.update driven l' value l = driven l := by
  apply Function.update_of_ne
  rintro rfl
  exact h hl

end Redrive

namespace Stage

variable {q : Qbf} {keep : Nat}

theorem Fits.congr {driven driven' : Literal → Bool} {binding : Binding}
    (h : Fits driven binding) (hsame : ∀ l : Literal, l.letter = binding.letter →
      driven' l = driven l) : Fits driven' binding := by
  unfold Fits at h ⊢
  rw [hsame (.positive binding.letter) rfl, hsame (.negative binding.letter) rfl]
  exact h

/-- What fits stays fitting while one letter, which its quantifier leaves open, is changed. -/
theorem Fits.of_open (hq : q.IsProper) {i k : Nat} {binding : Binding}
    {driven driven' : Literal → Bool} (hi : q.bindings[i]? = some binding)
    (hfree : binding.quantifier = .existential ∨ k ≤ i)
    (hfits : ∀ j binding', j < k → q.bindings[j]? = some binding' → Fits driven binding')
    (hother : ∀ l : Literal, l.letter ≠ binding.letter → driven' l = driven l)
    (hone : ¬(driven' (.positive binding.letter) = true ∧
      driven' (.negative binding.letter) = true)) :
    ∀ j binding', j < k → q.bindings[j]? = some binding' → Fits driven' binding' := by
  intro j binding' hj hb'
  by_cases hij : j = i
  · subst hij
    rw [hi] at hb'
    cases hb'
    rcases hfree with hexistential | hle
    · unfold Fits
      rw [hexistential]
      exact hone
    · omega
  · apply (hfits j binding' hj hb').congr
    intro l hl
    apply hother
    intro heq
    exact hij (index_eq_of_letter_eq hq.nodup hb' hi (hl.symm.trans heq))

/-- A letter may be driven anew if its quantifier is existential or does not try yet. -/
theorem passes_redrive (hq : q.IsProper) {i k : Nat} {binding : Binding}
    {driven : Literal → Bool} (hi : q.bindings[i]? = some binding)
    (hfree : binding.quantifier = .existential ∨ k ≤ i) (hkeep : keep ≤ k + 1) (value : Bool) :
    Passes q keep (asked q k driven) (asked q k (redrive driven binding.letter value)) := by
  intro b hb
  have hfits := legal_asked_iff.1 hb.legal
  have hmem : binding.letter ∈ letters q := List.mem_of_getElem? (getElem?_letters hi)
  -- between the old value and the new one the letter is not driven at all
  let p := Literal.positive binding.letter
  let n := Literal.negative binding.letter
  have hpn : p ≠ n := by simp [p, n, Literal.positive, Literal.negative]
  let off := Function.update driven p false
  let still := Function.update off n false
  let half := Function.update still p value
  have hoff (l : Literal) (h : l.letter ≠ binding.letter) : off l = driven l :=
    update_of_letter_ne rfl h
  have hquiet (l : Literal) (h : l.letter ≠ binding.letter) : still l = driven l :=
    (update_of_letter_ne rfl h).trans (hoff l h)
  have hhalf (l : Literal) (h : l.letter ≠ binding.letter) : half l = driven l :=
    (update_of_letter_ne rfl h).trans (hquiet l h)
  have hlast : Function.update half n (!value) = redrive driven binding.letter value :=
    update_eq_redrive hquiet
  have hfirst : Passes q keep (asked q k driven) (asked q k off) :=
    passes_drive hq hmem hkeep false (.of_open hq hi hfree hfits hoff (by simp [p]))
  have hsecond : Passes q keep (asked q k off) (asked q k still) :=
    passes_drive hq hmem hkeep false (.of_open hq hi hfree hfits hquiet (by simp [n]))
  have hthird : Passes q keep (asked q k still) (asked q k half) :=
    passes_drive hq hmem hkeep value
      (.of_open hq hi hfree hfits hhalf (by simp [still, n, Function.update_of_ne hpn.symm]))
  have hfourth : Passes q keep (asked q k half)
      (asked q k (redrive driven binding.letter value)) := by
    rw [← hlast]
    refine passes_drive hq hmem hkeep (!value) ?_
    rw [hlast]
    refine .of_open hq hi hfree hfits (fun l h => redrive_of_ne h) ?_
    simp [redrive_positive, redrive_negative]
  exact (((hfirst.trans hsecond).trans hthird).trans hfourth) b hb

/-- At the last call the existential letters take any values. -/
theorem passes_answers (hq : q.IsProper) (hkeep : keep ≤ q.bindings.length + 1)
    (assignment : Char → Bool) (bindings : List Binding)
    (hsub : ∀ binding ∈ bindings, binding ∈ q.bindings) (driven : Literal → Bool) :
    ∃ driven', Passes q keep (asked q q.bindings.length driven)
        (asked q q.bindings.length driven') ∧
      (∀ binding ∈ bindings, binding.quantifier = .existential → ∀ l : Literal,
        l.letter = binding.letter → driven' l = l.holds assignment) ∧
      ∀ l : Literal, (∀ binding ∈ bindings, binding.quantifier = .existential →
        binding.letter ≠ l.letter) → driven' l = driven l := by
  induction bindings generalizing driven with
  | nil => exact ⟨driven, .refl q keep _, by simp, by simp⟩
  | cons binding rest ih =>
    have hrest : ∀ binding ∈ rest, binding ∈ q.bindings := fun b hb => hsub b (by simp [hb])
    cases hkind : binding.quantifier with
    | universal =>
      obtain ⟨driven', hpass, hset, hkept⟩ := ih hrest driven
      refine ⟨driven', hpass, ?_, ?_⟩
      · intro b hb hexistential
        rcases List.mem_cons.1 hb with rfl | hb
        · rw [hkind] at hexistential
          cases hexistential
        · exact hset b hb hexistential
      · intro l hl
        exact hkept l fun b hb => hl b (List.mem_cons_of_mem _ hb)
    | existential =>
      obtain ⟨i, hi⟩ := List.mem_iff_getElem?.1 (hsub binding List.mem_cons_self)
      have hfirst : Passes q keep (asked q q.bindings.length driven) (asked q q.bindings.length
          (redrive driven binding.letter (assignment binding.letter))) :=
        passes_redrive hq hi (.inl hkind) hkeep _
      obtain ⟨driven', hpass, hset, hkept⟩ :=
        ih hrest (redrive driven binding.letter (assignment binding.letter))
      refine ⟨driven', hfirst.trans hpass, ?_, ?_⟩
      · intro b hb hexistential l hl
        by_cases hlater : ∃ b' ∈ rest, b'.quantifier = .existential ∧ b'.letter = l.letter
        · obtain ⟨b', hb', hexistential', hl'⟩ := hlater
          exact hset b' hb' hexistential' l hl'.symm
        · rcases List.mem_cons.1 hb with rfl | hb
          · rw [hkept l fun b' hb' h heq => hlater ⟨b', hb', h, heq⟩, redrive, if_pos hl,
              Literal.holds, Literal.holds, hl]
          · exact absurd ⟨b, hb, hexistential, hl.symm⟩ hlater
      · intro l hl
        rw [hkept l fun b hb => hl b (List.mem_cons_of_mem _ hb),
          redrive_of_ne fun heq => hl binding List.mem_cons_self hkind heq.symm]

/-! ## Winning -/

/-- The universal letters in front of an index are driven true or not as before. -/
def SameBefore (q : Qbf) (k : Nat) (driven driven' : Literal → Bool) : Prop :=
  ∀ i c, i < k → q.bindings[i]? = some ⟨.universal, c⟩ →
    driven' (.positive c) = driven (.positive c)

theorem sameBefore_redrive (hq : q.IsProper) {k : Nat} {binding : Binding}
    (hk : q.bindings[k]? = some binding) (driven : Literal → Bool) (value : Bool) :
    SameBefore q k driven (redrive driven binding.letter value) := by
  intro i c hi hb
  apply redrive_of_ne
  intro heq
  have hik : i = k := index_eq_of_letter_eq hq.nodup hb hk heq
  omega

/-- The board from which the call of a quantifier is won. -/
def Winnable (q : Qbf) (k : Nat) : Prop :=
  ∀ b driven, b.Stands q (asked q k driven) → ∃ next driven', Board.Leads q k b next ∧
    next.Stands q (won q k driven') ∧ SameBefore q k driven driven'

/-- A matrix is true under values as it is under the literals that are driven for them. -/
theorem evaluate_driven (hq : q.IsProper) {driven : Literal → Bool} {assignment : Char → Bool}
    (hfits : ∀ i binding, i < q.bindings.length → q.bindings[i]? = some binding →
      Fits driven binding)
    (hexistential : ∀ binding ∈ q.bindings, binding.quantifier = .existential → ∀ l : Literal,
      l.letter = binding.letter → driven l = l.holds assignment)
    (huniversal : ∀ c, ⟨.universal, c⟩ ∈ q.bindings → assignment c = driven (.positive c)) :
    q.matrix.evaluate driven = q.matrix.evaluate (Literal.holds assignment) := by
  apply Cnf.evaluate_congr
  intro clause hclause l hl
  obtain ⟨⟨kind, c⟩, hbinding, hletter⟩ := List.mem_map.1 (hq.letter_mem clause hclause l hl)
  obtain rfl : c = l.letter := hletter
  cases kind with
  | existential => exact hexistential _ hbinding rfl l rfl
  | universal =>
    obtain ⟨i, hi⟩ := List.mem_iff_getElem?.1 hbinding
    have hne : driven (.positive l.letter) ≠ driven (.negative l.letter) :=
      hfits i _ (List.getElem?_eq_some_iff.1 hi).1 hi
    have hassigned := huniversal l.letter hbinding
    obtain ⟨c, negated⟩ := l
    rw [Literal.holds, hassigned]
    cases negated with
    | false => exact (Bool.bne_false _).symm
    | true =>
      have hnot : driven (.negative c) = !driven (.positive c) := Bool.eq_not.2 hne.symm
      rw [Bool.bne_true]
      exact hnot

theorem winnable_last (hq : q.IsProper) (h : q.EveryBranchSatisfiable) :
    Winnable q q.bindings.length := by
  intro b driven hb
  obtain ⟨assignment, hchoice, htrue⟩ := h fun c => driven (.positive c)
  obtain ⟨driven', hpass, hset, hkept⟩ := passes_answers hq (Nat.le_succ _) assignment
    q.bindings (fun _ h => h) driven
  have huniversal (i : Nat) (c : Char) (hc : q.bindings[i]? = some ⟨.universal, c⟩)
      (l : Literal) (hl : l.letter = c) : driven' l = driven l := by
    apply hkept l
    intro binding hbinding hexistential heq
    obtain ⟨j, hj⟩ := List.mem_iff_getElem?.1 hbinding
    obtain rfl : j = i := index_eq_of_letter_eq hq.nodup hj hc (heq.trans hl)
    rw [hc] at hj
    cases hj
    cases hexistential
  have hanswered (c : Char) (hc : ⟨.universal, c⟩ ∈ q.bindings) :
      assignment c = driven' (.positive c) := by
    obtain ⟨i, hi⟩ := List.mem_iff_getElem?.1 hc
    rw [hchoice c hc, huniversal i c hi _ rfl]
  obtain ⟨called, hlead₁, hcalled⟩ := hpass b hb
  have hvalue : q.matrix.evaluate driven' = true := by
    rw [evaluate_driven hq (legal_asked_iff.1 hcalled.legal) hset hanswered, htrue]
  obtain ⟨told, hlead₂, htold⟩ := passes_answer hq (Nat.le_succ _) hvalue called hcalled
  obtain ⟨next, hlead₃, hnext⟩ := raise hq (Nat.le_refl _) (Nat.le_succ _) htold
    (fun c hc => by simp at hc)
  refine ⟨next, driven', (hlead₁.trans hlead₂).trans hlead₃, hnext, ?_⟩
  intro i c _ hc
  exact huniversal i c hc _ rfl

/-- With its letter driven to a value a quantifier passes the call on and the rest is won. -/
theorem Winnable.round (hq : q.IsProper) {k : Nat} (h : Winnable q (k + 1)) {binding : Binding}
    (hk : q.bindings[k]? = some binding) (value : Bool) {b : Board} {driven : Literal → Bool}
    (hb : b.Stands q (asked q k driven)) :
    ∃ next driven', Board.Leads q (k + 1) b next ∧ next.Stands q (won q (k + 1) driven') ∧
      SameBefore q (k + 1) (redrive driven binding.letter value) driven' := by
  have hlt : k < q.bindings.length := (List.getElem?_eq_some_iff.1 hk).1
  have hdrive : Passes q (k + 1) (asked q k driven)
      (asked q k (redrive driven binding.letter value)) :=
    passes_redrive hq hk (.inr (Nat.le_refl k)) (Nat.le_refl _) value
  have hcall : Passes q (k + 1) (asked q k (redrive driven binding.letter value))
      (asked q (k + 1) (redrive driven binding.letter value)) := by
    refine passes_call hq hlt (Nat.le_succ _) ?_
    intro binding' hb'
    rw [hk] at hb'
    cases hb'
    exact fits_redrive _
  obtain ⟨middle, hlead, hmiddle⟩ := (hdrive.trans hcall) b hb
  obtain ⟨next, driven', hlead', hnext, hsame⟩ := h middle _ hmiddle
  exact ⟨next, driven', hlead.trans hlead', hnext, hsame⟩

/-- A universal quantifier that is won for its negated letter has its latch set. -/
theorem latch_of_won (hq : q.IsProper) {k : Nat} {c : Char}
    (hk : q.bindings[k]? = some ⟨.universal, c⟩) {b : Board} {driven : Literal → Bool}
    (hb : b.Stands q (won q (k + 1) driven)) (hc : driven (.positive c) = false) :
    b.latch c = true := by
  have hlt : k < q.bindings.length := (List.getElem?_eq_some_iff.1 hk).1
  have hne : driven (.positive c) ≠ driven (.negative c) :=
    hb.legal.fits k _ hk (Nat.succ_lt_succ hlt)
  have hinv : b.on (.literal (.negative c)) = true := by
    have : driven (.negative c) = true := by
      rw [hc] at hne
      simpa using hne.symm
    rw [hb.on_eq]
    exact this
  have hsuccess : b.on (.success (k + 1)) = true := by
    rw [hb.on_eq]
    simp only [on, won, Nat.le_refl, decide_true, Bool.true_and]
    exact decide_eq_true hlt
  exact hb.steady.latch_of_success hq.nodup hk hsuccess hinv

theorem Winnable.existential (hq : q.IsProper) {k : Nat} (h : Winnable q (k + 1)) {c : Char}
    (hk : q.bindings[k]? = some ⟨.existential, c⟩) : Winnable q k := by
  intro b driven hb
  have hlt : k < q.bindings.length := (List.getElem?_eq_some_iff.1 hk).1
  obtain ⟨middle, driven', hlead, hmiddle, hsame⟩ := h.round hq hk false hb
  obtain ⟨next, hlead', hnext⟩ := raise hq (Nat.le_of_lt hlt) (Nat.succ_le_succ (Nat.le_of_lt hlt))
    hmiddle (fun c' hc' => by rw [hk] at hc'; cases hc')
  refine ⟨next, driven', (hlead.trans hlead').mono (Nat.le_succ k), hnext, ?_⟩
  intro i c' hi hc'
  rw [hsame i c' (by omega) hc', sameBefore_redrive hq hk driven false i c' hi hc']

theorem Winnable.universal (hq : q.IsProper) {k : Nat} (h : Winnable q (k + 1)) {c : Char}
    (hk : q.bindings[k]? = some ⟨.universal, c⟩) : Winnable q k := by
  intro b driven hb
  have hlt : k < q.bindings.length := (List.getElem?_eq_some_iff.1 hk).1
  obtain ⟨first, driven₁, hlead₁, hfirst, hsame₁⟩ := h.round hq hk false hb
  have hlatch : first.latch c = true :=
    latch_of_won hq hk hfirst ((hsame₁ k c (Nat.lt_succ_self k) hk).trans redrive_positive)
  have hrewind : Passes q (k + 1) (won q (k + 1) driven₁) (asked q k driven₁) :=
    (passes_rewind hq hlt (Nat.le_succ _)).trans (passes_uncall hq hlt (Nat.le_refl _))
  obtain ⟨back, hlead₂, hback⟩ := hrewind first hfirst
  obtain ⟨second, driven₂, hlead₃, hsecond, hsame₂⟩ := h.round hq hk true hback
  have hkept : second.latch c = true :=
    (hlead₂.trans hlead₃).latches k c (Nat.lt_succ_self k) hk hlatch
  have hout : driven₂ (.positive c) = true :=
    (hsame₂ k c (Nat.lt_succ_self k) hk).trans redrive_positive
  have hlatched (c' : Char) (hc' : q.bindings[k]? = some ⟨.universal, c'⟩) :
      second.latch c' = true ∧ driven₂ (.positive c') = true := by
    rw [hk] at hc'
    cases hc'
    exact ⟨hkept, hout⟩
  obtain ⟨next, hlead₄, hnext⟩ :=
    raise hq (Nat.le_of_lt hlt) (Nat.succ_le_succ (Nat.le_of_lt hlt)) hsecond hlatched
  refine ⟨next, driven₂, (((hlead₁.trans hlead₂).trans hlead₃).trans hlead₄).mono (Nat.le_succ k),
    hnext, ?_⟩
  intro i c' hi hc'
  rw [hsame₂ i c' (by omega) hc', sameBefore_redrive hq hk driven₁ true i c' hi hc',
    hsame₁ i c' (by omega) hc', sameBefore_redrive hq hk driven false i c' hi hc']

theorem winnable (hq : q.IsProper) (h : q.EveryBranchSatisfiable) {k : Nat}
    (hk : k ≤ q.bindings.length) : Winnable q k := by
  induction hd : q.bindings.length - k generalizing k with
  | zero =>
    obtain rfl : k = q.bindings.length := by omega
    exact winnable_last hq h
  | succ d ih =>
    have hlt : k < q.bindings.length := by omega
    have hnext : Winnable q (k + 1) := ih hlt (by omega)
    obtain ⟨⟨kind, c⟩, hb⟩ : ∃ binding, q.bindings[k]? = some binding :=
      ⟨_, List.getElem?_eq_getElem hlt⟩
    cases kind with
    | existential => exact hnext.existential hq hb
    | universal => exact hnext.universal hq hb

end Stage

namespace Board

variable {q : Qbf} {b next : Board} {w : Wire}

/-- A wire that comes on along legal moves is turned by one of them. -/
theorem Reaches.exists_turn (h : Reaches q b next) (hoff : b.on w = false)
    (hon : next.on w = true) :
    ∃ before after, Reaches q b before ∧ before.on w = false ∧
      before.move? q w = some after := by
  induction h with
  | refl =>
    rw [hoff] at hon
    cases hon
  | @tail middle last hmiddle hstep ih =>
    cases hm : middle.on w with
    | true => exact ih hm
    | false =>
      obtain ⟨w', hw', hmove⟩ := hstep
      have hsame : w' = w := by
        by_contra hne
        obtain ⟨-, -, -, rfl⟩ := move?_eq_some_iff.1 hmove
        rw [settle_on, turn_on_of_ne _ (Ne.symm hne), hm] at hon
        cases hon
      subst hsame
      exact ⟨middle, last, hmiddle, hm, hmove⟩

/-- The first move calls the outermost quantifier. -/
theorem exists_first_call (hq : q.IsProper) :
    ∃ called, Reaches q start called ∧ called.Stands q (Stage.asked q 0 fun _ => false) := by
  have hstands : start.Stands q ⟨0, fun _ => false, false, false, false,
      q.bindings.length + 1⟩ := by
    refine ⟨steady_start q, ?_⟩
    funext w
    cases w with
    | success index =>
      simp only [start, Stage.on]
      grind
    | _ => simp [start, Stage.on]
  have hpass : Stage.Passes q 0 ⟨0, fun _ => false, false, false, false, q.bindings.length + 1⟩
      (Stage.asked q 0 fun _ => false) := by
    refine Stage.passes_of_turn hq (w := .call 0) (Nat.zero_le _) (by simp) rfl ?_ ?_
      (Nat.zero_le _)
    · intro w hne
      cases w with
      | call index =>
        have hne : index ≠ 0 := fun h => hne (congrArg Wire.call h)
        exact decide_eq_decide.2 (show index < 1 ↔ index < 0 by omega)
      | _ => rfl
    · intro latch _
      exact Stage.legal_asked_iff.2 fun i _ hi => absurd hi (Nat.not_lt_zero i)
  obtain ⟨called, hlead, hcalled⟩ := hpass start hstands
  exact ⟨called, hlead.reaches, hcalled⟩

/-- Where every branch is satisfiable, legal moves bring the wire into the sink to its turn. -/
theorem exists_win (hq : q.IsProper) (h : q.EveryBranchSatisfiable) :
    ∃ before after, Reaches q start before ∧ before.on (.success 0) = false ∧
      before.move? q (.success 0) = some after := by
  obtain ⟨called, hreach, hcalled⟩ := exists_first_call hq
  obtain ⟨won, driven, hlead, hwon, -⟩ :=
    Stage.winnable hq h (Nat.zero_le _) called _ hcalled
  have hon : won.on (.success 0) = true := by
    rw [hwon.on_eq]
    simp [Stage.on, Stage.won]
  exact Reaches.exists_turn (hreach.trans hlead.reaches) rfl hon

theorem exists_won (hq : q.IsProper) (h : q.EveryBranchSatisfiable) :
    ∃ won, Reaches q start won ∧ won.on (.success 0) = true := by
  obtain ⟨before, won, hbefore, hoff, hm⟩ := exists_win hq h
  refine ⟨won, hbefore.tail ⟨.success 0, Nat.zero_le _, hm⟩, ?_⟩
  obtain ⟨-, -, -, rfl⟩ := move?_eq_some_iff.1 hm
  rw [settle_on, turn_on_self, hoff]
  rfl

end Board

end ConstraintLogic.Circuit
