import ConstraintLogic.Proofs.Formula.Written
import ConstraintLogic.Proofs.Reading
import Mathlib.Data.List.TakeWhile
/-!
# Written bindings

A quantified formula is written as its bindings, each a keyword, blanks and a letter, with blanks
between each two, then a colon and the matrix. Every text of this form whose matrix can be read is
read as the formula, if there is no line feed in the matrix; and no other text is read.
-/

namespace ConstraintLogic

/-! ## Blanks -/

namespace Text

variable {c : Char} {cs gap rest : List Char}

def AllBlank (cs : List Char) : Prop :=
  ∀ c ∈ cs, isBlank c = true

theorem AllBlank.not_mem_colon (h : AllBlank cs) : ':' ∉ cs :=
  fun hmem => absurd (h _ hmem) (by decide)

/-- The characters do not start with a blank. -/
def StartsBare (cs : List Char) : Prop :=
  ∀ c ∈ cs.head?, isBlank c = false

theorem startsBare_cons (h : isBlank c = false) : StartsBare (c :: rest) := by
  intro d hd
  cases hd
  exact h

theorem isBlank_eq_false_of_isAlpha (h : c.isAlpha = true) : isBlank c = false := by
  have hcode : 65 ≤ c.toNat ∧ c.toNat ≤ 122 := by
    rcases Bool.or_eq_true_iff.1 h with hupper | hlower
    · obtain ⟨hlow, hhigh⟩ := of_decide_eq_true hupper
      exact ⟨hlow, Nat.le_trans hhigh (by decide)⟩
    · obtain ⟨hlow, hhigh⟩ := Bool.and_eq_true_iff.1 hlower
      exact ⟨Nat.le_trans (by decide) (of_decide_eq_true hlow), of_decide_eq_true hhigh⟩
  simp only [isBlank, blankRanges, List.any_cons, List.any_nil]
  grind

theorem dropWhile_isBlank_eq_iff :
    cs.dropWhile isBlank = rest ↔ (∃ gap, AllBlank gap ∧ cs = gap ++ rest) ∧ StartsBare rest := by
  constructor
  · rintro rfl
    refine ⟨⟨cs.takeWhile isBlank, ?_, List.takeWhile_append_dropWhile.symm⟩, ?_⟩
    · exact fun c hc => List.mem_takeWhile_imp hc
    · intro c hc
      have hhead := List.head?_dropWhile_not isBlank cs
      rwa [hc] at hhead
  · rintro ⟨⟨gap, hgap, rfl⟩, hbare⟩
    rw [List.dropWhile_append_of_pos hgap]
    cases rest with
    | nil => rfl
    | cons c rest => exact List.dropWhile_cons_of_neg (by simp [hbare c rfl])

theorem dropWhile_append_of_allBlank (hgap : AllBlank gap) (hrest : StartsBare rest) :
    (gap ++ rest).dropWhile isBlank = rest :=
  dropWhile_isBlank_eq_iff.2 ⟨⟨gap, hgap, rfl⟩, hrest⟩

end Text

namespace Qbf

open Text

variable {cs rest head matrix : List Char} {b : Binding} {bindings : List Binding}

/-! ## One binding -/

/-- The characters are the keyword, blanks and the letter of a binding. -/
def WritesBinding (b : Binding) (cs : List Char) : Prop :=
  ∃ gap, gap ≠ [] ∧ AllBlank gap ∧ b.letter.isAlpha = true ∧
    cs = b.quantifier.keyword.toList ++ (gap ++ [b.letter])

theorem afterWord?_eq_some_iff {word : List Char} :
    afterWord? word cs = some rest ↔
      ∃ gap, gap ≠ [] ∧ AllBlank gap ∧ cs = word ++ (gap ++ rest) ∧ StartsBare rest := by
  constructor
  · intro h
    unfold afterWord? at h
    split at h
    · next hword =>
      obtain ⟨after, rfl⟩ := List.isPrefixOf_iff_prefix.1 hword
      rw [List.drop_left] at h
      cases after with
      | nil => cases h
      | cons c after =>
        dsimp only at h
        by_cases hc : isBlank c = true
        · rw [if_pos hc, Option.some.injEq] at h
          obtain ⟨⟨gap, hgap, rfl⟩, hbare⟩ := dropWhile_isBlank_eq_iff.1 h
          refine ⟨c :: gap, List.cons_ne_nil _ _, ?_, rfl, hbare⟩
          exact List.forall_mem_cons.2 ⟨hc, hgap⟩
        · rw [if_neg hc] at h
          cases h
    · cases h
  · rintro ⟨gap, hne, hgap, rfl, hbare⟩
    obtain ⟨c, gap, rfl⟩ := List.exists_cons_of_ne_nil hne
    obtain ⟨hc, hgap⟩ := List.forall_mem_cons.1 hgap
    have hword : word.isPrefixOf (word ++ c :: (gap ++ rest)) = true :=
      List.isPrefixOf_iff_prefix.2 (List.prefix_append _ _)
    simp only [List.cons_append, afterWord?, hword, if_true, List.drop_left, hc,
      dropWhile_append_of_allBlank hgap hbare]

theorem letter?_eq_some_iff {c : Char} :
    letter? cs = some (c, rest) ↔ c.isAlpha = true ∧ cs = c :: rest := by
  cases cs with
  | nil => simp [letter?]
  | cons d tail =>
    by_cases hd : d.isAlpha = true
    · simp only [letter?, if_pos hd, Option.some.injEq, Prod.mk.injEq, List.cons.injEq]
      grind
    · simp only [letter?, if_neg hd, reduceCtorEq, List.cons.injEq, false_iff]
      grind

/-- A binding is read from the characters that write it, and leaves those that follow. -/
theorem binding?_eq_some_iff :
    binding? cs = some (b, rest) ↔ ∃ head, WritesBinding b head ∧ cs = head ++ rest := by
  constructor
  · intro h
    have hof (quantifier : Quantifier) {after : List Char}
        (hword : afterWord? quantifier.keyword.toList cs = some after)
        (hletter : (letter? after).map (fun p => (⟨quantifier, p.1⟩, p.2)) = some (b, rest)) :
        ∃ head, WritesBinding b head ∧ cs = head ++ rest := by
      obtain ⟨gap, hne, hgap, rfl, -⟩ := afterWord?_eq_some_iff.1 hword
      obtain ⟨⟨c, after⟩, hc, heq⟩ := Option.map_eq_some_iff.1 hletter
      cases heq
      obtain ⟨halpha, rfl⟩ := letter?_eq_some_iff.1 hc
      exact ⟨_, ⟨gap, hne, hgap, halpha, rfl⟩, by simp⟩
    unfold binding? at h
    split at h
    · next hword => exact hof .universal hword h
    · split at h
      · next hword => exact hof .existential hword h
      · cases h
  · rintro ⟨_, ⟨gap, hne, hgap, halpha, rfl⟩, rfl⟩
    have hword : afterWord? b.quantifier.keyword.toList
        (b.quantifier.keyword.toList ++ (gap ++ [b.letter]) ++ rest) = some (b.letter :: rest) :=
      afterWord?_eq_some_iff.2 ⟨gap, hne, hgap, by simp,
        startsBare_cons (isBlank_eq_false_of_isAlpha halpha)⟩
    have hletter : letter? (b.letter :: rest) = some (b.letter, rest) :=
      letter?_eq_some_iff.2 ⟨halpha, rfl⟩
    obtain ⟨quantifier, letter⟩ := b
    cases quantifier with
    | universal => simp only [binding?, hword, hletter, Option.map_some]
    | existential =>
      have hother : afterWord? Quantifier.universal.keyword.toList
          (Quantifier.existential.keyword.toList ++ (gap ++ [letter]) ++ rest) = none := rfl
      simp only [binding?, hother, hword, hletter, Option.map_some]

/-! ## All bindings -/

/-- One or more bindings with blanks between each two. -/
inductive WritesBindings : List Binding → List Char → Prop where
  | last {b : Binding} {cs : List Char} : WritesBinding b cs → WritesBindings [b] cs
  | cons {b : Binding} {bindings : List Binding} {cs gap rest : List Char} :
    WritesBinding b cs → gap ≠ [] → AllBlank gap → WritesBindings bindings rest →
      WritesBindings (b :: bindings) (cs ++ (gap ++ rest))

theorem WritesBinding.head?_eq (h : WritesBinding b head) :
    (head ++ rest).head? = some 'f' ∨ (head ++ rest).head? = some 'e' := by
  obtain ⟨gap, -, -, -, rfl⟩ := h
  cases b.quantifier with
  | universal => exact .inl rfl
  | existential => exact .inr rfl

theorem WritesBindings.head?_eq (h : WritesBindings bindings head) :
    (head ++ rest).head? = some 'f' ∨ (head ++ rest).head? = some 'e' := by
  cases h with
  | last hb => exact hb.head?_eq
  | cons hb =>
    rw [List.append_assoc]
    exact hb.head?_eq

theorem WritesBindings.startsBare (h : WritesBindings bindings head) :
    StartsBare (head ++ rest) := by
  intro c hc
  have hhead : (head ++ rest).head? = some 'f' ∨ (head ++ rest).head? = some 'e' := h.head?_eq
  rcases hhead with hhead | hhead <;> rw [hhead] at hc <;> cases hc <;> decide

theorem WritesBinding.not_mem_colon (h : WritesBinding b head) : ':' ∉ head := by
  obtain ⟨gap, -, hgap, halpha, rfl⟩ := h
  have hkeyword : ':' ∉ b.quantifier.keyword.toList := by
    cases b.quantifier <;> decide
  have hletter : ':' ≠ b.letter := by
    rintro heq
    rw [← heq] at halpha
    exact absurd halpha (by decide)
  simp [hkeyword, hgap.not_mem_colon, hletter]

theorem WritesBindings.not_mem_colon (h : WritesBindings bindings head) : ':' ∉ head := by
  induction h with
  | last hb => exact hb.not_mem_colon
  | cons hb _ hgap _ ih => simp [hb.not_mem_colon, hgap.not_mem_colon, ih]

/-! ## The form of the text -/

/-- The bindings are read from the characters that write them, up to the colon. -/
theorem header?_eq_some_iff :
    header? cs = some (bindings, matrix) ↔
      ∃ head gap, WritesBindings bindings head ∧ AllBlank gap ∧
        cs = head ++ (gap ++ ':' :: matrix) := by
  have hcolon : isBlank ':' = false := by decide
  constructor
  · intro h
    fun_induction header? cs generalizing bindings matrix with
    | case1 cs hb => cases h
    | case2 cs b rest hb after hr =>
      cases h
      obtain ⟨head, hhead, rfl⟩ := binding?_eq_some_iff.1 hb
      obtain ⟨⟨gap, hgap, rfl⟩, -⟩ := dropWhile_isBlank_eq_iff.1 hr
      exact ⟨head, gap, .last hhead, hgap, rfl⟩
    | case3 cs b rest hb hblank hnot ih =>
      obtain ⟨⟨bs, matrix'⟩, hrest, heq⟩ := Option.map_eq_some_iff.1 h
      cases heq
      obtain ⟨later, gap, hlater, hgap, hafter⟩ := ih hrest
      obtain ⟨head, hhead, rfl⟩ := binding?_eq_some_iff.1 hb
      obtain ⟨⟨inner, hinner, rfl⟩, hbare⟩ := dropWhile_isBlank_eq_iff.1 hafter
      have hne : inner ≠ [] := by
        rintro rfl
        rw [List.nil_append] at hblank
        obtain ⟨c, hc, hcblank⟩ := (Option.any_eq_true _ _).1 hblank
        rw [hbare c hc] at hcblank
        cases hcblank
      exact ⟨head ++ (inner ++ later), gap, .cons hhead hne hinner hlater, hgap, by simp⟩
    | case4 cs b rest hb hnot hblank => cases h
  · rintro ⟨head, gap, hhead, hgap, rfl⟩
    induction hhead with
    | last hb =>
      refine header?_last (binding?_eq_some_iff.2 ⟨_, hb, rfl⟩) ?_
      exact dropWhile_append_of_allBlank hgap (startsBare_cons hcolon)
    | @cons b bindings cs inner rest hb hne hinner hrest ih =>
      obtain ⟨c, tail, rfl⟩ := List.exists_cons_of_ne_nil hne
      have hdrop : (c :: tail ++ (rest ++ (gap ++ ':' :: matrix))).dropWhile isBlank =
          rest ++ (gap ++ ':' :: matrix) := dropWhile_append_of_allBlank hinner hrest.startsBare
      have hread : binding? (cs ++ (c :: tail ++ rest) ++ (gap ++ ':' :: matrix)) =
          some (b, c :: tail ++ (rest ++ (gap ++ ':' :: matrix))) :=
        binding?_eq_some_iff.2 ⟨cs, hb, by simp⟩
      refine header?_cons hread ?_ ?_ ?_
      · rw [hdrop]
        rcases hrest.head?_eq with hhead | hhead <;> rw [hhead] <;> decide
      · simpa using hinner c List.mem_cons_self
      · rw [hdrop]
        exact ih

/-- The text has the form of the formula: its bindings, a colon and its matrix, which uses exactly
the letters that are bound, each once. -/
def HasForm (text : String) (q : Qbf) : Prop :=
  ∃ start head gap rest, AllBlank start ∧ WritesBindings q.bindings head ∧ AllBlank gap ∧
    text.toList = start ++ (head ++ (gap ++ ':' :: rest)) ∧
    (q.bindings.map Binding.letter).Nodup ∧ Cnf.parse (String.ofList rest) = .ok q.matrix ∧
    ∀ c, c ∈ q.matrix.letters ↔ c ∈ q.bindings.map Binding.letter

theorem parts?_eq_some_iff {text : List Char} :
    parts? text = some (bindings, matrix) ↔
      '\n' ∉ matrix ∧ ∃ start head gap, AllBlank start ∧ WritesBindings bindings head ∧
        AllBlank gap ∧ text = start ++ (head ++ (gap ++ ':' :: matrix)) := by
  have hheader : header? (text.dropWhile isBlank) = some (bindings, matrix) ↔
      ∃ start head gap, AllBlank start ∧ WritesBindings bindings head ∧
        AllBlank gap ∧ text = start ++ (head ++ (gap ++ ':' :: matrix)) := by
    rw [header?_eq_some_iff]
    constructor
    · rintro ⟨head, gap, hhead, hgap, hdrop⟩
      obtain ⟨⟨start, hstart, rfl⟩, -⟩ := dropWhile_isBlank_eq_iff.1 hdrop
      exact ⟨start, head, gap, hstart, hhead, hgap, rfl⟩
    · rintro ⟨start, head, gap, hstart, hhead, hgap, rfl⟩
      exact ⟨head, gap, hhead, hgap, dropWhile_append_of_allBlank hstart hhead.startsBare⟩
  rw [← hheader, parts?]
  cases header? (text.dropWhile isBlank) with
  | none => simp
  | some parts =>
    obtain ⟨bs, m⟩ := parts
    by_cases hline : '\n' ∈ m
    · simp only [if_pos hline, Option.some.injEq, Prod.mk.injEq, reduceCtorEq, false_iff]
      rintro ⟨hnot, -, rfl⟩
      exact hnot hline
    · simp only [if_neg hline, Option.some.injEq, Prod.mk.injEq]
      constructor
      · rintro ⟨rfl, rfl⟩
        exact ⟨hline, rfl, rfl⟩
      · exact And.right

/-- Bindings that are as many as the letters, and are among them, bind all of them. -/
theorem check_eq_ok_iff_letters {f : Cnf} {q : Qbf} (hbound : (bindings.map Binding.letter).Nodup)
    (hletters : f.letters.Nodup) :
    check bindings f = .ok q ↔
      q = ⟨bindings, f⟩ ∧ ∀ c, c ∈ f.letters ↔ c ∈ bindings.map Binding.letter := by
  rw [check_eq_ok_iff]
  constructor
  · rintro ⟨hused, hlength, rfl⟩
    exact ⟨rfl, fun c => (perm_letters hbound hused hlength).mem_iff.symm⟩
  · rintro ⟨rfl, hsame⟩
    have hperm : f.letters.Perm (bindings.map Binding.letter) :=
      (List.perm_ext_iff_of_nodup hletters hbound).2 hsame
    refine ⟨fun b hb => (hsame _).2 (List.mem_map_of_mem hb), ?_, rfl⟩
    rw [hperm.length_eq, List.length_map]

theorem exists_format_of_check {f : Cnf} {fault : Fault} (h : check bindings f = .error fault) :
    ∃ m, fault = .format m := by
  unfold check at h
  split at h
  · cases h
    exact ⟨_, rfl⟩
  · split at h
    · cases h
    · cases h
      exact ⟨_, rfl⟩

theorem exists_format_of_parse {text : String} {fault : Fault} (h : parse text = .error fault) :
    ∃ m, fault = .format m := by
  unfold parse at h
  split at h
  · cases h
    exact ⟨_, rfl⟩
  · next bindings matrix _ =>
    split at h
    · cases h
      exact ⟨_, rfl⟩
    · cases hm : Cnf.parse (String.ofList matrix) with
      | error other =>
        rw [hm] at h
        cases h
        exact Cnf.exists_format_of_parse hm
      | ok f =>
        rw [hm] at h
        exact exists_format_of_check h

/-- Where the bindings stand, nothing comes before the first colon but they and blanks. -/
theorem dropWhile_ne_colon {text start gap : List Char} (hstart : AllBlank start)
    (hhead : WritesBindings bindings head) (hgap : AllBlank gap)
    (htext : text = start ++ (head ++ (gap ++ ':' :: matrix))) :
    text.dropWhile (· ≠ ':') = ':' :: matrix := by
  have hbefore : ∀ c ∈ start ++ (head ++ gap), decide (c ≠ ':') = true := by
    intro c hc
    have hcolon : ':' ∉ start ++ (head ++ gap) := by
      simp [hstart.not_mem_colon, hhead.not_mem_colon, hgap.not_mem_colon]
    simpa using fun heq : c = ':' => hcolon (heq ▸ hc)
  have hsplit : text = start ++ (head ++ gap) ++ ':' :: matrix := by
    rw [htext]
    simp
  rw [hsplit, List.dropWhile_append_of_pos hbefore]
  exact List.dropWhile_cons_of_neg (by simp)

/-- A text of the form of a formula is read as it, unless there is a line feed after the colon. -/
theorem parse_eq_ok_iff_hasForm {text : String} {q : Qbf} :
    parse text = .ok q ↔ HasForm text q ∧ '\n' ∉ text.toList.dropWhile (· ≠ ':') := by
  constructor
  · intro h
    unfold parse at h
    split at h
    · cases h
    · next bindings matrix hparts =>
      split at h
      · cases h
      · next hrepeat =>
        have hnodup := (firstRepeated?_eq_none_iff.1 hrepeat).1
        obtain ⟨hline, start, head, gap, hstart, hhead, hgap, htext⟩ := parts?_eq_some_iff.1 hparts
        cases hm : Cnf.parse (String.ofList matrix) with
        | error fault => rw [hm] at h; cases h
        | ok f =>
          rw [hm] at h
          have hletters := (Cnf.parse_eq_ok_iff_spells.1 hm).letters.nodup
          obtain ⟨rfl, hsame⟩ := (check_eq_ok_iff_letters hnodup hletters).1 h
          refine ⟨⟨start, head, gap, matrix, hstart, hhead, hgap, htext, hnodup, hm, hsame⟩, ?_⟩
          rw [dropWhile_ne_colon hstart hhead hgap htext]
          simpa using hline
  · rintro ⟨⟨start, head, gap, matrix, hstart, hhead, hgap, htext, hnodup, hm, hsame⟩, hline⟩
    rw [dropWhile_ne_colon hstart hhead hgap htext] at hline
    have hparts : parts? text.toList = some (q.bindings, matrix) :=
      parts?_eq_some_iff.2 ⟨fun hmem => hline (List.mem_cons_of_mem _ hmem), start, head, gap,
        hstart, hhead, hgap, htext⟩
    have hrepeat : firstRepeated? [] (q.bindings.map Binding.letter) = none :=
      firstRepeated?_eq_none_iff.2 ⟨hnodup, by simp⟩
    have hletters := (Cnf.parse_eq_ok_iff_spells.1 hm).letters.nodup
    simp only [parse, hparts, hrepeat, hm]
    exact (check_eq_ok_iff_letters hnodup hletters).2 ⟨rfl, hsame⟩

/-- The texts that are read are those of the form of a formula that have no line feed after the
colon. Other texts are refused for their form. -/
theorem parse_form (text : String) :
    (∀ q, parse text = .ok q ↔ HasForm text q ∧ '\n' ∉ text.toList.dropWhile (· ≠ ':')) ∧
      ∀ fault, parse text = .error fault → ∃ m, fault = .format m :=
  ⟨fun _ => parse_eq_ok_iff_hasForm, fun _ => exists_format_of_parse⟩

/-- A text of the form of a formula that is refused for the line feed at its end. -/
theorem hasForm_refused_lineFeed :
    ∃ q, HasForm "exists x : (x)\n" q ∧ ∃ m, parse "exists x : (x)\n" = .error (.format m) := by
  have hblank : AllBlank [' '] := List.forall_mem_singleton.2 (by decide)
  have hbinding : WritesBinding ⟨.existential, 'x'⟩ "exists x".toList :=
    ⟨[' '], List.cons_ne_nil _ _, hblank, by decide, by decide +kernel⟩
  have hform : HasForm "exists x : (x)\n"
      ⟨[⟨.existential, 'x'⟩], ⟨"(x)", ['x'], [[.positive 'x']]⟩⟩ :=
    ⟨[], "exists x".toList, [' '], " (x)\n".toList, nofun, .last hbinding, hblank,
      by decide +kernel, by decide, rfl, by simp⟩
  refine ⟨_, hform, ?_⟩
  cases h : parse "exists x : (x)\n" with
  | error fault =>
    obtain ⟨m, rfl⟩ := exists_format_of_parse h
    exact ⟨m, rfl⟩
  | ok q => exact absurd (by decide +kernel) (parse_eq_ok_iff_hasForm.1 h).2

end Qbf

end ConstraintLogic
