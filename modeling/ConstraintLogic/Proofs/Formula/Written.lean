import ConstraintLogic.Formula.Cnf.Parser
import Mathlib.Data.List.Forall2
import Mathlib.Data.List.Basic
/-!
# Written formulas

A formula is written as clauses with `&&` between each two, a clause as literals in parentheses
with `||` between each two. Every text that writes a formula is read as it, but some other texts
are read too: those where the clauses have further parentheses inside, which are passed over.
-/

namespace ConstraintLogic

/-! ## Pieces -/

namespace Text

variable {sep c : Char} {cs rest : List Char}

theorem splitAtDouble_cons_of_ne (h : c ≠ sep) :
    splitAtDouble sep (c :: cs) = consFirst c (splitAtDouble sep cs) := by
  cases cs with
  | nil => rfl
  | cons d rest => rw [splitAtDouble, if_neg fun heq => h heq.1]

theorem splitAtDouble_of_not_mem (h : sep ∉ cs) : splitAtDouble sep cs = [cs] := by
  induction cs with
  | nil => rfl
  | cons c cs ih =>
    obtain ⟨hc, hcs⟩ := not_or.1 (mt List.mem_cons.2 h)
    rw [splitAtDouble_cons_of_ne (Ne.symm hc), ih hcs, consFirst]

theorem splitAtDouble_append (h : sep ∉ cs) :
    splitAtDouble sep (cs ++ sep :: sep :: rest) = cs :: splitAtDouble sep rest := by
  induction cs with
  | nil => rw [List.nil_append, splitAtDouble, if_pos ⟨rfl, rfl⟩]
  | cons c cs ih =>
    obtain ⟨hc, hcs⟩ := not_or.1 (mt List.mem_cons.2 h)
    rw [List.cons_append, splitAtDouble_cons_of_ne (Ne.symm hc), ih hcs, consFirst]

/-- Pieces without the separator are found again after they were joined. -/
theorem splitAtDouble_intercalate {pieces : List (List Char)} (hne : pieces ≠ [])
    (h : ∀ piece ∈ pieces, sep ∉ piece) :
    splitAtDouble sep ([sep, sep].intercalate pieces) = pieces := by
  induction pieces with
  | nil => exact absurd rfl hne
  | cons piece pieces ih =>
    obtain ⟨hpiece, hpieces⟩ := List.forall_mem_cons.1 h
    cases pieces with
    | nil => rw [List.intercalate_singleton, splitAtDouble_of_not_mem hpiece]
    | cons next pieces =>
      rw [List.intercalate_cons_cons, List.append_assoc]
      exact (splitAtDouble_append hpiece).trans
        (congrArg (piece :: ·) (ih (List.cons_ne_nil _ _) hpieces))

theorem not_mem_intercalate {signs : List Char} {pieces : List (List Char)} (hsigns : c ∉ signs)
    (h : ∀ piece ∈ pieces, c ∉ piece) : c ∉ signs.intercalate pieces := by
  induction pieces with
  | nil => exact List.not_mem_nil
  | cons piece pieces ih =>
    obtain ⟨hpiece, hpieces⟩ := List.forall_mem_cons.1 h
    cases pieces with
    | nil => rwa [List.intercalate_singleton]
    | cons next pieces =>
      rw [List.intercalate_cons_cons, List.mem_append, List.mem_append, not_or, not_or]
      exact ⟨⟨hpiece, hsigns⟩, ih hpieces⟩

end Text

theorem mapM_eq_ok_iff {α β : Type} {f : α → Except Fault β} {l : List α} {l' : List β} :
    l.mapM f = .ok l' ↔ List.Forall₂ (fun a b => f a = .ok b) l l' := by
  induction l generalizing l' with
  | nil => cases l' <;> simp [pure, Except.pure]
  | cons a rest ih =>
    rw [List.mapM_cons]
    cases ha : f a with
    | error fault => simp [bind, Except.bind, List.forall₂_cons_left_iff, ha]
    | ok b =>
      cases hrest : rest.mapM f with
      | error fault =>
        have hnone (l' : List β) : ¬List.Forall₂ (fun a b => f a = .ok b) rest l' := by
          rw [← ih, hrest]
          nofun
        simp [bind, Except.bind, List.forall₂_cons_left_iff, hnone]
      | ok bs =>
        have hsome (l' : List β) :
            List.Forall₂ (fun a b => f a = .ok b) rest l' ↔ bs = l' := by
          rw [← ih, hrest, Except.ok.injEq]
        simp [bind, Except.bind, pure, Except.pure, List.forall₂_cons_left_iff, hsome, ha, eq_comm]

theorem Literal.not_mem_chars {l : Literal} {c : Char} (hl : l.letter.isAlpha = true)
    (hmark : c ≠ '!') (hc : c.isAlpha = false) : c ∉ l.chars := by
  have hne : c ≠ l.letter := by
    rintro rfl
    simp [hl] at hc
  cases hneg : l.negated <;> simp [Literal.chars, hneg, hmark, hne]

/-! ## Letters in order -/

/-- The list has each of the other list's letters once, in the order in which they first appear. -/
def ListsInOrder (letters occurrences : List Char) : Prop :=
  (∀ c, c ∈ letters ↔ c ∈ occurrences) ∧
    letters.Pairwise fun a b => occurrences.idxOf a < occurrences.idxOf b

namespace ListsInOrder

variable {letters letters' occurrences : List Char}

theorem nodup (h : ListsInOrder letters occurrences) : letters.Nodup :=
  h.2.imp fun {a b} hlt (heq : a = b) => Nat.lt_irrefl _ (heq ▸ hlt)

theorem unique (h : ListsInOrder letters occurrences) (h' : ListsInOrder letters' occurrences) :
    letters = letters' := by
  have hperm : letters.Perm letters' := by
    rw [List.perm_ext_iff_of_nodup h.nodup h'.nodup]
    exact fun c => (h.1 c).trans (h'.1 c).symm
  have hantisymm : ∀ a b, a ∈ letters → b ∈ letters' →
      occurrences.idxOf a < occurrences.idxOf b → occurrences.idxOf b < occurrences.idxOf a →
        a = b :=
    fun _ _ _ _ hab hba => absurd hba (Nat.lt_asymm hab)
  exact hperm.eq_of_pairwise hantisymm h.2 h'.2

theorem idxOf_lt_of_filter {p : Char → Bool} {a b : Char} (ha : p a = true) (hb : p b = true)
    (h : (occurrences.filter p).idxOf a < (occurrences.filter p).idxOf b) :
    occurrences.idxOf a < occurrences.idxOf b := by
  induction occurrences with
  | nil => exact h
  | cons c rest ih =>
    by_cases hca : c = a
    · subst hca
      have hne : c ≠ b := by
        rintro rfl
        exact Nat.lt_irrefl _ h
      rw [List.idxOf_cons_self, List.idxOf_cons_ne _ hne]
      exact Nat.succ_pos _
    · by_cases hcb : c = b
      · subst hcb
        rw [List.filter_cons_of_pos hb, List.idxOf_cons_self] at h
        exact absurd h (Nat.not_lt_zero _)
      · rw [List.idxOf_cons_ne _ hca, List.idxOf_cons_ne _ hcb]
        refine Nat.succ_lt_succ (ih ?_)
        by_cases hc : p c = true
        · rw [List.filter_cons_of_pos hc, List.idxOf_cons_ne _ hca, List.idxOf_cons_ne _ hcb] at h
          exact Nat.lt_of_succ_lt_succ h
        · rwa [List.filter_cons_of_neg hc] at h

/-- To leave out repetitions from the left keeps the first appearances. -/
theorem eraseDups (occurrences : List Char) : ListsInOrder occurrences.eraseDups occurrences := by
  refine ⟨fun c => List.mem_eraseDups, ?_⟩
  match occurrences with
  | [] => exact .nil
  | a :: rest =>
    rw [List.eraseDups_cons, List.pairwise_cons]
    have hne {b : Char} (hb : b ∈ (rest.filter fun b => !b == a).eraseDups) : b ≠ a := by
      simpa using (List.mem_filter.1 (List.mem_eraseDups.1 hb)).2
    constructor
    · intro b hb
      rw [List.idxOf_cons_self, List.idxOf_cons_ne _ (hne hb).symm]
      exact Nat.succ_pos _
    · refine List.Pairwise.imp_of_mem ?_ (eraseDups (rest.filter fun b => !b == a)).2
      intro b c hb hc hlt
      rw [List.idxOf_cons_ne _ (hne hb).symm, List.idxOf_cons_ne _ (hne hc).symm]
      exact Nat.succ_lt_succ
        (idxOf_lt_of_filter (by simpa using hne hb) (by simpa using hne hc) hlt)
termination_by occurrences.length
decreasing_by exact Nat.lt_succ_of_le (List.length_filter_le _ _)

end ListsInOrder

namespace Cnf

variable {cs piece : List Char} {clause : List Literal} {clauses : List (List Literal)}

/-! ## Clauses -/

/-- The literals with `||` between each two. -/
def clauseChars (clause : List Literal) : List Char :=
  ['|', '|'].intercalate (clause.map Literal.chars)

/-- The clause as it is written. -/
def enclosed (clause : List Literal) : List Char :=
  '(' :: (clauseChars clause ++ [')'])

/-- The clause as it is written, up to further parentheses between those at the ends. -/
def Encloses (clause : List Literal) (piece : List Char) : Prop :=
  ∃ body, piece = '(' :: (body ++ [')']) ∧
    (body.filter fun c => !isParenthesis c) = clauseChars clause

/-- The clause has literals, and their letters are letters. -/
def IsLettered (clause : List Literal) : Prop :=
  clause ≠ [] ∧ ∀ l ∈ clause, l.letter.isAlpha = true

theorem clauseBody?_eq_some_iff {body : List Char} :
    clauseBody? piece = some body ↔ piece = '(' :: (body ++ [')']) := by
  unfold clauseBody?
  split
  · next rest =>
    split
    · next hlast =>
      obtain ⟨init, rfl⟩ := List.getLast?_eq_some_iff.1 hlast
      simp
    · next hlast =>
      simp only [reduceCtorEq, List.cons.injEq, true_and, false_iff]
      rintro rfl
      simp at hlast
  · next hopen =>
    simp only [reduceCtorEq, false_iff]
    rintro rfl
    exact hopen _ rfl

theorem parseLiteral_eq_ok_iff {l : Literal} :
    parseLiteral piece cs = .ok l ↔ l.letter.isAlpha = true ∧ cs = l.chars := by
  rw [← Literal.ofChars?_eq_some_iff, parseLiteral]
  cases Literal.ofChars? cs <;> simp

/-- Literals that differ from their signs are found between the signs. -/
theorem mapM_parseLiteral_eq_ok_iff :
    (Text.splitAtDouble '|' cs).mapM (parseLiteral piece) = .ok clause ↔
      IsLettered clause ∧ cs = clauseChars clause := by
  simp only [mapM_eq_ok_iff, parseLiteral_eq_ok_iff]
  constructor
  · intro h
    have hpieces : Text.splitAtDouble '|' cs = clause.map Literal.chars := by
      rw [← List.forall₂_eq_eq_eq, List.forall₂_map_right_iff]
      exact h.imp fun _ _ hl => hl.2
    rw [hpieces, List.forall₂_map_left_iff, List.forall₂_same] at h
    refine ⟨⟨?_, fun l hl => (h l hl).1⟩, ?_⟩
    · rintro rfl
      exact Text.splitAtDouble_ne_nil _ _ hpieces
    · rw [clauseChars, ← hpieces, Text.intercalate_splitAtDouble]
  · rintro ⟨⟨hne, halpha⟩, rfl⟩
    have hfree : ∀ p ∈ clause.map Literal.chars, '|' ∉ p := by
      intro p hp
      obtain ⟨l, hl, rfl⟩ := List.mem_map.1 hp
      exact Literal.not_mem_chars (halpha l hl) (by decide) (by decide)
    rw [clauseChars, Text.splitAtDouble_intercalate (by simpa using hne) hfree,
      List.forall₂_map_left_iff, List.forall₂_same]
    exact fun l hl => ⟨halpha l hl, rfl⟩

/-- A clause is read wherever it is written, also with further parentheses inside. -/
theorem parseClause_eq_ok_iff :
    parseClause piece = .ok clause ↔ IsLettered clause ∧ Encloses clause piece := by
  unfold parseClause Encloses
  cases hbody : clauseBody? piece with
  | none =>
    have hnot (body : List Char) : piece ≠ '(' :: (body ++ [')']) := by
      rw [ne_eq, ← clauseBody?_eq_some_iff, hbody]
      nofun
    simp [hnot]
  | some body =>
    obtain rfl := clauseBody?_eq_some_iff.1 hbody
    simp [mapM_parseLiteral_eq_ok_iff]

/-! ## Formulas -/

/-- The clauses with `&&` between each two, as a formula is written. -/
def chars (clauses : List (List Literal)) : List Char :=
  ['&', '&'].intercalate (clauses.map enclosed)

/-- The formula keeps the text, has clauses of literals, and lists its letters. -/
structure IsReading (cs : List Char) (f : Cnf) : Prop where
  source : f.source = String.ofList cs
  clauses_ne_nil : f.clauses ≠ []
  lettered : ∀ clause ∈ f.clauses, IsLettered clause
  letters : ListsInOrder f.letters (f.clauses.flatten.map Literal.letter)

/-- The formula is the one that the text writes. -/
structure Writes (cs : List Char) (f : Cnf) : Prop extends IsReading cs f where
  written : cs = chars f.clauses

/-- The formula is the one that the text writes, if parentheses inside its clauses are left out. -/
structure Spells (cs : List Char) (f : Cnf) : Prop extends IsReading cs f where
  spelled : ∃ pieces, cs = ['&', '&'].intercalate pieces ∧
    List.Forall₂ Encloses f.clauses pieces

theorem isReading_ofClauses (hne : clauses ≠ []) (h : ∀ clause ∈ clauses, IsLettered clause) :
    IsReading cs (ofClauses cs clauses) where
  source := rfl
  clauses_ne_nil := hne
  lettered := h
  letters := .eraseDups _

theorem IsReading.eq_ofClauses {f : Cnf} (h : IsReading cs f) : f = ofClauses cs f.clauses := by
  have hletters : f.letters = (f.clauses.flatten.map Literal.letter).eraseDups :=
    h.letters.unique (.eraseDups _)
  rw [ofClauses, ← hletters, ← h.source]

theorem not_mem_clauseChars {c : Char} (hclause : IsLettered clause) (hor : c ≠ '|')
    (hmark : c ≠ '!') (hc : c.isAlpha = false) : c ∉ clauseChars clause := by
  refine Text.not_mem_intercalate (by simpa using hor) fun p hp => ?_
  obtain ⟨l, hl, rfl⟩ := List.mem_map.1 hp
  exact Literal.not_mem_chars (hclause.2 l hl) hmark hc

theorem Encloses.not_mem (h : Encloses clause piece) (hclause : IsLettered clause) :
    '&' ∉ piece := by
  obtain ⟨body, rfl, hbody⟩ := h
  have hnot : '&' ∉ body.filter fun c => !isParenthesis c := by
    rw [hbody]
    exact not_mem_clauseChars hclause (by decide) (by decide) (by decide)
  have hbody : '&' ∉ body := fun hmem => hnot (List.mem_filter.2 ⟨hmem, rfl⟩)
  simpa using hbody

/-- A formula is read from every text that spells it, and from no other. -/
theorem parse_eq_ok_iff_spells {text : String} {f : Cnf} :
    parse text = .ok f ↔ Spells (Text.dropBlanks text.toList) f := by
  simp only [parse]
  generalize Text.dropBlanks text.toList = cs
  constructor
  · intro h
    cases hclauses : (Text.splitAtDouble '&' cs).mapM parseClause with
    | error fault => rw [hclauses] at h; cases h
    | ok clauses =>
      rw [hclauses] at h
      cases h
      have hread := mapM_eq_ok_iff.1 hclauses
      simp only [parseClause_eq_ok_iff] at hread
      obtain ⟨hlettered, henclose⟩ := (List.forall₂_and_left _ _).1 hread.flip
      refine ⟨isReading_ofClauses ?_ hlettered, _, (Text.intercalate_splitAtDouble _ _).symm,
        henclose⟩
      rintro rfl
      exact Text.splitAtDouble_ne_nil _ _ (List.forall₂_nil_right_iff.1 hread)
  · rintro ⟨hreading, pieces, rfl, hpieces⟩
    have hne : pieces ≠ [] := by
      rintro rfl
      exact hreading.clauses_ne_nil (List.forall₂_nil_right_iff.1 hpieces)
    have hboth : List.Forall₂
        (fun piece clause => '&' ∉ piece ∧ parseClause piece = .ok clause) pieces f.clauses := by
      refine List.Forall₂.flip (((List.forall₂_and_left _ _).2
        ⟨hreading.lettered, hpieces⟩).imp ?_)
      exact fun clause piece h => ⟨h.2.not_mem h.1, parseClause_eq_ok_iff.2 h⟩
    obtain ⟨hfree, hread⟩ := (List.forall₂_and_left _ _).1 hboth
    rw [Text.splitAtDouble_intercalate hne hfree, mapM_eq_ok_iff.2 hread]
    exact congrArg Except.ok hreading.eq_ofClauses.symm

/-! ## Parentheses -/

theorem isParenthesis_iff {c : Char} : isParenthesis c = true ↔ c = '(' ∨ c = ')' := by
  simp [isParenthesis]

theorem countP_clauseChars (hclause : IsLettered clause) :
    (clauseChars clause).countP isParenthesis = 0 := by
  rw [List.countP_eq_zero]
  intro c hc hparenthesis
  rcases isParenthesis_iff.1 hparenthesis with rfl | rfl
  · exact not_mem_clauseChars hclause (by decide) (by decide) (by decide) hc
  · exact not_mem_clauseChars hclause (by decide) (by decide) (by decide) hc

/-- What is left out of a text that spells a clause are its further parentheses. -/
theorem Encloses.countP (h : Encloses clause piece) :
    2 ≤ piece.countP isParenthesis ∧
      (piece.countP isParenthesis = 2 → piece = enclosed clause) := by
  obtain ⟨body, rfl, hbody⟩ := h
  have hcount : ('(' :: (body ++ [')'])).countP isParenthesis =
      body.countP isParenthesis + 2 := by
    simp [List.countP_append, isParenthesis]
  rw [hcount]
  refine ⟨Nat.le_add_left _ _, fun htwo => ?_⟩
  have hnone : ∀ c ∈ body, ¬isParenthesis c = true :=
    List.countP_eq_zero.1 (Nat.add_right_cancel (htwo.trans (Nat.zero_add 2).symm))
  have hall : (body.filter fun c => !isParenthesis c) = body :=
    List.filter_eq_self.2 fun c hc => by simpa using hnone c hc
  rw [enclosed, ← hbody, hall]

theorem encloses_enclosed (hclause : IsLettered clause) : Encloses clause (enclosed clause) := by
  refine ⟨clauseChars clause, rfl, List.filter_eq_self.2 fun c hc => ?_⟩
  have hnone := List.countP_eq_zero.1 (countP_clauseChars hclause) c hc
  simpa using hnone

theorem countP_enclosed (hclause : IsLettered clause) :
    (enclosed clause).countP isParenthesis = 2 := by
  have hbody := countP_clauseChars hclause
  simp [enclosed, List.countP_append, hbody, isParenthesis]

theorem countP_intercalate (pieces : List (List Char)) :
    (['&', '&'].intercalate pieces).countP isParenthesis =
      pieces.flatten.countP isParenthesis := by
  induction pieces with
  | nil => rfl
  | cons piece pieces ih =>
    cases pieces with
    | nil => simp
    | cons next pieces =>
      have hsigns : ['&', '&'].countP isParenthesis = 0 := rfl
      rw [List.intercalate_cons_cons, List.countP_append, List.countP_append, ih, hsigns,
        Nat.add_zero, @List.flatten_cons _ piece, List.countP_append]

/-- Pieces with two parentheses each, and no more, are the clauses as they are written. -/
theorem countP_flatten_of_encloses {pieces : List (List Char)}
    (h : List.Forall₂ Encloses clauses pieces) :
    2 * clauses.length ≤ pieces.flatten.countP isParenthesis ∧
      (pieces.flatten.countP isParenthesis = 2 * clauses.length →
        pieces = clauses.map enclosed) := by
  induction h with
  | nil => exact ⟨Nat.le_refl _, fun _ => rfl⟩
  | cons hpiece _ ih =>
    obtain ⟨htwo, heq⟩ := hpiece.countP
    rw [List.flatten_cons, List.countP_append, List.length_cons, List.map_cons]
    refine ⟨by omega, fun hsum => ?_⟩
    rw [heq (by omega), ih.2 (by omega)]

theorem IsReading.forall₂_encloses {f : Cnf} (h : IsReading cs f) :
    List.Forall₂ Encloses f.clauses (f.clauses.map enclosed) := by
  rw [List.forall₂_map_right_iff, List.forall₂_same]
  exact fun clause hclause => encloses_enclosed (h.lettered clause hclause)

theorem countP_flatten_enclosed (h : ∀ clause ∈ clauses, IsLettered clause) :
    (clauses.map enclosed).flatten.countP isParenthesis = 2 * clauses.length := by
  induction clauses with
  | nil => rfl
  | cons clause clauses ih =>
    obtain ⟨hclause, hclauses⟩ := List.forall_mem_cons.1 h
    rw [List.map_cons, List.flatten_cons, List.countP_append, countP_enclosed hclause,
      ih hclauses, List.length_cons]
    omega

theorem IsReading.countP_chars {f : Cnf} (h : IsReading cs f) :
    (chars f.clauses).countP isParenthesis = 2 * f.clauses.length := by
  rw [chars, countP_intercalate, countP_flatten_enclosed h.lettered]

/-- What a text spells it also writes, unless it has further parentheses. -/
theorem writes_iff_spells {f : Cnf} :
    Writes cs f ↔ Spells cs f ∧ cs.countP isParenthesis = 2 * f.clauses.length := by
  constructor
  · rintro ⟨hreading, hwritten⟩
    exact ⟨⟨hreading, _, hwritten, hreading.forall₂_encloses⟩, hwritten ▸ hreading.countP_chars⟩
  · rintro ⟨⟨hreading, pieces, hspelled, hpieces⟩, hcount⟩
    rw [hspelled, countP_intercalate] at hcount
    exact ⟨hreading, by rw [hspelled, (countP_flatten_of_encloses hpieces).2 hcount, chars]⟩

/-! ## Refusals -/

theorem exists_of_mapM_eq_error {α β : Type} {f : α → Except Fault β} {l : List α} {fault : Fault}
    (h : l.mapM f = .error fault) : ∃ a ∈ l, f a = .error fault := by
  induction l with
  | nil => cases h
  | cons a rest ih =>
    rw [List.mapM_cons] at h
    cases ha : f a with
    | error other =>
      rw [ha] at h
      cases h
      exact ⟨a, List.mem_cons_self, ha⟩
    | ok b =>
      cases hrest : rest.mapM f with
      | error other =>
        rw [ha, hrest] at h
        cases h
        obtain ⟨a', ha', hfault⟩ := ih hrest
        exact ⟨a', List.mem_cons_of_mem _ ha', hfault⟩
      | ok bs =>
        rw [ha, hrest] at h
        cases h

/-- Whatever is wrong with a text, it is its form. -/
theorem exists_format_of_parse {text : String} {fault : Fault} (h : parse text = .error fault) :
    ∃ m, fault = .format m := by
  simp only [parse] at h
  cases hclauses : (Text.splitAtDouble '&' (Text.dropBlanks text.toList)).mapM parseClause with
  | ok clauses => rw [hclauses] at h; cases h
  | error other =>
    rw [hclauses] at h
    cases h
    obtain ⟨piece, -, hpiece⟩ := exists_of_mapM_eq_error hclauses
    unfold parseClause at hpiece
    split at hpiece
    · cases hpiece
      exact ⟨_, rfl⟩
    · obtain ⟨p, -, hliteral⟩ := exists_of_mapM_eq_error hpiece
      unfold parseLiteral at hliteral
      split at hliteral
      · cases hliteral
      · cases hliteral
        exact ⟨_, rfl⟩

/-- A text is read exactly if it spells a formula; and it writes one if it is read and has no
parentheses but those around its clauses. Other texts are refused for their form. -/
theorem parse_spelled (text : String) :
    (∀ f, parse text = .ok f ↔ Spells (Text.dropBlanks text.toList) f) ∧
      (∀ f, Writes (Text.dropBlanks text.toList) f ↔ parse text = .ok f ∧
        (Text.dropBlanks text.toList).countP isParenthesis = 2 * f.clauses.length) ∧
      ∀ fault, parse text = .error fault → ∃ m, fault = .format m := by
  refine ⟨fun f => parse_eq_ok_iff_spells, fun f => ?_, fun fault => exists_format_of_parse⟩
  rw [parse_eq_ok_iff_spells, writes_iff_spells]

/-- The negation of a disjunction is read as a disjunction of which the first literal is negated. -/
theorem not_writes_negatedClause :
    ∃ f, parse "(!(a||b))" = .ok f ∧ f.clauses = [[.negative 'a', .positive 'b']] ∧
      ∀ f', ¬Writes (Text.dropBlanks "(!(a||b))".toList) f' := by
  refine ⟨_, rfl, rfl, fun f' hwrites => ?_⟩
  obtain ⟨hspells, hcount⟩ := writes_iff_spells.1 hwrites
  cases parse_eq_ok_iff_spells.2 hspells
  revert hcount
  decide +kernel

end Cnf

end ConstraintLogic
