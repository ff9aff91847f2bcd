import ConstraintLogic.Formula.Qbf.Parser
import Mathlib.Data.List.Perm.Subperm
/-!
# What reading guarantees

A formula that has been read binds at least one letter, each once, and its matrix is about exactly
the bound letters and can be read again from its own text.
-/

namespace ConstraintLogic

namespace Cnf

theorem letters_of_parse {text : String} {f : Cnf} (h : parse text = .ok f) :
    f.letters = (f.clauses.flatten.map Literal.letter).eraseDups := by
  simp only [parse] at h
  cases hc : (Text.splitAtDouble '&' (Text.dropBlanks text.toList)).mapM parseClause with
  | error e => rw [hc] at h; cases h
  | ok clauses => rw [hc] at h; cases h; rfl

theorem letter_mem_of_parse {text : String} {f : Cnf} (h : parse text = .ok f)
    {clause : List Literal} (hc : clause ∈ f.clauses) {l : Literal} (hl : l ∈ clause) :
    l.letter ∈ f.letters := by
  rw [letters_of_parse h, List.mem_eraseDups, List.mem_map]
  exact ⟨l, List.mem_flatten.2 ⟨clause, hc, hl⟩, rfl⟩

end Cnf

namespace Qbf

theorem firstRepeated?_eq_none_iff {seen cs : List Char} :
    firstRepeated? seen cs = none ↔ cs.Nodup ∧ ∀ c ∈ cs, c ∉ seen := by
  induction cs generalizing seen with
  | nil => simp [firstRepeated?]
  | cons c rest ih =>
    rw [firstRepeated?]
    split
    · next h => simp [h]
    · next h =>
      rw [ih]
      simp only [List.nodup_cons, List.mem_cons]
      grind

theorem ne_nil_of_header? {cs matrix : List Char} {bindings : List Binding}
    (h : header? cs = some (bindings, matrix)) : bindings ≠ [] := by
  rw [header?] at h
  split at h
  · simp at h
  · split at h
    · cases h
      simp
    · split at h
      · obtain ⟨⟨bs, rest⟩, -, heq⟩ := Option.map_eq_some_iff.1 h
        cases heq
        simp
      · simp at h

theorem header?_last {cs rest matrix : List Char} {b : Binding}
    (hb : binding? cs = some (b, rest)) (hr : rest.dropWhile Text.isBlank = ':' :: matrix) :
    header? cs = some ([b], matrix) := by
  rw [header?]
  split
  · next hnone => rw [hb] at hnone; cases hnone
  · next hsome =>
    rw [hb] at hsome
    cases hsome
    split
    · next hcolon =>
      rw [hr] at hcolon
      cases hcolon
      rfl
    · next hnot => exact absurd hr (hnot _)

theorem header?_cons {cs rest matrix : List Char} {b : Binding} {bs : List Binding}
    (hb : binding? cs = some (b, rest)) (hr : (rest.dropWhile Text.isBlank).head? ≠ some ':')
    (hblank : rest.head?.any Text.isBlank = true)
    (hrest : header? (rest.dropWhile Text.isBlank) = some (bs, matrix)) :
    header? cs = some (b :: bs, matrix) := by
  rw [header?]
  split
  · next hnone => rw [hb] at hnone; cases hnone
  · next hsome =>
    rw [hb] at hsome
    cases hsome
    split
    · next hcolon => simp [hcolon] at hr
    · rw [if_pos hblank, hrest]
      rfl

theorem ne_nil_of_parts? {text matrix : List Char} {bindings : List Binding}
    (h : parts? text = some (bindings, matrix)) : bindings ≠ [] := by
  unfold parts? at h
  split at h
  · next hheader =>
    split at h
    · simp at h
    · cases h
      exact ne_nil_of_header? hheader
  · simp at h

/-- The formula can have been read. -/
structure IsProper (q : Qbf) : Prop where
  bindings_ne_nil : q.bindings ≠ []
  nodup : (q.bindings.map Binding.letter).Nodup
  letters_perm : (q.bindings.map Binding.letter).Perm q.matrix.letters
  letter_mem : ∀ clause ∈ q.matrix.clauses, ∀ l ∈ clause, l.letter ∈ q.bindings.map Binding.letter
  parse_source : Cnf.parse q.matrix.source = .ok q.matrix

theorem check_eq_ok_iff {bindings : List Binding} {matrix : Cnf} {q : Qbf} :
    check bindings matrix = .ok q ↔
      (∀ b ∈ bindings, b.letter ∈ matrix.letters) ∧
      matrix.letters.length = bindings.length ∧ q = ⟨bindings, matrix⟩ := by
  unfold check
  split
  · next unused hfind =>
    have hmem := List.mem_of_find?_eq_some hfind
    have hnot := List.find?_some hfind
    simp only [decide_eq_true_eq] at hnot
    simp only [reduceCtorEq, false_iff]
    intro h
    exact hnot (h.1 _ hmem)
  · next hfind =>
    simp only [List.find?_eq_none, decide_eq_true_eq, Decidable.not_not] at hfind
    split
    · next hlength =>
      simp only [Except.ok.injEq]
      constructor
      · rintro rfl
        exact ⟨hfind, hlength, rfl⟩
      · rintro ⟨-, -, rfl⟩
        rfl
    · next hlength => simp [hlength]

/-- Bindings of different letters that are as many as the letters of the matrix, and are among them,
bind all of them. -/
theorem perm_letters {bindings : List Binding} {f : Cnf}
    (hnodup : (bindings.map Binding.letter).Nodup) (hused : ∀ b ∈ bindings, b.letter ∈ f.letters)
    (hlength : f.letters.length = bindings.length) :
    (bindings.map Binding.letter).Perm f.letters :=
  (List.subperm_of_subset hnodup (List.forall_mem_map.2 hused)).perm_of_length_le
    (by simp [hlength])

theorem isProper_of_parse {text : String} {q : Qbf} (h : parse text = .ok q) : q.IsProper := by
  unfold parse at h
  split at h
  · cases h
  · next bindings matrix hparts =>
    split at h
    · cases h
    · next hrepeat =>
      cases hm : Cnf.parse (String.ofList matrix) with
      | error fault => rw [hm] at h; cases h
      | ok f =>
        rw [hm] at h
        obtain ⟨hused, hlength, rfl⟩ := check_eq_ok_iff.1 h
        have hnodup := (firstRepeated?_eq_none_iff.1 hrepeat).1
        have hperm := perm_letters hnodup hused hlength
        exact {
          bindings_ne_nil := ne_nil_of_parts? hparts
          nodup := hnodup
          letters_perm := hperm
          letter_mem := fun clause hc l hl => hperm.mem_iff.2 (Cnf.letter_mem_of_parse hm hc hl)
          parse_source := Cnf.parse_source hm }

/-- Once the bindings are read, only the letters are left to compare. -/
theorem parse_of_header? {text : String} {matrix : List Char} {bindings : List Binding} {f : Cnf}
    (hheader : header? (text.toList.dropWhile Text.isBlank) = some (bindings, matrix))
    (hline : '\n' ∉ matrix) (hn : (bindings.map Binding.letter).Nodup)
    (hm : Cnf.parse (String.ofList matrix) = .ok f) : parse text = check bindings f := by
  have hrepeat : firstRepeated? [] (bindings.map Binding.letter) = none :=
    firstRepeated?_eq_none_iff.2 ⟨hn, by simp⟩
  have hparts : parts? text.toList = some (bindings, matrix) := by
    rw [parts?, hheader]
    exact if_neg hline
  simp only [parse, hparts, hrepeat, hm]
  rfl

end Qbf

end ConstraintLogic
