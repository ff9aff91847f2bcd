import Mathlib.Tactic.SplitIfs
import Mathlib.Tactic.Tauto
import ConstraintLogic.Ident.Parser
/-!
# Identifiers and their dotted form

The dotted form of an identifier gives it back where no segment has a dot of its own, apart from
one empty segment, which looks like the root. A text that may come from outside has something
between its dots and at both ends, and is the dotted form of what it is read as. To read one
identifier inside another is to put a dot between the two texts.
-/

namespace ConstraintLogic

/-! ## Cutting at separators -/

namespace Text

variable {sep : Char} {cs : List Char}

theorem splitAt_eq_splitOn (sep : Char) (cs : List Char) : splitAt sep cs = cs.splitOn sep := by
  have hconsFirst (c : Char) {pieces : List (List Char)} (h : pieces ≠ []) :
      consFirst c pieces = pieces.modifyHead (List.cons c) := by
    cases pieces with
    | nil => exact absurd rfl h
    | cons piece rest => rfl
  induction cs with
  | nil => rfl
  | cons c rest ih =>
    rw [splitAt, hconsFirst c (splitAt_ne_nil sep rest), ih, List.splitOn_cons_eq_if_modifyHead]
    simp only [beq_iff_eq]

theorem not_mem_of_mem_splitAt {piece : List Char} (h : piece ∈ splitAt sep cs) : sep ∉ piece := by
  induction cs generalizing piece with
  | nil =>
    rw [splitAt, List.mem_singleton] at h
    rw [h]
    exact List.not_mem_nil
  | cons c rest ih =>
    rw [splitAt] at h
    split at h
    · rcases List.mem_cons.1 h with rfl | h
      · exact List.not_mem_nil
      · exact ih h
    · next hc =>
      cases hpieces : splitAt sep rest with
      | nil => exact absurd hpieces (splitAt_ne_nil sep rest)
      | cons first pieces =>
        rw [hpieces, consFirst, List.mem_cons] at h
        rw [hpieces] at ih
        rcases h with rfl | h
        · rw [List.mem_cons, not_or]
          exact ⟨Ne.symm hc, ih List.mem_cons_self⟩
        · exact ih (List.mem_cons_of_mem _ h)

/-- There is nothing between two separators, between one and an end, or at all. -/
def HasEmptyPiece (sep : Char) (cs : List Char) : Prop :=
  cs = [] ∨ [sep] <+: cs ∨ [sep] <:+ cs ∨ [sep, sep] <:+: cs

private theorem suffix_cons_iff_of_ne {c : Char} (h : c ≠ sep) :
    [sep] <:+ c :: cs ↔ [sep] <:+ cs := by
  rw [List.suffix_cons_iff]
  refine or_iff_right fun heq => h ?_
  exact (List.cons.inj heq).1.symm

private theorem infix_cons_iff_of_ne {c : Char} (h : c ≠ sep) :
    [sep, sep] <:+: c :: cs ↔ [sep, sep] <:+: cs := by
  rw [List.infix_cons_iff]
  refine or_iff_right fun hprefix => h ?_
  exact (List.cons_prefix_cons.1 hprefix).1.symm

/-- The pieces after the first separator and all pieces, in one induction. -/
private theorem nil_mem_splitAt (sep : Char) (cs : List Char) :
    ([] ∈ (splitAt sep cs).tail ↔ [sep] <:+ cs ∨ [sep, sep] <:+: cs) ∧
      ([] ∈ splitAt sep cs ↔ HasEmptyPiece sep cs) := by
  induction cs with
  | nil => simp [splitAt, HasEmptyPiece]
  | cons c rest ih =>
    obtain ⟨ihtail, ihall⟩ := ih
    rw [splitAt]
    by_cases hc : c = sep
    · subst hc
      rw [if_pos rfl, List.tail_cons, ihall]
      constructor
      · rw [HasEmptyPiece, List.suffix_cons_iff, List.infix_cons_iff, List.cons_prefix_cons]
        simp only [List.cons.injEq, true_and, eq_comm (a := []) (b := rest)]
        tauto
      · simp [HasEmptyPiece]
    · have htail : (consFirst c (splitAt sep rest)).tail = (splitAt sep rest).tail := by
        cases splitAt sep rest <;> rfl
      have hall : [] ∈ consFirst c (splitAt sep rest) ↔ [] ∈ (splitAt sep rest).tail := by
        cases hpieces : splitAt sep rest with
        | nil => exact absurd hpieces (splitAt_ne_nil sep rest)
        | cons first pieces => simp [consFirst]
      rw [if_neg hc, htail, hall, ihtail, HasEmptyPiece, suffix_cons_iff_of_ne hc,
        infix_cons_iff_of_ne hc]
      simp [List.cons_prefix_cons, Ne.symm hc]

theorem nil_mem_splitAt_iff : [] ∈ splitAt sep cs ↔ HasEmptyPiece sep cs :=
  (nil_mem_splitAt sep cs).2

end Text

/-! ## Identifiers -/

namespace Ident

variable {id : Ident} {text : String}

/-- No segment has a dot of its own. -/
def Dotless (id : Ident) : Prop :=
  ∀ segment ∈ id.segments, '.' ∉ segment.toList

theorem toList_dotted (id : Ident) :
    id.dotted.toList = ['.'].intercalate (id.segments.map String.toList) := by
  rw [dotted, String.toList_intercalate]
  rfl

theorem dotless_ofDotted (text : String) : (ofDotted text).Dotless := by
  unfold ofDotted
  split
  · exact fun segment h => absurd h List.not_mem_nil
  · intro segment h
    obtain ⟨piece, hpiece, rfl⟩ := List.mem_map.1 h
    rw [String.toList_ofList]
    exact Text.not_mem_of_mem_splitAt hpiece

theorem splitAt_dotted (h : id.Dotless) (hroot : id ≠ root) :
    Text.splitAt '.' id.dotted.toList = id.segments.map String.toList := by
  have hne : id.segments.map String.toList ≠ [] := by
    rw [Ne, List.map_eq_nil_iff]
    exact fun hnil => hroot (congrArg mk hnil)
  rw [Text.splitAt_eq_splitOn, toList_dotted]
  refine List.splitOn_intercalate '.' (fun piece hpiece => ?_) hne
  obtain ⟨segment, hsegment, rfl⟩ := List.mem_map.1 hpiece
  exact h segment hsegment

/-- One empty segment is the only identifier without dots in its segments that is not given back. -/
theorem ofDotted_dotted_iff : ofDotted id.dotted = id ↔ id.Dotless ∧ id ≠ ⟨[""]⟩ := by
  constructor
  · intro h
    refine ⟨h ▸ dotless_ofDotted _, ?_⟩
    rintro rfl
    exact absurd h (by decide)
  · rintro ⟨hdotless, hne⟩
    by_cases hroot : id = root
    · rw [hroot]
      rfl
    · have hpieces := splitAt_dotted hdotless hroot
      have htext : id.dotted ≠ "" := by
        intro htext
        rw [htext] at hpieces
        have hsegments : id.segments.map String.toList = [""].map String.toList := hpieces.symm
        exact hne (congrArg mk (List.map_inj_right (fun _ _ => String.toList_injective) |>.1
          hsegments))
      rw [ofDotted, if_neg htext, hpieces, List.map_map]
      have hread : String.ofList ∘ String.toList = fun segment => segment :=
        funext fun _ => String.ofList_toList
      rw [hread, List.map_id']

example : ofDotted (⟨["a.b"]⟩ : Ident).dotted = ⟨["a", "b"]⟩ := by decide

theorem dotted_eq_empty_iff (h : ofDotted id.dotted = id) : id.dotted = "" ↔ id = root := by
  constructor
  · intro htext
    rw [← h, htext]
    rfl
  · rintro rfl
    rfl

theorem empty_mem_segments_ofDotted (h : text ≠ "") :
    "" ∈ (ofDotted text).segments ↔ Text.HasEmptyPiece '.' text.toList := by
  rw [ofDotted, if_neg h, ← Text.nil_mem_splitAt_iff, List.mem_map]
  simp

theorem parse_dotted_iff : parse id.dotted = .ok id ↔
    (id.Dotless ∧ id ≠ ⟨[""]⟩) ∧ id ≠ root ∧ "" ∉ id.segments := by
  rw [parse_eq_ok_iff, ← ofDotted_dotted_iff]
  constructor
  · rintro ⟨htext, hsegments, hread⟩
    rw [hread] at hsegments
    exact ⟨hread, fun hroot => htext ((dotted_eq_empty_iff hread).2 hroot), hsegments⟩
  · rintro ⟨hread, hroot, hsegments⟩
    rw [hread]
    exact ⟨fun htext => hroot ((dotted_eq_empty_iff hread).1 htext), hsegments, rfl⟩

/-- A text that is not refused has no empty piece, and is read as it is inside the program. -/
theorem parse_eq_ok_iff_pieces : parse text = .ok id ↔
    ¬Text.HasEmptyPiece '.' text.toList ∧ ofDotted text = id := by
  rw [parse_eq_ok_iff]
  by_cases htext : text = ""
  · subst htext
    simp [Text.HasEmptyPiece]
  · rw [empty_mem_segments_ofDotted htext]
    simp [htext]

theorem exists_parse_eq_ok_iff :
    (∃ id, parse text = .ok id) ↔ ¬Text.HasEmptyPiece '.' text.toList := by
  simp only [parse_eq_ok_iff_pieces, exists_and_left, exists_eq', and_true]

theorem exists_parse_eq_error_iff :
    (∃ fault, parse text = .error fault) ↔ Text.HasEmptyPiece '.' text.toList := by
  rw [← not_iff_not, ← exists_parse_eq_ok_iff]
  cases parse text <;> simp

theorem dotted_join (scope id : Ident) : (scope.join id).dotted =
    if scope = root then id.dotted
    else if id = root then scope.dotted
    else scope.dotted ++ "." ++ id.dotted := by
  split_ifs with hscope hid
  · rw [hscope, root_join]
  · rw [hid, join_root]
  · have hne {x : Ident} (h : x ≠ root) : x.segments ≠ [] := fun hnil => h (congrArg mk hnil)
    exact String.intercalate_append_of_ne_nil (hne hscope) (hne hid)

theorem dotted_child (scope : Ident) (segment : String) : (scope.child segment).dotted =
    if scope = root then segment else scope.dotted ++ "." ++ segment := by
  have hsegment : (⟨[segment]⟩ : Ident).dotted = segment := String.intercalate_singleton
  have hjoin : scope.child segment = scope.join ⟨[segment]⟩ := rfl
  have hne : (⟨[segment]⟩ : Ident) ≠ root := by simp [root]
  rw [hjoin, dotted_join, hsegment, if_neg hne]

/-- When identifiers and dotted texts give each other back, and what reading inside a scope is in
dotted form. -/
theorem dotted_agrees :
    (∀ id : Ident, ofDotted id.dotted = id ↔ id.Dotless ∧ id ≠ ⟨[""]⟩) ∧
      (∀ id : Ident, parse id.dotted = .ok id ↔
        (id.Dotless ∧ id ≠ ⟨[""]⟩) ∧ id ≠ root ∧ "" ∉ id.segments) ∧
      (∀ text : String, (∃ id, parse text = .ok id) ↔ ¬Text.HasEmptyPiece '.' text.toList) ∧
      (∀ (text : String) (id : Ident), parse text = .ok id → ofDotted text = id ∧
        id.dotted = text) ∧
      (∀ scope id : Ident, (scope.join id).dotted =
        if scope = root then id.dotted
        else if id = root then scope.dotted
        else scope.dotted ++ "." ++ id.dotted) ∧
      (∀ (scope : Ident) (segment : String), (scope.child segment).dotted =
        if scope = root then segment else scope.dotted ++ "." ++ segment) ∧
      ∀ id : Ident, root.join id = id ∧ id.join root = id := by
  refine ⟨fun _ => ofDotted_dotted_iff, fun _ => parse_dotted_iff,
    fun _ => exists_parse_eq_ok_iff, fun text id h => ?_, dotted_join, dotted_child,
    fun id => ⟨root_join id, join_root id⟩⟩
  have hread := ofDotted_of_parse h
  exact ⟨hread, hread ▸ dotted_ofDotted text⟩

end Ident

end ConstraintLogic
