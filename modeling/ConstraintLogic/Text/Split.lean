/-!
# Cutting a text at separators

A text is cut at every occurrence of a separator, which is one character or one character written
twice. Occurrences are taken from the left and do not overlap. Joining the pieces gives the text
back.
-/

namespace ConstraintLogic.Text

/-- Puts a character in front of the first piece. -/
def consFirst (c : Char) : List (List Char) → List (List Char)
  | [] => [[c]]
  | piece :: pieces => (c :: piece) :: pieces

/-- The pieces between the occurrences of `sep`. -/
def splitAt (sep : Char) : List Char → List (List Char)
  | [] => [[]]
  | c :: rest => if c = sep then [] :: splitAt sep rest else consFirst c (splitAt sep rest)

/-- The pieces between the occurrences of `sep` written twice. -/
def splitAtDouble (sep : Char) : List Char → List (List Char)
  | [] => [[]]
  | [c] => [[c]]
  | c :: d :: rest =>
    if c = sep ∧ d = sep then [] :: splitAtDouble sep rest
    else consFirst c (splitAtDouble sep (d :: rest))

theorem splitAt_ne_nil (sep : Char) (cs : List Char) : splitAt sep cs ≠ [] := by
  cases cs with
  | nil => simp [splitAt]
  | cons c rest =>
    rw [splitAt]
    split
    · simp
    · cases splitAt sep rest <;> simp [consFirst]

theorem splitAtDouble_ne_nil (sep : Char) (cs : List Char) : splitAtDouble sep cs ≠ [] := by
  fun_cases splitAtDouble sep cs with
  | case1 => simp
  | case2 => simp
  | case3 => simp
  | case4 c d rest => cases splitAtDouble sep (d :: rest) <;> simp [consFirst]

theorem intercalate_consFirst (sep : List Char) (c : Char) {pieces : List (List Char)}
    (h : pieces ≠ []) : sep.intercalate (consFirst c pieces) = c :: sep.intercalate pieces := by
  match pieces, h with
  | [_], _ => simp [consFirst, List.intercalate]
  | _ :: _ :: _, _ => simp [consFirst, List.intercalate]

theorem intercalate_nil_cons (sep : List Char) {pieces : List (List Char)} (h : pieces ≠ []) :
    sep.intercalate ([] :: pieces) = sep ++ sep.intercalate pieces := by
  match pieces, h with
  | _ :: _, _ => simp [List.intercalate]

theorem intercalate_splitAt (sep : Char) (cs : List Char) :
    [sep].intercalate (splitAt sep cs) = cs := by
  induction cs with
  | nil => rfl
  | cons c rest ih =>
    rw [splitAt]
    split
    · next h => rw [intercalate_nil_cons _ (splitAt_ne_nil _ _), ih, h]; rfl
    · rw [intercalate_consFirst _ _ (splitAt_ne_nil _ _), ih]

theorem intercalate_splitAtDouble (sep : Char) (cs : List Char) :
    [sep, sep].intercalate (splitAtDouble sep cs) = cs := by
  fun_induction splitAtDouble sep cs with
  | case1 => rfl
  | case2 => rfl
  | case3 c d rest h ih => rw [intercalate_nil_cons _ (splitAtDouble_ne_nil _ _), ih, h.1, h.2]; rfl
  | case4 c d rest h ih => rw [intercalate_consFirst _ _ (splitAtDouble_ne_nil _ _), ih]

end ConstraintLogic.Text
