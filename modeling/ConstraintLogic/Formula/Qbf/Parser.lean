import ConstraintLogic.Formula.Qbf
import ConstraintLogic.Formula.Cnf.Parser
/-!
# Reading quantified formulas

The bindings stand in front of a colon, with blanks between them and between their parts. The
matrix follows on the same line. Every letter is bound exactly once and occurs in the matrix.
-/

namespace ConstraintLogic.Qbf

/-- What follows a word, with the blanks after it passed over. At least one blank follows. -/
def afterWord? (word : List Char) (cs : List Char) : Option (List Char) :=
  if word.isPrefixOf cs then
    match cs.drop word.length with
    | c :: rest => if Text.isBlank c then some (rest.dropWhile Text.isBlank) else none
    | [] => none
  else none

def letter? : List Char → Option (Char × List Char)
  | c :: rest => if c.isAlpha then some (c, rest) else none
  | [] => none

def binding? (cs : List Char) : Option (Binding × List Char) :=
  match afterWord? Quantifier.universal.keyword.toList cs with
  | some rest => (letter? rest).map fun (c, rest) => (⟨.universal, c⟩, rest)
  | none =>
    match afterWord? Quantifier.existential.keyword.toList cs with
    | some rest => (letter? rest).map fun (c, rest) => (⟨.existential, c⟩, rest)
    | none => none

theorem length_of_afterWord? {word cs rest : List Char} (h : afterWord? word cs = some rest) :
    rest.length < cs.length := by
  unfold afterWord? at h
  split at h
  · split at h
    · next c tail hd =>
      split at h
      · cases h
        have h₁ := congrArg List.length hd
        have h₂ := (List.dropWhile_sublist (l := tail) Text.isBlank).length_le
        simp only [List.length_drop, List.length_cons] at h₁
        omega
      · simp at h
    · simp at h
  · simp at h

theorem length_of_letter? {cs rest : List Char} {c : Char} (h : letter? cs = some (c, rest)) :
    rest.length < cs.length := by
  unfold letter? at h
  grind

theorem length_of_binding? {cs rest : List Char} {b : Binding}
    (h : binding? cs = some (b, rest)) : rest.length < cs.length := by
  unfold binding? at h
  split at h
  · next after ha =>
    obtain ⟨⟨c, r⟩, hc, hr⟩ := Option.map_eq_some_iff.1 h
    cases hr
    exact Nat.lt_trans (length_of_letter? hc) (length_of_afterWord? ha)
  · split at h
    · next after ha =>
      obtain ⟨⟨c, r⟩, hc, hr⟩ := Option.map_eq_some_iff.1 h
      cases hr
      exact Nat.lt_trans (length_of_letter? hc) (length_of_afterWord? ha)
    · simp at h

/-- One or more bindings with blanks between them, blanks and a colon; and what follows it. -/
def header? (cs : List Char) : Option (List Binding × List Char) :=
  match _hb : binding? cs with
  | none => none
  | some (b, rest) =>
    match _hr : rest.dropWhile Text.isBlank with
    | ':' :: matrix => some ([b], matrix)
    | after =>
      if rest.head?.any Text.isBlank then
        (header? after).map fun (bs, matrix) => (b :: bs, matrix)
      else none
termination_by cs.length
decreasing_by
  have h₁ := length_of_binding? _hb
  have h₂ := (List.dropWhile_sublist (l := rest) Text.isBlank).length_le
  rw [_hr] at h₂
  omega

/-- The first letter that also stands further left. -/
def firstRepeated? : List Char → List Char → Option Char
  | _, [] => none
  | seen, c :: rest => if c ∈ seen then some c else firstRepeated? (c :: seen) rest

/-- The bindings and the matrix that a text is made of, before the letters are compared. -/
def parts? (text : List Char) : Option (List Binding × List Char) :=
  match header? (text.dropWhile Text.isBlank) with
  | some (bindings, matrix) => if '\n' ∈ matrix then none else some (bindings, matrix)
  | none => none

/-- Bindings and a matrix that bind and use the same letters, each bound once. -/
def check (bindings : List Binding) (matrix : Cnf) : Except Fault Qbf :=
  match bindings.find? fun b => b.letter ∉ matrix.letters with
  | some unused => .error (.format (.boundUnused unused.letter))
  | none =>
    if matrix.letters.length = bindings.length then .ok ⟨bindings, matrix⟩
    else .error (.format (.bindingCount bindings.length matrix.letters.length))

def parse (text : String) : Except Fault Qbf :=
  match parts? text.toList with
  | none => .error (.format (.notQuantified (String.ofList (Text.trim text.toList))))
  | some (bindings, matrix) =>
    match firstRepeated? [] (bindings.map Binding.letter) with
    | some c => .error (.format (.boundTwice c))
    | none => Cnf.parse (String.ofList matrix) >>= check bindings

end ConstraintLogic.Qbf
