import ConstraintLogic.Fault
import ConstraintLogic.Text.Blank
/-!
# Formulas in conjunctive normal form

A formula is a list of clauses over single letters. It keeps the blank-free text that it was read
from, since that text and not the clauses is what is shown.
-/

namespace ConstraintLogic

/-- A letter or its negation. -/
structure Literal where
  letter : Char
  negated : Bool
deriving DecidableEq, Repr

namespace Literal

def positive (letter : Char) : Literal := ⟨letter, false⟩

def negative (letter : Char) : Literal := ⟨letter, true⟩

/-- A negated letter follows an exclamation mark. -/
def chars (l : Literal) : List Char :=
  if l.negated then ['!', l.letter] else [l.letter]

def text (l : Literal) : String :=
  String.ofList l.chars

/-- The literal is true under an assignment of the letters. -/
def holds (assignment : Char → Bool) (l : Literal) : Bool :=
  assignment l.letter != l.negated

def ofChars? : List Char → Option Literal
  | [c] => if c.isAlpha then some (positive c) else none
  | ['!', c] => if c.isAlpha then some (negative c) else none
  | _ => none

theorem ofChars?_eq_some_iff {cs : List Char} {l : Literal} :
    ofChars? cs = some l ↔ l.letter.isAlpha ∧ cs = l.chars := by
  obtain ⟨letter, negated⟩ := l
  fun_cases ofChars? cs <;> cases negated <;> grind [positive, negative, chars]

end Literal

/-- A conjunction of clauses, each a disjunction of literals. -/
structure Cnf where
  /-- The text of the formula without blanks. -/
  source : String
  /-- The letters in the order in which they first appear. -/
  letters : List Char
  clauses : List (List Literal)
deriving DecidableEq, Repr

namespace Cnf

/-- Every clause has a literal that holds. -/
def evaluate (f : Cnf) (holds : Literal → Bool) : Bool :=
  f.clauses.all fun clause => clause.any holds

/-- The literals up to the first one that holds. -/
def askedIn (holds : Literal → Bool) : List Literal → List Literal
  | [] => []
  | l :: rest => if holds l then [l] else l :: askedIn holds rest

/-- The literals that decide `evaluate`, in the order in which they are looked at. -/
def asked (f : Cnf) (holds : Literal → Bool) : List Literal :=
  go f.clauses
where
  go : List (List Literal) → List Literal
    | [] => []
    | clause :: rest =>
      if clause.any holds then askedIn holds clause ++ go rest else askedIn holds clause

theorem evaluate_congr (f : Cnf) {p q : Literal → Bool}
    (h : ∀ clause ∈ f.clauses, ∀ l ∈ clause, p l = q l) : f.evaluate p = f.evaluate q := by
  unfold evaluate
  rw [Bool.eq_iff_iff, List.all_eq_true, List.all_eq_true]
  exact forall₂_congr fun clause hc => by
    rw [List.any_eq_true, List.any_eq_true]
    exact exists_congr fun l => and_congr_right fun hl => by rw [h clause hc l hl]

/-- The characters of a formula with the signs of logic in place of `!`, `&&` and `||`. -/
def respell : List Char → List Char
  | '!' :: rest => '¬' :: respell rest
  | '&' :: '&' :: rest => ' ' :: '∧' :: ' ' :: respell rest
  | '|' :: '|' :: rest => ' ' :: '∨' :: ' ' :: respell rest
  | c :: rest => c :: respell rest
  | [] => []

/-- The text of the formula in the signs of logic. -/
def pretty (f : Cnf) : String :=
  String.ofList (respell f.source.toList)

end Cnf

end ConstraintLogic
