import ConstraintLogic.Formula.Cnf
/-!
# Quantified formulas

A quantified formula binds the letters of a matrix, outermost binding first. `Qbf.IsTrue` is its
truth: a universal binding asks for both values of its letter, an existential one for some value.
-/

namespace ConstraintLogic

inductive Quantifier where
  | existential
  | universal
deriving DecidableEq, Repr

namespace Quantifier

def keyword : Quantifier → String
  | existential => "exists"
  | universal => "forall"

end Quantifier

structure Binding where
  quantifier : Quantifier
  letter : Char
deriving DecidableEq, Repr

/-- Bindings, outermost first, in front of a formula. -/
structure Qbf where
  bindings : List Binding
  matrix : Cnf
deriving DecidableEq, Repr

/-- The assignment with one letter set anew. -/
def assign (assignment : Char → Bool) (letter : Char) (value : Bool) : Char → Bool :=
  fun c => if c = letter then value else assignment c

/-- The matrix, with some bindings in front, is true where the other letters have these values. -/
def Cnf.HoldsUnder (matrix : Cnf) : List Binding → (Char → Bool) → Prop
  | [], assignment => matrix.evaluate (Literal.holds assignment) = true
  | ⟨.existential, letter⟩ :: rest, assignment =>
    ∃ value, matrix.HoldsUnder rest (assign assignment letter value)
  | ⟨.universal, letter⟩ :: rest, assignment =>
    ∀ value, matrix.HoldsUnder rest (assign assignment letter value)

namespace Qbf

def IsTrue (q : Qbf) : Prop :=
  q.matrix.HoldsUnder q.bindings fun _ => false

def bindingText (b : Binding) : String :=
  b.quantifier.keyword ++ " " ++ b.letter.toString ++ " "

def text (q : Qbf) : String :=
  String.join (q.bindings.map bindingText) ++ ": " ++ q.matrix.source

end Qbf

end ConstraintLogic
