import ConstraintLogic.Geometry
import ConstraintLogic.Formula.Cnf
/-!
# Gates

A gate is the rule that a vertex has to obey. Free vertices obey the plain rule; the ports of a
gadget obey the rule of their gadget, which their gate names.
-/

namespace ConstraintLogic

/-- How many edges of either weight meet at a port. -/
structure Arity where
  singles : Nat
  doubles : Nat
deriving DecidableEq, Repr

/-- The ports of a quantifier gadget. -/
inductive QuantifierPort where
  | tryIn
  | tryOut
  | satIn
  | satOut
  | out
  | inv
deriving DecidableEq, Repr

namespace QuantifierPort

def all : List QuantifierPort := [tryIn, tryOut, satIn, satOut, out, inv]

theorem mem_all (p : QuantifierPort) : p ∈ all := by
  cases p <;> decide

def name : QuantifierPort → String
  | tryIn => "tryin"
  | tryOut => "tryout"
  | satIn => "satin"
  | satOut => "satout"
  | out => "out"
  | inv => "inv"

theorem name_injective {p q : QuantifierPort} (h : p.name = q.name) : p = q := by
  revert h
  cases p <;> cases q <;> decide

def offset : QuantifierPort → Point
  | tryIn => ⟨0, 1⟩
  | tryOut => ⟨3, 1⟩
  | satIn => ⟨3, 2⟩
  | satOut => ⟨0, 2⟩
  | out => ⟨1, 0⟩
  | inv => ⟨2, 0⟩

/-- The ports that assign the letter take a single edge, the others a double one. -/
def arity : QuantifierPort → Arity
  | out | inv => ⟨1, 0⟩
  | tryIn | tryOut | satIn | satOut => ⟨0, 1⟩

end QuantifierPort

/-- The ports of an evaluator: one for each literal, and one for the result. -/
inductive EvaluatorPort where
  | literal (l : Literal)
  | satisfied
deriving DecidableEq, Repr

namespace EvaluatorPort

def name : EvaluatorPort → String
  | literal l => l.text
  | satisfied => "satisfied"

def arity : EvaluatorPort → Arity
  | literal _ => ⟨1, 0⟩
  | satisfied => ⟨0, 1⟩

end EvaluatorPort

inductive GateKind where
  | plain
  | converter
  | existential
  | universal
  | evaluator
deriving DecidableEq, Repr

/-- The rule of a vertex, with the gadget that it is a port of. -/
inductive Gate where
  | plain
  | converter (owner : Ident)
  | existential (owner : Ident) (port : QuantifierPort)
  | universal (owner : Ident) (port : QuantifierPort)
  | evaluator (owner : Ident) (port : EvaluatorPort)
deriving DecidableEq, Repr

namespace Gate

def kind : Gate → GateKind
  | plain => .plain
  | converter _ => .converter
  | existential .. => .existential
  | universal .. => .universal
  | evaluator .. => .evaluator

def owner? : Gate → Option Ident
  | plain => none
  | converter owner | existential owner _ | universal owner _ | evaluator owner _ => some owner

/-- The name of the port, for gadgets that have more than one. -/
def portName? : Gate → Option String
  | plain | converter _ => none
  | existential _ port | universal _ port => some port.name
  | evaluator _ port => some port.name

end Gate

end ConstraintLogic
