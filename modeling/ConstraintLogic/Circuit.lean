import ConstraintLogic.Circuit.Plan
import ConstraintLogic.Formula.Qbf.Parser
/-!
# Compiling quantified formulas

The edge into the sink of the circuit of a formula can be made to move if the formula is true.
-/

namespace ConstraintLogic.Circuit

def build (scope : Ident) (offset : Point) (q : Qbf) : Edit Unit :=
  (plan q).forM (Part.place scope offset)

/--
Adds the circuit of the formula that a text writes to a graph, inside a scope and moved by an
offset. The parts are placed in a copy, which takes the place of the graph when all are there.
-/
def compileInto (scope : Ident) (offset : Point) (text : String) : Edit Circuit := do
  let q ← ofExcept (Qbf.parse text)
  let g ← get
  match (build scope offset q).run g with
  | .ok _ built =>
    set built
    return within scope q
  | .error fault _ => throw fault

/-- The circuit of the formula that a text writes, on its own. -/
def compile (text : String) : Except Fault Graph :=
  match (compileInto .root .origin text).run ∅ with
  | .ok _ g => .ok g
  | .error fault _ => .error fault

end ConstraintLogic.Circuit
