import ConstraintLogic.Edit
import ConstraintLogic.Formula.Qbf
/-!
# The circuit of a quantified formula

Each binding becomes a quantifier gadget, from left to right, and the matrix becomes an evaluator
below them. The call to try runs from the source on the left through all quantifiers; what comes
out at the right end and the result of the evaluator meet in a junction, and its success runs back
through all quantifiers into the sink on the left. Every edge starts out pointing against its
signal. The plan lists the parts in the order in which they are placed.
-/

namespace ConstraintLogic

/-- Something to be placed in a graph. -/
inductive Part where
  | vertex (id : Ident) (position : Point)
  | edge (id source target : Ident) (weight : Weight)
  | component (id : Ident) (position : Point) (blueprint : Blueprint)
  | label (id : Ident) (position : Point) (text : String)

namespace Part

def place (scope : Ident) (offset : Point) : Part → Edit Unit
  | vertex id position => discard (Edit.addVertex (scope.join id) (offset + position) true)
  | edge id source target weight =>
    discard (Edit.addEdge (scope.join id) (scope.join source) (scope.join target) weight)
  | component id position blueprint =>
    discard (Edit.addComponent (scope.join id) (offset + position) blueprint)
  | label id position text =>
    discard (Edit.addLabel (scope.join id) (offset + position) text .center .center)

end Part

/-- The names of the parts of a circuit that matter to its users. -/
structure Circuit where
  /-- The quantifier gadgets, outermost first. -/
  quantifiers : List Ident
  formula : Ident
  /-- The edge into the sink, which moves when the formula is won. -/
  sinkEdge : Ident
  /-- The vertex where the last try and the result meet. -/
  junction : Ident
deriving DecidableEq, Repr

namespace Circuit

/-! ## Names -/

def quantifierId (letter : Char) : Ident := ⟨["quantifier", letter.toString]⟩

def formulaId : Ident := ⟨["formula"]⟩

/-- The edge that asks the next quantifier to try. -/
def tryId (index : Nat) : Ident := ⟨["try", toString index]⟩

/-- The edge that tells the quantifier before of a success. -/
def satId (index : Nat) : Ident := ⟨["sat", toString index]⟩

/-- The edge that carries the value of a literal to the evaluator. -/
def literalId (l : Literal) : Ident := ⟨["lit", l.text]⟩

def sourceId : Ident := ⟨["source"]⟩

def sinkEdgeId : Ident := ⟨["sink", "sat"]⟩

def junctionId : Ident := ⟨["junction"]⟩

def quantifierPort (letter : Char) (port : QuantifierPort) : Ident :=
  (quantifierId letter).child port.name

def evaluatorPort (port : EvaluatorPort) : Ident :=
  formulaId.child port.name

/-! ## Parts -/

/-- The distance from one quantifier to the next. -/
def pitch : Float := 4

/-- How far the evaluator lies below the quantifiers. -/
def drop : Float := 4

def gadget (b : Binding) : Blueprint :=
  match b.quantifier with
  | .existential => .existential b.letter
  | .universal => .universal b.letter

def quantifierParts (bindings : List Binding) : List Part :=
  bindings.zipIdx.map fun (b, index) =>
    .component (quantifierId b.letter) ⟨pitch * index.toFloat, 0⟩ (gadget b)

def linkParts (left right : Char) (index : Nat) : List Part :=
  [.edge (tryId index) (quantifierPort right .tryIn) (quantifierPort left .tryOut) .double,
   .edge (satId index) (quantifierPort left .satIn) (quantifierPort right .satOut) .double]

def chainParts (letters : List Char) : List Part :=
  (letters.zip letters.tail).zipIdx.flatMap fun ((left, right), index) => linkParts left right index

/-- The edge between a port of the evaluator and the port of a quantifier that drives it. -/
def literalPart (l : Literal) (driver : QuantifierPort) : Part :=
  .edge (literalId l) (evaluatorPort (.literal l)) (quantifierPort l.letter driver) .single

def literalParts (letter : Char) : List Part :=
  [literalPart (.positive letter) .out, literalPart (.negative letter) .inv]

/-- The source with its own inflow, and the sink, which is a cycle. -/
def leftParts (first : Char) : List Part :=
  let a : Ident := ⟨["sink", "a"]⟩
  let b : Ident := ⟨["sink", "b"]⟩
  let c : Ident := ⟨["sink", "c"]⟩
  [.vertex sourceId ⟨-1.5, 0.5⟩,
   .edge ⟨["source", "loop"]⟩ sourceId sourceId .double,
   .edge ⟨["source", "try"]⟩ (quantifierPort first .tryIn) sourceId .double,
   .vertex a ⟨-1.5, 2.5⟩,
   .vertex b ⟨-2.5, 3⟩,
   .vertex c ⟨-2.5, 2⟩,
   .edge ⟨["sink", "ab"]⟩ a b .double,
   .edge ⟨["sink", "bc"]⟩ b c .double,
   .edge ⟨["sink", "ca"]⟩ c a .double,
   .edge sinkEdgeId a (quantifierPort first .satOut) .double,
   .label ⟨["label", "try"]⟩ ⟨-1.5, 0⟩ "try",
   .label ⟨["label", "sat"]⟩ ⟨-2, 3.5⟩ "sat"]

/-- The probes of the last try and of the result, and the junction where they meet. -/
def rightParts (last : Char) (index : Nat) : List Part :=
  let x := pitch * index.toFloat + 5
  let tried : Ident := ⟨["probe", "tryout"]⟩
  let result : Ident := ⟨["probe", "result"]⟩
  [.vertex junctionId ⟨x + 1, 2⟩,
   .component tried ⟨x, 1⟩ .converter,
   .edge (tried.child "in") (tried.child "port") (quantifierPort last .tryOut) .double,
   .edge (tried.child "out") junctionId (tried.child "port") .single,
   .component result ⟨x, 3⟩ .converter,
   .edge (result.child "in") (result.child "port") (evaluatorPort .satisfied) .double,
   .edge (result.child "out") junctionId (result.child "port") .single,
   .edge ⟨["junction", "sat"]⟩ (quantifierPort last .satIn) junctionId .double,
   .label ⟨["label", "tryout"]⟩ ⟨x, 0.5⟩ "try out",
   .label ⟨["label", "result"]⟩ ⟨x, 3.5⟩ "result"]

def plan (q : Qbf) : List Part :=
  let letters := q.bindings.map Binding.letter
  quantifierParts q.bindings ++ chainParts letters ++
    [.component formulaId ⟨0, drop⟩ (.evaluator q.matrix.source)] ++
    letters.flatMap literalParts ++
    letters.head?.toList.flatMap leftParts ++
    letters.getLast?.toList.flatMap fun last => rightParts last (letters.length - 1)

/-- The names in a circuit that stands inside a scope. -/
def within (scope : Ident) (q : Qbf) : Circuit where
  quantifiers := q.bindings.map fun b => scope.join (quantifierId b.letter)
  formula := scope.join formulaId
  sinkEdge := scope.join sinkEdgeId
  junction := scope.join junctionId

end Circuit

end ConstraintLogic
