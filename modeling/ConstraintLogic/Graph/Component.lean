import ConstraintLogic.Graph.Vertex
import ConstraintLogic.Formula.Cnf.Parser
/-!
# Components

A component is a gadget with a name and a place. Its ports are vertices of the graph, whose names
are those of the gadget's ports inside the component's own.
-/

namespace ConstraintLogic

/-- What a gadget is made from. -/
inductive Blueprint where
  | converter
  | existential (letter : Char)
  | universal (letter : Char)
  | evaluator (formula : String)
deriving DecidableEq, Repr

/-- A gadget and its state. -/
inductive Gadget where
  /-- Turns a double edge into a single one. -/
  | converter
  | existential (letter : Char)
  /-- Remembers in its latch that the branch of the negated letter was won. -/
  | universal (letter : Char) (latch : Bool)
  | evaluator (formula : Cnf)
deriving DecidableEq, Repr

/-- A port of a gadget: its name, its place in the gadget and its rule. -/
structure PortPlan where
  name : String
  offset : Point
  gate : Gate

namespace Gadget

/-- The gadget in its first state. -/
def ofBlueprint : Blueprint → Except Fault Gadget
  | .converter => .ok converter
  | .existential letter => .ok (existential letter)
  | .universal letter => .ok (universal letter false)
  | .evaluator formula => evaluator <$> Cnf.parse formula

def gateKind : Gadget → GateKind
  | converter => .converter
  | existential _ => .existential
  | universal .. => .universal
  | evaluator _ => .evaluator

/-- The width that an evaluator takes for each of its letters. -/
def letterPitch : Float := 4

/-- The two ports of a letter, which is the one with this index. -/
def letterPorts (owner : Ident) (letter : Char) (index : Nat) : List PortPlan :=
  let x := index.toFloat * letterPitch
  let plan (l : Literal) (dx : Float) : PortPlan :=
    let port := EvaluatorPort.literal l
    ⟨port.name, ⟨x + dx, 2⟩, .evaluator owner port⟩
  [plan (.positive letter) 1, plan (.negative letter) 2]

def ports (owner : Ident) : Gadget → List PortPlan
  | converter => [⟨"port", .origin, .converter owner⟩]
  | existential _ => QuantifierPort.all.map fun p => ⟨p.name, p.offset, .existential owner p⟩
  | universal .. => QuantifierPort.all.map fun p => ⟨p.name, p.offset, .universal owner p⟩
  | evaluator f =>
    let result := EvaluatorPort.satisfied
    (f.letters.zipIdx.flatMap fun (letter, index) => letterPorts owner letter index) ++
      [⟨result.name, ⟨f.letters.length.toFloat * letterPitch + 2, 2⟩, .evaluator owner result⟩]

def size : Gadget → Point
  | converter => .origin
  | existential _ | universal .. => ⟨3, 3⟩
  | evaluator f => ⟨f.letters.length.toFloat * letterPitch + 3, 2⟩

def label : Gadget → String
  | converter => ""
  | existential letter => s!"∃{letter}"
  | universal letter _ => s!"∀{letter}"
  | evaluator f => f.pretty

def letter? : Gadget → Option Char
  | existential letter | universal letter _ => some letter
  | converter | evaluator _ => none

def formula? : Gadget → Option Cnf
  | evaluator f => some f
  | converter | existential _ | universal .. => none

def latch? : Gadget → Option Bool
  | universal _ latch => some latch
  | converter | existential _ | evaluator _ => none

/-- Only universal gadgets have a latch to set. -/
def withLatch (value : Bool) : Gadget → Gadget
  | universal letter _ => universal letter value
  | converter => converter
  | existential letter => existential letter
  | evaluator f => evaluator f

@[simp] theorem latch?_withLatch (value : Bool) (k : Gadget) :
    (k.withLatch value).latch? = k.latch?.map fun _ => value := by
  cases k <;> rfl

theorem withLatch_of_latch? {value : Bool} {k : Gadget} (h : ∀ b ∈ k.latch?, b = value) :
    k.withLatch value = k := by
  cases k <;> simp_all [latch?, withLatch]

def isQuantifier (k : Gadget) : Bool :=
  k.letter?.isSome

end Gadget

structure Component where
  id : Ident
  position : Point
  gadget : Gadget
  /-- The vertices of the ports, by the names of the ports. -/
  ports : Std.ExtTreeMap String Ident
  size : Point
  label : String
  muted : Bool

namespace Component

/-- The component that a gadget makes, with its ports at their usual names. -/
def ofGadget (id : Ident) (position : Point) (gadget : Gadget) : Component where
  id := id
  position := position
  gadget := gadget
  ports := .ofList ((gadget.ports id).map fun p => (p.name, id.child p.name))
  size := gadget.size
  label := gadget.label
  muted := false

def latch? (c : Component) : Option Bool :=
  c.gadget.latch?

def withLatch (c : Component) (value : Bool) : Component :=
  { c with gadget := c.gadget.withLatch value }

end Component

end ConstraintLogic
