import ConstraintLogic.Graph.Rule
/-!
# Latches

A universal gadget asks for its latch to be set when the negated branch is won, and for it to be
cleared when the gadget is no longer asked to try.
-/

namespace ConstraintLogic

/-- What a gadget asks for its latch. -/
inductive LatchRequest where
  | set
  | clear
deriving DecidableEq, Repr

namespace LatchRequest

/-- The request that stands for two; clearing wins. -/
def merge : LatchRequest → LatchRequest → LatchRequest
  | set, set => set
  | clear, _ | _, clear => clear

/-- The value that the latch is to have. -/
def target : LatchRequest → Bool
  | set => true
  | clear => false

theorem merge_comm (a b : LatchRequest) : a.merge b = b.merge a := by
  cases a <;> cases b <;> rfl

@[simp] theorem merge_self (a : LatchRequest) : a.merge a = a := by
  cases a <;> rfl

end LatchRequest

namespace Graph

/-- The vertex from which the component's `satin` receives exists and is satisfied. -/
def isSatSourceSatisfied (g : Graph) (c : Component) : Bool :=
  match g.port? c QuantifierPort.satIn.name with
  | none => false
  | some v =>
    match (g.incoming v).find? fun e => !e.circular with
    | none => false
    | some e => g.vertices[e.source]?.any g.isSatisfied

/-- What the component asks for its latch where it stands. Only universal gadgets have one. -/
def latchRequest? (g : Graph) (c : Component) : Option LatchRequest :=
  match c.gadget with
  | .universal .. =>
    let s := g.signals c
    if !s.tryIn then some .clear
    else if s.satIn && s.inv && g.isSatSourceSatisfied c then some .set
    else none
  | .converter | .existential _ | .evaluator _ => none

end Graph

end ConstraintLogic
