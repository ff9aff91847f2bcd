import ConstraintLogic.Fault
/-!
# Edges

An edge joins two vertices, carries one of two weights and points from its source to its target.
An edge whose ends are the same vertex always counts as pointing into it.
-/

namespace ConstraintLogic

/-- What an edge carries. -/
inductive Weight where
  | single
  | double
deriving DecidableEq, Repr

namespace Weight

def value : Weight → Nat
  | single => 1
  | double => 2

def ofValue : Nat → Except Fault Weight
  | 1 => .ok single
  | 2 => .ok double
  | n => .error (.format (.weight n))

theorem ofValue_eq_ok_iff {n : Nat} {w : Weight} : ofValue n = .ok w ↔ n = w.value := by
  cases w <;> unfold ofValue <;> split <;> simp_all [value]

end Weight

/-- How an edge points, seen from one of its ends. -/
inductive Direction where
  | incoming
  | outgoing
deriving DecidableEq, Repr

structure Edge where
  id : Ident
  source : Ident
  target : Ident
  weight : Weight
  muted : Bool
  labelVisible : Bool
deriving DecidableEq, Repr

namespace Edge

def circular (e : Edge) : Bool :=
  e.source == e.target

def reverse (e : Edge) : Edge :=
  { e with source := e.target, target := e.source }

@[simp] theorem reverse_reverse (e : Edge) : e.reverse.reverse = e := rfl

/-- How the edge points, seen from a vertex; none for a vertex that is not one of its ends. -/
def direction? (e : Edge) (vertex : Ident) : Option Direction :=
  if vertex = e.target then some .incoming
  else if vertex = e.source then some .outgoing
  else none

theorem direction?_eq_incoming_iff {e : Edge} {vertex : Ident} :
    e.direction? vertex = some .incoming ↔ vertex = e.target := by
  unfold direction?
  grind

theorem direction?_eq_outgoing_iff {e : Edge} {vertex : Ident} :
    e.direction? vertex = some .outgoing ↔ vertex = e.source ∧ e.source ≠ e.target := by
  unfold direction?
  grind

theorem direction?_eq_none_iff {e : Edge} {vertex : Ident} :
    e.direction? vertex = none ↔ vertex ≠ e.source ∧ vertex ≠ e.target := by
  unfold direction?
  grind

def direction (e : Edge) (vertex : Ident) : Except Fault Direction :=
  match e.direction? vertex with
  | some d => .ok d
  | none => .error (.referential (.notAnEndpoint vertex e.id e.source e.target))

/-- The end across from a vertex. -/
def opposite (e : Edge) (vertex : Ident) : Except Fault Ident :=
  (e.direction vertex).map fun
    | .incoming => e.source
    | .outgoing => e.target

def text (e : Edge) : String :=
  s!"{e.id}({e.source} -> {e.target})"

end Edge

end ConstraintLogic
