import ConstraintLogic.Circuit
import ConstraintLogic.Description.Argument
/-!
# Entries

What the arguments of an entry say, section by section. Positions come first in all sections but
that of edges, and flags come last.
-/

namespace ConstraintLogic.Description

/-- The two coordinates at the front, moved by an offset, and the rest. -/
def placed (offset : Point) : List Argument → Except Fault (Point × List Argument)
  | .number x :: .number y :: rest => do
    let x ← requireFinite "x" x
    let y ← requireFinite "y" y
    return (offset + ⟨x, y⟩, rest)
  | _ => .error (.format .coordinatesExpected)

/-! ## Vertices -/

structure VertexEntry where
  position : Point
  flags : List Flag

def VertexEntry.ofArguments (offset : Point) (args : List Argument) : Except Fault VertexEntry := do
  let (position, rest) ← placed offset args
  let flags ← Flag.list [.hidden, .muted] rest
  return ⟨position, flags⟩

/-! ## Edges -/

/-- What an entry says of an edge. Without a target it is the source, and without a weight the edge
is single. -/
structure EdgeEntry where
  source : String
  target? : Option String
  weight? : Option Weight
  flags : List Flag

namespace EdgeEntry

/-- The weight that a number gives; it has to be whole and no more than 32 bits. -/
def weight (x : Float) : Except Fault Weight :=
  match (Decimal.Binary.ofFloat x).whole? with
  | some n =>
    if 0 ≤ n ∧ n < UInt32.size then Weight.ofValue n.toNat else .error (.format (.edgeWeight x))
  | none => .error (.format (.edgeWeight x))

/-- The entry with one more argument. A target comes before a weight, and a weight before flags. -/
def extend (e : EdgeEntry) (arg : Argument) : Except Fault EdgeEntry :=
  match arg with
  | .number x =>
    if e.weight?.isNone && e.flags.isEmpty then do return { e with weight? := some (← weight x) }
    else .error (.format (.unexpectedValue arg.display))
  | .text word =>
    match Flag.parse? word with
    | some .hidden => .error (.format (.flag word))
    | some f => .ok { e with flags := e.flags ++ [f] }
    | none =>
      if e.target?.isNone && e.weight?.isNone && e.flags.isEmpty then
        .ok { e with target? := some word }
      else .error (.format (.unexpectedValue word))

def ofArguments : List Argument → Except Fault EdgeEntry
  | .text source :: rest =>
    if (Flag.parse? source).isNone then rest.foldlM extend ⟨source, none, none, []⟩
    else .error (.format .edgeExpected)
  | _ => .error (.format .edgeExpected)

end EdgeEntry

/-! ## Components -/

/-- What is to be made: one gadget, or the circuit of a formula. -/
inductive Construction where
  | gadget (blueprint : Blueprint)
  | circuit (formula : String)

structure ComponentEntry where
  position : Point
  construction : Construction
  muted : Bool

namespace ComponentEntry

/-- The text that has to follow a kind, and the rest. -/
def textArgument (kind : String) : List Argument → Except Fault (String × List Argument)
  | .text s :: rest => .ok (s, rest)
  | _ => .error (.format (.kindArgument kind))

def letter (text : String) : Except Fault Char :=
  match text.toList with
  | [c] => if c.isAlpha then .ok c else .error (.format (.variableLetter text))
  | _ => .error (.format (.variableLetter text))

/-- What is to be made, by its kind and the text that goes with it; and the rest. -/
def constructionOf (kind : String) (rest : List Argument) :
    Except Fault (Construction × List Argument) := do
  match kind with
  | "converter" => return (.gadget .converter, rest)
  | "existential" =>
    let (text, rest) ← textArgument kind rest
    return (.gadget (.existential (← letter text)), rest)
  | "universal" =>
    let (text, rest) ← textArgument kind rest
    return (.gadget (.universal (← letter text)), rest)
  | "cnf" =>
    let (text, rest) ← textArgument kind rest
    return (.gadget (.evaluator text), rest)
  | "qbf" =>
    let (text, rest) ← textArgument kind rest
    return (.circuit text, rest)
  | word => .error (.format (.kind word))

def ofArguments (offset : Point) (args : List Argument) : Except Fault ComponentEntry := do
  let (position, rest) ← placed offset args
  match rest with
  | .text kind :: rest =>
    let (made, rest) ← constructionOf kind rest
    let flags ← Flag.list [.muted] rest
    return ⟨position, made, flags.contains .muted⟩
  | _ => .error (.format .kindMissing)

end ComponentEntry

/-! ## Labels -/

structure LabelEntry where
  position : Point
  text : String
  halign : Align
  valign : Align

namespace LabelEntry

def align : Option Argument → Except Fault Align
  | some arg => Align.parse arg.display
  | none => .ok .center

def ofArguments (offset : Point) (args : List Argument) : Except Fault LabelEntry := do
  let (position, rest) ← placed offset args
  match rest with
  | text :: aligns =>
    if 2 < aligns.length then .error (.format .labelExpected)
    else
      let halign ← align aligns[0]?
      let valign ← align aligns[1]?
      return ⟨position, text.display, halign, valign⟩
  | [] => .error (.format .labelExpected)

end LabelEntry

end ConstraintLogic.Description
