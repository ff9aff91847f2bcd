import ConstraintLogic.Fault
import ConstraintLogic.Text.Blank
import ConstraintLogic.Yaml.Writer
/-!
# Arguments

An entry of a description is a list of numbers and texts. Some texts are flags, which stand at the
end of an entry.
-/

namespace ConstraintLogic.Description

open Yaml (Value)

/-- An item of an entry. -/
inductive Argument where
  | number (x : Float)
  | text (s : String)

namespace Argument

def number? : Argument → Option Float
  | number x => some x
  | text _ => none

def text? : Argument → Option String
  | number _ => none
  | text s => some s

def display : Argument → String
  | number x => Decimal.plain.render x
  | text s => s

/-- The double nearest to an integer. -/
def nearest (n : Int) : Float :=
  let size := Float.ofScientific n.natAbs false 0
  if n < 0 then -size else size

/-- A value as a fault shows it; one that cannot be written is left out. -/
def shown (v : Value) : String :=
  String.ofList (Text.trimEnd (v.text?.getD "").toList)

/-- Only numbers and strings are arguments. -/
def ofValue : Value → Except Fault Argument
  | .int n => .ok (number (nearest n))
  | .float x => .ok (number x)
  | .string s => .ok (text s)
  | v => .error (.format (.unexpectedValue (shown v)))

def list : Value → Except Fault (List Argument)
  | .list items => items.mapM ofValue
  | _ => .error (.format .notAList)

end Argument

/-- The words that say yes by being there. -/
inductive Flag where
  | hidden
  | muted
  | label
  | flip
deriving DecidableEq, Repr

namespace Flag

def name : Flag → String
  | hidden => "hidden"
  | muted => "muted"
  | label => "label"
  | flip => "flip"

def all : List Flag := [hidden, muted, label, flip]

def parse? (word : String) : Option Flag :=
  all.find? fun f => f.name == word

theorem parse?_eq_some_iff {word : String} {f : Flag} : parse? word = some f ↔ word = f.name := by
  constructor
  · intro h
    unfold parse? at h
    have named := List.find?_some h
    grind
  · rintro rfl
    cases f <;> decide

/-- Arguments of which each is one of the given flags. -/
def list (allowed : List Flag) (args : List Argument) : Except Fault (List Flag) :=
  args.mapM fun arg =>
    match arg with
    | .number _ => .error (.format (.unexpectedValue arg.display))
    | .text word =>
      match (parse? word).filter allowed.contains with
      | some f => .ok f
      | none => .error (.format (.flag word))

end Flag

end ConstraintLogic.Description
