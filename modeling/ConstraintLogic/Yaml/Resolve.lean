import ConstraintLogic.Text.Digits
import ConstraintLogic.Yaml.Node
import ConstraintLogic.Yaml.Value
/-!
# What scalars stand for

A plain scalar is null, a boolean or a number if it is written as one, and a string otherwise. A
number of digits alone that starts with a zero is a string. A node has a value unless it holds an
integer that is out of range, a value of another kind than its tag says, or a key twice.
-/

namespace ConstraintLogic.Yaml

open Text (natural?)

/-! ## Numbers -/

/-- Digits alone, of which the first is a zero and not the last. -/
def isZeroLed (cs : List Char) : Bool :=
  let digits := match cs with
    | '-' :: rest | '+' :: rest => rest
    | _ => cs
  1 < digits.length && digits.head? == some '0' && digits.all Char.isDigit

/-- The size of an integer, in decimal or after the mark of another base. -/
def magnitude? : List Char → Option Nat
  | '0' :: 'x' :: rest => natural? 16 rest
  | '0' :: 'o' :: rest => natural? 8 rest
  | '0' :: 'b' :: rest => natural? 2 rest
  | cs => natural? 10 cs

def integer? (cs : List Char) : Option Int :=
  if isZeroLed cs then none
  else
    match cs with
    | '-' :: rest => (magnitude? rest).map fun n => -(n : Int)
    | '+' :: rest => (magnitude? rest).map fun n => (n : Int)
    | _ => (magnitude? cs).map fun n => (n : Int)

/-- The integers that a value can hold. -/
def inRange (n : Int) : Bool :=
  Int64.minValue.toInt ≤ n && n < UInt64.size

/-- The integers that are taken for such at all; larger ones are numbers with a fraction. -/
def isInteger (n : Int) : Bool :=
  -Int.pow 2 127 ≤ n && n < Int.pow 2 128

/-- The exponent of ten after a number: a letter, a sign and digits. -/
def exponent? : List Char → Option Int
  | [] => some 0
  | e :: rest =>
    if e == 'e' || e == 'E' then
      match rest with
      | '-' :: digits => (natural? 10 digits).map fun n => -(n : Int)
      | '+' :: digits => (natural? 10 digits).map fun n => (n : Int)
      | digits => (natural? 10 digits).map fun n => (n : Int)
    else none

/-- Exponents beyond this one make no difference to any double. -/
def exponentLimit (digits : Nat) : Int := digits + 400

/-- The double nearest to an unsigned decimal: digits with at most one point, and an exponent. -/
def decimal? (cs : List Char) : Option Float := do
  let whole := cs.takeWhile Char.isDigit
  let rest := cs.drop whole.length
  let (fraction, rest) := match rest with
    | '.' :: tail => (tail.takeWhile Char.isDigit, tail.dropWhile Char.isDigit)
    | _ => ([], rest)
  let digits := whole ++ fraction
  let mantissa ← natural? 10 digits
  let written ← exponent? rest
  let limit := exponentLimit digits.length
  let exponent := max (-limit) (min limit written) - fraction.length
  return Float.ofScientific mantissa (exponent < 0) exponent.natAbs

/-- The finite double that a text writes, with a sign or without. -/
def signedDecimal? (cs : List Char) : Option Float :=
  let x := match cs with
    | '-' :: rest => (decimal? rest).map (- ·)
    | '+' :: rest => decimal? rest
    | _ => decimal? cs
  x.filter Float.isFinite

def float? (text : String) : Option Float :=
  match text with
  | ".inf" | ".Inf" | ".INF" | "+.inf" | "+.Inf" | "+.INF" => some (1 / 0)
  | "-.inf" | "-.Inf" | "-.INF" => some (-1 / 0)
  | ".nan" | ".NaN" | ".NAN" => some (0 / 0)
  | _ => signedDecimal? text.toList

/-! ## Scalars -/

def isNull (text : String) : Bool :=
  ["null", "Null", "NULL", "~"].contains text

def bool? : String → Option Bool
  | "true" | "True" | "TRUE" => some true
  | "false" | "False" | "FALSE" => some false
  | _ => none

/-- The integer, if it is one; refused if a value cannot hold it. -/
def integerValue? (text : String) : Option (Option Value) :=
  match (integer? text.toList).filter isInteger with
  | some n => if inRange n then some (some (.int n)) else none
  | none => some none

def plainValue? (text : String) : Option Value :=
  if text.isEmpty || isNull text then some .null
  else
    match bool? text with
    | some b => some (.bool b)
    | none =>
      match integerValue? text with
      | none => none
      | some (some v) => some v
      | some none =>
        match if isZeroLed text.toList then none else float? text with
        | some x => some (.float x)
        | none => some (.string text)

/-- The value of a scalar without a tag, or under one of one's own. -/
def untaggedValue? (text : String) (style : ScalarStyle) : Option Value :=
  if style = .plain then plainValue? text else some (.string text)

/-- Puts a value under the tag of its node, if that is one of one's own. -/
def underTag (v : Value) : Option Tag → Value
  | some (.own name) => .tagged name v
  | _ => v

/-- The value of a scalar. A standard tag says of what kind it is. -/
def scalarValue? (text : String) (style : ScalarStyle) : Option Tag → Option Value
  | some .null => if isNull text then some .null else none
  | some .bool => (bool? text).map .bool
  | some .int => (integerValue? text).bind id
  | some .float => (float? text).map .float
  | some .other => some (.string text)
  | tag => (untaggedValue? text style).map fun v => underTag v tag

/-- The entries of a map, none of which has a key of one before. -/
def distinctEntries? : List (Value × Value) → List (Value × Value) → Option (List (Value × Value))
  | seen, [] => some seen.reverse
  | seen, (k, v) :: rest =>
    if seen.any fun (l, _) => Value.same k l then none else distinctEntries? ((k, v) :: seen) rest

mutual

def Value.ofNode? : Node → Option Value
  | .scalar text style tag => scalarValue? text style tag
  | .list items tag => do return underTag (.list (← itemValues? items)) tag
  | .map entries tag => do
    return underTag (.map (← distinctEntries? [] (← entryValues? entries))) tag

def itemValues? : List Node → Option (List Value)
  | [] => some []
  | n :: rest => do return (← Value.ofNode? n) :: (← itemValues? rest)

def entryValues? : List (Node × Node) → Option (List (Value × Value))
  | [] => some []
  | (k, v) :: rest => do return (← Value.ofNode? k, ← Value.ofNode? v) :: (← entryValues? rest)

end

end ConstraintLogic.Yaml
