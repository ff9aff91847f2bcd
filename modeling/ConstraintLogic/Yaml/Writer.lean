import ConstraintLogic.Decimal.Style
import ConstraintLogic.Yaml.Character
import ConstraintLogic.Yaml.Resolve
/-!
# Writing YAML values

Collections are written as blocks, empty ones as brackets. A list that is the value of a key is not
indented. A string is plain unless it would read as something else; with line feeds in it, it is a
block of lines. A map of one entry cannot be written if its key looks like the name of a tag.
-/

namespace ConstraintLogic.Yaml

/-- Numbers keep their point or have an exponent; a tie between two digits goes to the even one. -/
def numberStyle : Decimal.Style where
  positional point := -5 < point && point ≤ 16
  wholeEnd := ".0"
  tie := .even
  infinity := ".inf"
  nan := ".nan"

/-! ## Strings -/

def isPrintable (c : Char) : Bool :=
  let n := c.toNat
  n == 0xA || (0x20 ≤ n && n ≤ 0x7E) || (0xA0 ≤ n && n ≤ 0xFFFD && n != 0xFEFF) || 0x10000 ≤ n

/-- The text may not be plain on account of the marks in it. -/
def hasMarks (cs : List Char) : Bool :=
  let isEnd (rest : List Char) : Bool := rest.head?.all fun c => isGap c || isAnyBreak c
  let starts : Bool :=
    match cs with
    | '-' :: '-' :: '-' :: _ | '.' :: '.' :: '.' :: _ => true
    | c :: rest =>
      "#,[]&*!|>\x27\x22%@\x60\x7b\x7d".toList.contains c ||
        ((c == '-' || c == '?' || c == ':') && isEnd rest)
    | [] => false
  let rec inside (before : Char) : List Char → Bool
    | [] => false
    | c :: rest =>
      (c == ':' && isEnd rest) || (c == '#' && (isGap before || isAnyBreak before)) || inside c rest
  starts || match cs with
    | c :: rest => inside c rest
    | [] => false

/-- Whether two neighbours are related. -/
def anyNeighbours (p : Char → Char → Bool) : List Char → Bool
  | a :: b :: rest => p a b || anyNeighbours p (b :: rest)
  | _ => false

def needsEscapes (cs : List Char) : Bool :=
  cs.any (!isPrintable ·) || anyNeighbours (fun a b => a == ' ' && isAnyBreak b) cs

def touchesEdge (cs : List Char) : Bool :=
  let isEdge (c : Char) : Bool := c == ' ' || isAnyBreak c
  cs.head?.any isEdge || cs.getLast?.any isEdge

def mayBePlain (cs : List Char) : Bool :=
  !needsEscapes cs && !touchesEdge cs && !cs.any isAnyBreak && !hasMarks cs

def mayBeSingleQuoted (cs : List Char) : Bool :=
  !needsEscapes cs && !anyNeighbours (fun a b => isAnyBreak a && b == ' ') cs

def mayBeBlock (cs : List Char) : Bool :=
  !needsEscapes cs && cs.getLast? != some ' '

def escaped (c : Char) : List Char :=
  let n := c.toNat
  match c with
  | '\x00' => ['\\', '0']
  | '\x07' => ['\\', 'a']
  | '\x08' => ['\\', 'b']
  | '\t' => ['\\', 't']
  | '\n' => ['\\', 'n']
  | '\x0b' => ['\\', 'v']
  | '\x0c' => ['\\', 'f']
  | '\r' => ['\\', 'r']
  | '\x1b' => ['\\', 'e']
  | '\x22' => ['\\', '\x22']
  | '\\' => ['\\', '\\']
  | '\u0085' => ['\\', 'N']
  | '\u2028' => ['\\', 'L']
  | '\u2029' => ['\\', 'P']
  | _ =>
    if isPrintable c then [c]
    else if n ≤ 0xFF then '\\' :: 'x' :: Text.hexUpper 2 n
    else if n ≤ 0xFFFF then '\\' :: 'u' :: Text.hexUpper 4 n
    else '\\' :: 'U' :: Text.hexUpper 8 n

def doubleQuoted (cs : List Char) : List Char :=
  '\x22' :: cs.flatMap escaped ++ ['\x22']

def spaces (n : Nat) : List Char := List.replicate n ' '

/-- The lines of a text, each but empty ones after the indentation. -/
def indentLines (indent : Nat) (atStart : Bool) : List Char → List Char
  | [] => []
  | c :: rest =>
    if isAnyBreak c then c :: indentLines indent true rest
    else (if atStart then spaces indent else []) ++ c :: indentLines indent false rest

/-- A text between single quotes. What comes after line breaks is indented, also the last quote. -/
def singleQuoted (indent : Nat) (cs : List Char) : List Char :=
  let quoted := cs.flatMap fun c => if c == '\x27' then [c, c] else [c]
  '\x27' :: indentLines indent false (quoted ++ ['\x27'])

/-- A text that reads as something else than a string when it is plain, or is refused. Digits after
a zero are set apart as well. -/
def isAmbiguous (text : String) : Bool :=
  match plainValue? text with
  | some (.string _) => isZeroLed text.toList
  | _ => true

/-- A string without line feeds, or with all of them escaped. -/
def inlineString (indent : Nat) (text : String) : List Char :=
  let cs := text.toList
  if cs.contains '\n' then doubleQuoted cs
  else if mayBePlain cs && !isAmbiguous text then cs
  else if mayBeSingleQuoted cs then singleQuoted indent cs
  else doubleQuoted cs

/-- The sign that opens a block of lines, with its marks: the indentation if the text starts with a
blank, and how many line feeds end it. -/
def blockSign (cs : List Char) : List Char :=
  let indentation := if cs.head?.any (fun c => c == ' ' || isAnyBreak c) then ['2'] else []
  let ending :=
    match cs.reverse with
    | [] => ['-']
    | [c] => if isAnyBreak c then ['+'] else ['-']
    | c :: d :: _ => if isAnyBreak c then (if isAnyBreak d then ['+'] else []) else ['-']
  '|' :: indentation ++ ending

/-- A string whose lines, if it has more than one, are indented. -/
def stringText (indent : Nat) (text : String) : List Char :=
  let cs := text.toList
  if cs.contains '\n' && mayBeBlock cs then
    blockSign cs ++ '\n' :: indentLines indent true cs
  else inlineString indent text

/-! ## Values -/

/-- Where a value is written. -/
structure Spot where
  /-- The indentation of the collection around it; none at the top. -/
  around : Option Nat
  /-- It is the key or the value of a map. -/
  inMap : Bool
  /-- Nothing but indentation and signs stands before it on its line. -/
  fresh : Bool

namespace Spot

def inner (s : Spot) : Nat :=
  s.around.elim 0 (· + 2)

def innerList (s : Spot) : Nat :=
  if s.inMap && !s.fresh then s.around.getD 0 else s.inner

/-- The indentation of a scalar that takes more than one line. -/
def innerLines (s : Spot) : Nat :=
  s.around.elim 2 (· + 2)

/-- The blank in front of what stays on the line. -/
def gap (s : Spot) : List Char :=
  if s.fresh then [] else [' ']

end Spot

/-- The most octets in a key that needs no question mark, its tag included. -/
def longestSimpleKey : Nat := 128

def Value.word : Value → List Char
  | .null => "null".toList
  | .bool b => (if b then "true" else "false").toList
  | .int n => (toString n).toList
  | .float x => (numberStyle.render x).toList
  | .string _ | .list _ | .map _ | .tagged .. => []

/-- The text of a key that needs no question mark, where so many octets are left for it. -/
def simpleKey? (room : Nat) : Value → Option (List Char)
  | .string s =>
    if s.utf8ByteSize ≤ room && !s.toList.any isAnyBreak then some (inlineString 0 s) else none
  | .list [] => some ['[', ']']
  | .map [] => some ['\x7b', '\x7d']
  | .list _ | .map _ => none
  | .tagged name v =>
    if Tag.size name ≤ room then
      (simpleKey? (room - Tag.size name) v).map fun key => Tag.text name ++ ' ' :: key
    else none
  | v => if v.word.length ≤ room then some v.word else none

/-- A new line after some text, with its indentation. -/
def newLine (before : List Char) (indent : Nat) : List Char :=
  if before.getLast?.any isAnyBreak then spaces indent else '\n' :: spaces indent

mutual

def Value.write (s : Spot) : Value → List Char
  | .string text => s.gap ++ stringText s.innerLines text
  | .list [] => s.gap ++ ['[', ']']
  | .map [] => s.gap ++ ['\x7b', '\x7d']
  | .list items => writeItems [] s.innerList s.fresh items
  | .map entries => writeEntries [] s.inner s.fresh entries
  | .tagged name v => s.gap ++ Tag.text name ++ Value.write { s with fresh := false } v
  | v => s.gap ++ v.word

/-- The items of a list, after some text. The first goes on with its line if nothing else stands
on it. -/
def writeItems (before : List Char) (indent : Nat) (goOn : Bool) : List Value → List Char
  | [] => []
  | v :: rest =>
    let item := '-' :: ' ' :: Value.write ⟨some indent, false, true⟩ v
    (if goOn then [] else newLine before indent) ++ item ++ writeItems item indent false rest

/-- The entries of a map, after some text. The first goes on with its line if nothing else stands
on it. -/
def writeEntries (before : List Char) (indent : Nat) (goOn : Bool) :
    List (Value × Value) → List Char
  | [] => []
  | (k, v) :: rest =>
    let entry :=
      match simpleKey? longestSimpleKey k with
      | some key => key ++ ':' :: Value.write ⟨some indent, true, false⟩ v
      | none =>
        let key := '?' :: ' ' :: Value.write ⟨some indent, true, true⟩ k
        key ++ newLine key indent ++ ':' :: ' ' :: Value.write ⟨some indent, true, true⟩ v
    (if goOn then [] else newLine before indent) ++ entry ++ writeEntries entry indent false rest

end

/-- A value with a tag is written as a map of one entry is, with the tag for a key. -/
def Value.isPair : Value → Bool
  | .map [_] | .tagged .. => true
  | _ => false

/-- The key of a map of one entry may not be such a map, nor have a tag. -/
def isMisread : List (Value × Value) → Bool
  | [(k, _)] => k.isPair
  | _ => false

mutual

/-- The value can be written, right under a tag or not. Right under a tag, all maps can be. -/
def Value.isWritable (underTag : Bool) : Value → Bool
  | .list items => areWritable items
  | .map entries => (underTag || !isMisread entries) && entriesAreWritable entries
  | .tagged _ v => v.isWritable true
  | .null | .bool _ | .int _ | .float _ | .string _ => true

def areWritable : List Value → Bool
  | [] => true
  | v :: rest => v.isWritable false && areWritable rest

def entriesAreWritable : List (Value × Value) → Bool
  | [] => true
  | (k, v) :: rest => k.isWritable false && v.isWritable false && entriesAreWritable rest

end

def Value.text? (v : Value) : Option String :=
  if v.isWritable false then some (String.ofList (v.write ⟨none, false, true⟩)) else none

example :
    (Value.list [.int 1, .list [.int 2, .string "x"]]).text? = some "- 1\n- - 2\n  - x" := by
  decide +kernel
example : (Value.map [(.string "a", .list [.int 1, .int 2])]).text? = some "a:\n- 1\n- 2" := by
  decide +kernel
example :
    (Value.map [(.string "a", .map [(.string "b", .string "1")])]).text? = some "a:\n  b: '1'" := by
  decide +kernel
example : (Value.map [(.map [(.int 1, .int 2)], .int 3)]).text? = none := by
  decide +kernel

end ConstraintLogic.Yaml
