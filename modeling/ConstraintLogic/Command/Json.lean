/-!
# JSON text

Values laid out with one item a line, each level indented by two.
-/

namespace ConstraintLogic.Command

inductive Json where
  | nat (n : Nat)
  | bool (b : Bool)
  | string (s : String)
  | array (items : List Json)
  | object (fields : List (String × Json))

namespace Json

def hexPair (n : Nat) : List Char :=
  [Nat.digitChar (n / 16), Nat.digitChar (n % 16)]

/-- A character between double quotes. -/
def escaped (c : Char) : List Char :=
  match c with
  | '\x22' => ['\\', '\x22']
  | '\\' => ['\\', '\\']
  | '\x08' => ['\\', 'b']
  | '\x0c' => ['\\', 'f']
  | '\n' => ['\\', 'n']
  | '\r' => ['\\', 'r']
  | '\t' => ['\\', 't']
  | _ => if c.toNat < 0x20 then '\\' :: 'u' :: '0' :: '0' :: hexPair c.toNat else [c]

def quoted (s : String) : List Char :=
  '\x22' :: s.toList.flatMap escaped ++ ['\x22']

def newLine (depth : Nat) : List Char :=
  '\n' :: List.replicate (2 * depth) ' '

mutual

/-- The lines of a value, the first of which stands at the given depth already. -/
def write (depth : Nat) : Json → List Char
  | nat n => (toString n).toList
  | bool b => (if b then "true" else "false").toList
  | string s => quoted s
  | array [] => ['[', ']']
  | array items => '[' :: writeItems (depth + 1) items ++ newLine depth ++ [']']
  | object [] => ['\x7b', '\x7d']
  | object fields => '\x7b' :: writeFields (depth + 1) fields ++ newLine depth ++ ['\x7d']

def writeItems (depth : Nat) : List Json → List Char
  | [] => []
  | v :: rest =>
    let comma := if rest.isEmpty then [] else [',']
    newLine depth ++ v.write depth ++ comma ++ writeItems depth rest

def writeFields (depth : Nat) : List (String × Json) → List Char
  | [] => []
  | (name, v) :: rest =>
    let comma := if rest.isEmpty then [] else [',']
    newLine depth ++ quoted name ++ ':' :: ' ' :: v.write depth ++ comma ++ writeFields depth rest

end

def text (v : Json) : String :=
  String.ofList (v.write 0)

example : (object [("a", .array [.nat 1, .nat 2]), ("b", .array [])]).text =
    "\x7b\n  \x22a\x22: [\n    1,\n    2\n  ],\n  \x22b\x22: []\n\x7d" := by
  decide +kernel

end Json

end ConstraintLogic.Command
