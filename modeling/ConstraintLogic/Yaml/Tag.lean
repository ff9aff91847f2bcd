import ConstraintLogic.Text.Digits
import ConstraintLogic.Yaml.Character
/-!
# Tags

A tag says of which kind a node is. The standard ones name kinds of scalars; one that starts with an
exclamation mark is a tag of one's own, which values keep. In a text a tag stands for octets: some
characters stand for themselves, and a percent sign with two digits stands for any octet.
-/

namespace ConstraintLogic.Yaml

inductive Tag where
  | null
  | bool
  | int
  | float
  /-- A tag of one's own. -/
  | own (name : String)
  /-- A tag of one's own whose octets are no text. -/
  | nameless
  /-- Any other tag says only that a scalar is a string. -/
  | other
deriving DecidableEq, Repr

namespace Tag

/-! ## Reading -/

/-- The characters that stand for themselves in a tag, and those that do in a full tag only. -/
def isTagChar (full : Bool) (c : Char) : Bool :=
  isWordChar c || ";/?:@&=+$.%!~*\x27()".toList.contains c || (full && ",[]".toList.contains c)

/-- How many octets follow the one that opens a UTF-8 sequence. -/
def following? (octet : Nat) : Option Nat :=
  if octet < 0x80 then some 0
  else if octet < 0xC0 then none
  else if octet < 0xE0 then some 1
  else if octet < 0xF0 then some 2
  else if octet < 0xF8 then some 3
  else none

/-- The octets that characters of a tag stand for, where so many are missing from the last UTF-8
sequence. A sequence of more than one octet is written in percent signs. -/
def octets? (missing : Nat) : List Char → Option (List UInt8)
  | '%' :: a :: b :: rest => do
    let octet ← Text.natural? 16 [a, b]
    let missing ←
      if missing = 0 then following? octet
      else if octet / 64 = 2 then some (missing - 1)
      else none
    return octet.toUInt8 :: (← octets? missing rest)
  | c :: rest =>
    if c == '%' || missing != 0 then none else (octets? 0 rest).map (c.toNat.toUInt8 :: ·)
  | [] => if missing = 0 then some [] else none

/-- The octets of a part of a tag. A zero ends it. -/
def decode? (cs : List Char) : Option (List UInt8) :=
  (octets? 0 cs).map fun octets => octets.takeWhile (· != 0)

/-- What the handles of tags stand for that are not declared. -/
def standardHandles : List (String × List UInt8) :=
  [("!", "!".toUTF8.toList), ("!!", "tag:yaml.org,2002:".toUTF8.toList)]

/-- A name without an exclamation mark in front. -/
def unmarked : List Char → List Char
  | '!' :: c :: rest => c :: rest
  | cs => cs

/-- The tag that octets stand for. One of one's own may have two exclamation marks. -/
def ofOctets (octets : List UInt8) : Tag :=
  match String.fromUTF8? ⟨octets.toArray⟩ with
  | some "tag:yaml.org,2002:null" => null
  | some "tag:yaml.org,2002:bool" => bool
  | some "tag:yaml.org,2002:int" => int
  | some "tag:yaml.org,2002:float" => float
  | some text =>
    if text.toList.head? == some '!' then own (String.ofList (unmarked (unmarked text.toList)))
    else other
  | none => if octets.head? == some 0x21 then nameless else other

/-! ## Writing -/

/-- The number of octets in the tag with a name. -/
def size (name : String) : Nat :=
  if name.toList.head? == some '!' then name.utf8ByteSize else name.utf8ByteSize + 1

/-- The characters that are written as they are. -/
def staysAsItIs (c : Char) : Bool :=
  isWordChar c || ";/?:@&=+$,.~*\x27()[]".toList.contains c

def encode (cs : List Char) : List Char :=
  cs.flatMap fun c =>
    if staysAsItIs c then [c]
    else (String.singleton c).toUTF8.toList.flatMap fun octet => '%' :: Text.hexUpper 2 octet.toNat

/-- The text of the tag with a name. An exclamation mark alone is written as a full tag. -/
def text (name : String) : List Char :=
  match name.toList with
  | ['!'] => "!<%21>".toList
  | '!' :: rest | rest => '!' :: encode rest

example : decode? "a%20%c3%A9".toList = some [0x61, 0x20, 0xC3, 0xA9] := by decide +kernel
example : decode? "a%c3b".toList = none := by decide +kernel
example : text "a b!" = "!a%20b%21".toList := by decide +kernel

end Tag

end ConstraintLogic.Yaml
