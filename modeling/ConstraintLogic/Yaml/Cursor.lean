import ConstraintLogic.Yaml.Character
/-!
# A place in a YAML text

What is left of a text and where it stands: the line, the column and the count of octets before it.
Carriage returns and next-line characters have been turned into line feeds.
-/

namespace ConstraintLogic.Yaml

structure Cursor where
  rest : List Char
  line : Nat
  column : Nat
  offset : Nat

namespace Cursor

def start (text : List Char) : Cursor := ⟨text, 0, 0, 0⟩

def next (c : Cursor) : Cursor :=
  match c.rest with
  | [] => c
  | ch :: rest =>
    let offset := c.offset + ch.utf8Size
    if isBreak ch then ⟨rest, c.line + 1, 0, offset⟩ else ⟨rest, c.line, c.column + 1, offset⟩

def drop (c : Cursor) : Nat → Cursor
  | 0 => c
  | n + 1 => c.next.drop n

/-- Goes on to what is left after more of the text was read. -/
def goTo (c : Cursor) (rest : List Char) : Cursor :=
  c.drop (c.rest.length - rest.length)

def peek? (c : Cursor) : Option Char :=
  c.rest.head?

def isAt (c : Cursor) (ch : Char) : Bool :=
  c.rest.head? == some ch

def skipWhile (c : Cursor) (p : Char → Bool) : Cursor :=
  c.drop (c.rest.takeWhile p).length

def skipLine (c : Cursor) : Cursor :=
  c.skipWhile fun ch => !isBreak ch

end Cursor

/-- The text is over, or a space, a tab or a line break follows. -/
def atWordEnd (cs : List Char) : Bool :=
  cs.head?.all fun c => isGap c || isBreak c

/-- Three dashes or three dots stand alone at the start of the line. -/
def Cursor.atDocumentMark (c : Cursor) : Bool :=
  c.column == 0 &&
    match c.rest with
    | '-' :: '-' :: '-' :: rest | '.' :: '.' :: '.' :: rest => atWordEnd rest
    | _ => false

end ConstraintLogic.Yaml
