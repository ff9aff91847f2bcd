import ConstraintLogic.Text.Digits
import ConstraintLogic.Yaml.Cursor
/-!
# Reading scalars

The three ways in which a scalar is written: plain, between quotes, or as a block of lines. Each
reader starts at the first character and gives the text and the place after it; it gives none if
the text is not well-formed.
-/

namespace ConstraintLogic.Yaml

/-! ## Gaps between words -/

/-- The blanks and line breaks between two words. -/
structure Gap where
  /-- The blanks before the first line break. -/
  blanks : List Char
  breaks : List Char

namespace Gap

def none : Gap := ⟨[], []⟩

/-- A gap on one line stays as it is; a single line feed becomes a space, and of more the first is
dropped. -/
def text (g : Gap) : List Char :=
  match g.breaks with
  | [] => g.blanks
  | ['\n'] => [' ']
  | '\n' :: more => more
  | breaks => breaks

def isBroken (g : Gap) : Bool :=
  !g.breaks.isEmpty

/-- After a line break some tab stands left of the column. -/
def hasTabBefore (limit : Nat) (column : Option Nat) : List Char → Bool
  | [] => false
  | c :: rest =>
    if isBreak c then hasTabBefore limit (some 0) rest
    else (c == '\t' && column.any (· < limit)) || hasTabBefore limit (column.map (· + 1)) rest

/-- The gap at a place. Tabs may not indent a line up to the given column. -/
def read? (limit : Nat) (c : Cursor) : Option (Gap × Cursor) :=
  let chars := c.rest.takeWhile fun ch => isGap ch || isBreak ch
  if hasTabBefore limit .none chars then .none
  else some (⟨chars.takeWhile isGap, chars.filter isBreak⟩, c.drop chars.length)

end Gap

/-! ## Plain scalars -/

/-- The characters that end a plain word inside a flow collection. -/
def isFlowMark (c : Char) : Bool :=
  [',', '[', ']', '\x7b', '\x7d'].contains c

/-- A word of a plain scalar. Inside a flow collection a colon may not touch a mark. -/
def plainWord? (inFlow : Bool) : List Char → Option (List Char)
  | [] => some []
  | c :: rest =>
    if isGap c || isBreak c then some []
    else if inFlow && c == ':' && rest.head?.any (fun d => d == '?' || isFlowMark d) then none
    else if c == ':' && atWordEnd rest then some []
    else if inFlow && isFlowMark c then some []
    else (plainWord? inFlow rest).map (c :: ·)

/-- Goes on with a plain scalar after some text and a gap. Tells whether a line break follows. -/
def plainWords? (inFlow : Bool) (indent : Nat) :
    Nat → Cursor → List Char → Gap → Option (List Char × Cursor × Bool)
  | 0, _, _, _ => none
  | fuel + 1, c, text, gap =>
    if c.atDocumentMark || c.isAt '#' then some (text, c, gap.isBroken)
    else do
      let word ← plainWord? inFlow c.rest
      let c := c.drop word.length
      let (text, gap) := if word.isEmpty then (text, gap) else (text ++ gap.text ++ word, Gap.none)
      if !(c.peek?.any fun ch => isGap ch || isBreak ch) then return (text, c, gap.isBroken)
      let (gap, c) ← Gap.read? indent c
      if !inFlow && c.column < indent then return (text, c, gap.isBroken)
      plainWords? inFlow indent fuel c text gap

/-- The plain scalar at a place, whose further lines are indented up to the given column. -/
def plainScalar? (inFlow : Bool) (indent : Nat) (c : Cursor) : Option (List Char × Cursor × Bool) :=
  plainWords? inFlow indent (c.rest.length + 1) c [] Gap.none

/-! ## Quoted scalars -/

/-- The character with the code that so many hexadecimal digits write. -/
def hexChar? (width : Nat) (cs : List Char) : Option Char := do
  if cs.length < width then none
  let n ← Text.natural? 16 (cs.take width)
  if n.isValidChar then some (Char.ofNat n) else none

/-- What a letter stands for after a backslash, if it stands for one character. -/
def escape? : Char → Option Char
  | '0' => some '\x00'
  | 'a' => some '\x07'
  | 'b' => some '\x08'
  | 't' | '\t' => some '\t'
  | 'n' => some '\n'
  | 'v' => some '\x0b'
  | 'f' => some '\x0c'
  | 'r' => some '\r'
  | 'e' => some '\x1b'
  | ' ' => some ' '
  | '\x22' => some '\x22'
  | '/' => some '/'
  | '\\' => some '\\'
  | 'N' => some '\u0085'
  | '_' => some '\u00a0'
  | 'L' => some '\u2028'
  | 'P' => some '\u2029'
  | _ => none

/-- How many hexadecimal digits follow a letter after a backslash. -/
def escapeWidth? : Char → Option Nat
  | 'x' => some 2
  | 'u' => some 4
  | 'U' => some 8
  | _ => none

/-- A word of a quoted scalar, what is left, and whether an escaped line break ended it. -/
structure QuotedWord where
  text : List Char
  rest : List Char
  escapedBreak : Bool

def QuotedWord.cons (ch : Char) (w : QuotedWord) : QuotedWord :=
  { w with text := ch :: w.text }

/-- A word between single quotes, where a quote is written twice. -/
def singleQuotedWord : List Char → QuotedWord
  | '\x27' :: '\x27' :: rest => (singleQuotedWord rest).cons '\x27'
  | c :: rest =>
    if c == '\x27' || isGap c || isBreak c then ⟨[], c :: rest, false⟩
    else (singleQuotedWord rest).cons c
  | [] => ⟨[], [], false⟩

/-- A word between double quotes. A backslash starts an escape. -/
def doubleQuotedWord? : Nat → List Char → Option QuotedWord
  | 0, _ => none
  | fuel + 1, cs =>
    match cs with
    | [] => some ⟨[], [], false⟩
    | '\\' :: c :: rest =>
      if isBreak c then some ⟨[], rest, true⟩
      else
        match escapeWidth? c with
        | some width => do
          let ch ← hexChar? width rest
          (doubleQuotedWord? fuel (rest.drop width)).map (·.cons ch)
        | none => do
          let ch ← escape? c
          (doubleQuotedWord? fuel rest).map (·.cons ch)
    | ['\\'] => none
    | c :: rest =>
      if c == '\x22' || isGap c || isBreak c then some ⟨[], c :: rest, false⟩
      else (doubleQuotedWord? fuel rest).map (·.cons c)

def quotedWord? (quote : Char) (cs : List Char) : Option QuotedWord :=
  if quote == '\x27' then some (singleQuotedWord cs) else doubleQuotedWord? (cs.length + 1) cs

/-- Goes on with a quoted scalar after some text. -/
def quotedWords? (quote : Char) : Nat → Cursor → List Char → Option (List Char × Cursor)
  | 0, _, _ => none
  | fuel + 1, c, text =>
    if c.atDocumentMark || c.rest.isEmpty then none
    else do
      let word ← quotedWord? quote c.rest
      let c := c.goTo word.rest
      let text := text ++ word.text
      if c.isAt quote then return (text, c.next)
      let (gap, c) ← Gap.read? 0 c
      quotedWords? quote fuel c (text ++ if word.escapedBreak then gap.breaks else gap.text)

def quotedScalar? (quote : Char) (c : Cursor) : Option (List Char × Cursor) :=
  quotedWords? quote (c.rest.length + 1) c []

/-! ## Block scalars -/

/-- What becomes of the line breaks at the end of a block scalar. -/
inductive Chomping where
  | strip
  | clip
  | keep
deriving DecidableEq

/-- The marks after the sign that opens a block scalar: how its end is treated, and by how much it
is indented. The two come in either order. -/
def blockHeader? (cs : List Char) : Option (Chomping × Option Nat × List Char) :=
  let chomping (c : Char) : Option Chomping :=
    if c == '+' then some .keep else if c == '-' then some .strip else none
  let digit? (c : Char) : Option Nat := if c.isDigit then some (c.toNat - '0'.toNat) else none
  let finish (mode : Chomping) (step : Option Nat) (rest : List Char) :
      Option (Chomping × Option Nat × List Char) :=
    if step = some 0 then none else some (mode, step, rest)
  match cs with
  | [] => some (.clip, none, [])
  | c :: rest =>
    match chomping c, digit? c with
    | some mode, _ =>
      match rest with
      | d :: tail => if d.isDigit then finish mode (digit? d) tail else some (mode, none, rest)
      | [] => some (mode, none, [])
    | none, some step =>
      match rest with
      | d :: tail =>
        match chomping d with
        | some mode => finish mode (some step) tail
        | none => finish .clip (some step) rest
      | [] => finish .clip (some step) []
    | none, none => some (.clip, none, cs)

/-- Passes empty lines and the indentation of the next line. Gives the line breaks, the deepest
column seen and the place. Without a limit all spaces are indentation. -/
def blockBreaks? (limit : Option Nat) :
    Nat → Cursor → List Char → Nat → Option (List Char × Nat × Cursor)
  | 0, _, _, _ => none
  | fuel + 1, c, breaks, deepest =>
    let spaces := (c.rest.takeWhile (· == ' ')).length
    let c := c.drop (limit.elim spaces fun l => min spaces (l - c.column))
    let deepest := max deepest c.column
    if c.isAt '\t' && limit.all (c.column < ·) then none
    else
      match c.rest with
      | ch :: _ =>
        if isBreak ch then blockBreaks? limit fuel c.next (breaks ++ [ch]) deepest
        else some (breaks, deepest, c)
      | [] => some (breaks, deepest, c)

/-- The line breaks that wait for the next line: the one that ended the last line, and those of
empty lines. -/
structure PendingBreaks where
  ending : List Char
  empty : List Char
  /-- The last line started with a blank. -/
  afterBlank : Bool

/-- Goes on with the lines of a block scalar. A folded scalar joins lines that do not start with a
blank. -/
def blockLines? (folded : Bool) (indent : Nat) :
    Nat → Cursor → List Char → PendingBreaks → Option (List Char × PendingBreaks × Cursor)
  | 0, _, _, _ => none
  | fuel + 1, c, text, pending =>
    if c.column == indent && !c.rest.isEmpty then do
      let startsBlank := c.rest.head?.any isGap
      let joint :=
        if folded && pending.ending == ['\n'] && !pending.afterBlank && !startsBlank then
          if pending.empty.isEmpty then [' '] else pending.empty
        else pending.ending ++ pending.empty
      let line := c.rest.takeWhile fun ch => !isBreak ch
      let c := c.drop line.length
      let ending := c.rest.head?.toList
      let c := c.next
      let (empty, _, c) ← blockBreaks? (some indent) (c.rest.length + 1) c [] 0
      blockLines? folded indent fuel c (text ++ joint ++ line) ⟨ending, empty, startsBlank⟩
    else some (text, pending, c)

/-- The block scalar after its opening sign, inside a collection at the given column. -/
def blockScalar? (folded : Bool) (parent : Int) (c : Cursor) : Option (List Char × Cursor) := do
  let (chomping, step, rest) ← blockHeader? c.rest
  let c := (c.goTo rest).skipWhile isGap
  let c := if c.isAt '#' then c.skipLine else c
  if !c.rest.isEmpty && !(c.rest.head?.any isBreak) then none
  let c := c.next
  let given := step.map fun s => (max parent 0).toNat + s
  let (empty, deepest, c) ← blockBreaks? given (c.rest.length + 1) c [] 0
  let indent := given.getD (max deepest (max (parent + 1).toNat 1))
  let (text, pending, c) ← blockLines? folded indent (c.rest.length + 1) c [] ⟨[], empty, false⟩
  let ending :=
    match chomping with
    | .strip => []
    | .clip => pending.ending
    | .keep => pending.ending ++ pending.empty
  return (text ++ ending, c)

end ConstraintLogic.Yaml
