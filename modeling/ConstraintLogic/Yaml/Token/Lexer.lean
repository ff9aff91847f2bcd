import ConstraintLogic.Yaml.Token
import ConstraintLogic.Yaml.Token.Scalar
/-!
# Cutting a YAML text into tokens

Block collections open where a dash or a key stands further right than the last one, and close
where a line starts further left. A key without a question mark is known as one only when its colon
is seen; up to then its place is kept, and the tokens in front of it are put in there.
-/

namespace ConstraintLogic.Yaml

/-- The place of something that is a key if a colon follows. -/
structure PendingKey where
  /-- The number of tokens in front of it. -/
  position : Nat
  line : Nat
  column : Nat
  offset : Nat
  /-- Nothing but a key may stand there. -/
  required : Bool

/-- The tokens read so far, and what decides about the next one. -/
structure Lexer where
  cursor : Cursor
  /-- The column of the innermost block collection; -1 outside of all. -/
  indent : Int
  /-- The columns of the collections around it. -/
  outer : List Int
  /-- The pending key of each open flow collection, innermost first, and then that of the block. -/
  keys : List (Option PendingKey)
  /-- A key without a question mark may start here. -/
  keyAllowed : Bool
  tokens : Array Token

namespace Lexer

def start (text : List Char) : Lexer where
  cursor := .start text
  indent := -1
  outer := []
  keys := [none]
  keyAllowed := true
  tokens := #[]

def inFlow (l : Lexer) : Bool :=
  1 < l.keys.length

def push (l : Lexer) (t : Token) : Lexer :=
  { l with tokens := l.tokens.push t }

/-- The lexer past a token that takes so many characters. -/
def take (l : Lexer) (t : Token) (width : Nat) : Lexer :=
  { l with cursor := l.cursor.drop width, tokens := l.tokens.push t }

def allowKey (l : Lexer) (allowed : Bool) : Lexer :=
  { l with keyAllowed := allowed }

/-! ## Block collections -/

def closeBlocks (l : Lexer) (column : Int) : Lexer :=
  if l.inFlow then l else go l.outer l
where
  go : List Int → Lexer → Lexer
    | [], l => l
    | outer :: rest, l =>
      if column < l.indent then
        go rest { l with indent := outer, outer := rest, tokens := l.tokens.push .blockEnd }
      else l

/-- Opens a block collection at a column if it is further right than the last one. The token that
opens it goes to the given place. -/
def openBlock (l : Lexer) (column : Nat) (t : Token) (position : Nat) : Lexer :=
  if !l.inFlow && l.indent < column then
    { l with
      indent := column
      outer := l.indent :: l.outer
      tokens := l.tokens.insertIdxIfInBounds position t }
  else l

/-! ## Pending keys -/

/-- Gives up the innermost pending key; refused if nothing else may stand there. -/
def dropKey (l : Lexer) : Option Lexer :=
  match l.keys with
  | some key :: rest => if key.required then none else some { l with keys := none :: rest }
  | _ => some l

/-- Keeps this place for a key. -/
def saveKey (l : Lexer) : Option Lexer :=
  if l.keyAllowed then do
    let c := l.cursor
    let key : PendingKey :=
      { position := l.tokens.size
        line := c.line
        column := c.column
        offset := c.offset
        required := !l.inFlow && l.indent == c.column }
    let l ← l.dropKey
    return { l with keys := some key :: l.keys.drop 1 }
  else some l

/-- The most octets that a key may have. -/
def longestKey : Nat := 1024

/-- Gives up the pending keys that are on a line before or too far away. -/
def dropStaleKeys (l : Lexer) : Option Lexer := do
  let isStale (key : PendingKey) : Bool :=
    key.line < l.cursor.line || key.offset + longestKey < l.cursor.offset
  let keys ← l.keys.mapM fun
    | some key =>
      if isStale key then (if key.required then none else some none) else some (some key)
    | none => some none
  return { l with keys := keys }

/-! ## Between tokens -/

/-- Passes blanks, comments and line breaks. Tabs may not stand where a key may start, and a line
may start with a byte order mark. -/
def skipGap : Nat → Lexer → Lexer
  | 0, l => l
  | fuel + 1, l =>
    let c := l.cursor
    let c := if c.column == 0 && c.isAt '\ufeff' then c.next else c
    let c := c.skipWhile fun ch => ch == ' ' || (ch == '\t' && (l.inFlow || !l.keyAllowed))
    let c := if c.isAt '#' then c.skipLine else c
    if c.peek?.any isBreak then
      skipGap fuel { l with cursor := c.next, keyAllowed := l.keyAllowed || !l.inFlow }
    else { l with cursor := c }

/-! ## Tokens -/

/-- The end of the text closes everything. -/
def endStream (l : Lexer) : Option Lexer := do
  let l ← (l.closeBlocks (-1)).dropKey
  return (l.push .streamEnd).allowKey false

def documentMark (l : Lexer) (t : Token) : Option Lexer := do
  let l ← (l.closeBlocks (-1)).dropKey
  return (l.take t 3).allowKey false

def openFlow (l : Lexer) (t : Token) : Option Lexer := do
  let l ← l.saveKey
  return ({ l with keys := none :: l.keys }.take t 1).allowKey true

def closeFlow (l : Lexer) (t : Token) : Option Lexer := do
  let l ← l.dropKey
  let keys := if l.inFlow then l.keys.drop 1 else l.keys
  return ({ l with keys := keys }.take t 1).allowKey false

def comma (l : Lexer) : Option Lexer := do
  let l ← l.dropKey
  return (l.take .comma 1).allowKey true

/-- A dash opens a block collection unless it goes on with one. -/
def item (l : Lexer) : Option Lexer := do
  if !l.inFlow && !l.keyAllowed then none
  let l ← (l.openBlock l.cursor.column .blockListStart l.tokens.size).dropKey
  return (l.take .item 1).allowKey true

/-- A question mark announces a key. -/
def explicitKey (l : Lexer) : Option Lexer := do
  if !l.inFlow && !l.keyAllowed then none
  let l ← (l.openBlock l.cursor.column .blockMapStart l.tokens.size).dropKey
  return (l.take .key 1).allowKey !l.inFlow

/-- A colon makes a key of what is pending. Without that, the value stands alone. -/
def value (l : Lexer) : Option Lexer :=
  match l.keys with
  | some key :: rest =>
    let l :=
      { l with keys := none :: rest, tokens := l.tokens.insertIdxIfInBounds key.position .key }
    some (((l.openBlock key.column .blockMapStart key.position).take .value 1).allowKey false)
  | _ =>
    if !l.inFlow && !l.keyAllowed then none
    else
      let l := l.openBlock l.cursor.column .blockMapStart l.tokens.size
      some ((l.take .value 1).allowKey !l.inFlow)

/-- The name after `&` or `*`. -/
def name (l : Lexer) (token : String → Token) : Option Lexer := do
  let l ← l.saveKey
  let c := l.cursor.next
  let word := c.rest.takeWhile isWordChar
  let c := c.drop word.length
  let mayFollow := ['?', ':', ',', ']', '\x7d', '%', '@', '\x60']
  if word.isEmpty || !(atWordEnd c.rest || c.peek?.any mayFollow.contains) then none
  return { l with cursor := c }.push (token (String.ofList word)) |>.allowKey false

/-- The handle at the front of a tag: one exclamation mark, or a word between two. -/
def tagHandle? (cs : List Char) : Option (List Char × List Char) :=
  match cs with
  | '!' :: rest =>
    let word := rest.takeWhile isWordChar
    match rest.drop word.length with
    | '!' :: tail => some ('!' :: word ++ ['!'], tail)
    | tail => some ('!' :: word, tail)
  | _ => none

/-- The parts of a tag, and what is left. -/
def tagParts? (cs : List Char) : Option (String × List UInt8 × List Char) :=
  match cs with
  | '!' :: '<' :: rest => do
    let uri := rest.takeWhile (Tag.isTagChar true)
    match rest.drop uri.length with
    | '>' :: tail => if uri.isEmpty then none else return ("", ← Tag.decode? uri, tail)
    | _ => none
  | _ => do
    let (handle, rest) ← tagHandle? cs
    let uri := rest.takeWhile (Tag.isTagChar false)
    let tail := rest.drop uri.length
    if 1 < handle.length && handle.getLast? == some '!' then
      if uri.isEmpty then none else return (String.ofList handle, ← Tag.decode? uri, tail)
    else
      let suffix ← Tag.decode? (handle.drop 1 ++ uri)
      return if suffix.isEmpty then ("", [0x21], tail) else ("!", suffix, tail)

def tag (l : Lexer) : Option Lexer := do
  let l ← l.saveKey
  let (handle, suffix, rest) ← tagParts? l.cursor.rest
  if !(atWordEnd rest || (l.inFlow && rest.head? == some ',')) then none
  return { l with cursor := l.cursor.goTo rest }.push (.tag handle suffix) |>.allowKey false

def blockScalar (l : Lexer) (folded : Bool) : Option Lexer := do
  let l ← l.dropKey
  let (text, c) ← blockScalar? folded l.indent l.cursor.next
  let style := if folded then ScalarStyle.folded else .literal
  return { l with cursor := c }.push (.scalar (String.ofList text) style) |>.allowKey true

def quotedScalar (l : Lexer) (quote : Char) : Option Lexer := do
  let l ← l.saveKey
  let (text, c) ← quotedScalar? quote l.cursor.next
  return { l with cursor := c }.push (.scalar (String.ofList text) .quoted) |>.allowKey false

def plainScalar (l : Lexer) : Option Lexer := do
  let l ← l.saveKey
  let (text, c, broken) ← plainScalar? l.inFlow (l.indent + 1).toNat l.cursor
  return { l with cursor := c }.push (.scalar (String.ofList text) .plain) |>.allowKey broken

/-! ## Directives -/

/-- A number of at most nine digits. -/
def versionNumber? (cs : List Char) : Option (Nat × List Char) := do
  let digits := cs.takeWhile Char.isDigit
  if 9 < digits.length then none
  let n ← (String.ofList digits).toNat?
  return (n, cs.drop digits.length)

/-- The token of a directive after its percent sign, and what is left. -/
def directiveToken? (cs : List Char) : Option (Token × List Char) := do
  let word := cs.takeWhile isWordChar
  let rest := cs.drop word.length
  if word.isEmpty || !atWordEnd rest then none
  let rest := rest.dropWhile isGap
  match String.ofList word with
  | "YAML" =>
    let (major, rest) ← versionNumber? rest
    match rest with
    | '.' :: rest =>
      let (minor, rest) ← versionNumber? rest
      return (.versionDirective major minor, rest)
    | _ => none
  | "TAG" =>
    let (handle, rest) ← tagHandle? rest
    if 1 < handle.length && handle.getLast? != some '!' then none
    if !(rest.head?.any isGap) then none
    let rest := rest.dropWhile isGap
    let uri := rest.takeWhile (Tag.isTagChar true)
    let tail := rest.drop uri.length
    if uri.isEmpty || !atWordEnd tail then none
    return (.tagDirective (String.ofList handle) (← Tag.decode? uri), tail)
  | _ => none

def directive (l : Lexer) : Option Lexer := do
  let l ← (l.closeBlocks (-1)).dropKey
  let (t, rest) ← directiveToken? l.cursor.next.rest
  let c := (l.cursor.goTo rest).skipWhile isGap
  let c := if c.isAt '#' then c.skipLine else c
  if !c.rest.isEmpty && !(c.peek?.any isBreak) then none
  return { l with cursor := c.next }.push t |>.allowKey false

/-! ## The text -/

/-- The characters that a plain scalar may not start with. -/
def isIndicator (c : Char) : Bool :=
  "-?:,[]#&*!|>\x27\x22%@\x60\x7b\x7d".toList.contains c

/-- Reads the token that starts here. -/
def token (l : Lexer) : Option Lexer :=
  let c := l.cursor
  match c.rest with
  | [] => l.endStream
  | ch :: rest =>
    let alone := atWordEnd rest
    if c.column == 0 && ch == '%' then l.directive
    else if c.atDocumentMark then
      l.documentMark (if ch == '-' then .documentStart else .documentEnd)
    else if ch == '[' then l.openFlow .flowListStart
    else if ch == '\x7b' then l.openFlow .flowMapStart
    else if ch == ']' then l.closeFlow .flowListEnd
    else if ch == '\x7d' then l.closeFlow .flowMapEnd
    else if ch == ',' then l.comma
    else if ch == '-' && alone then l.item
    else if ch == '?' && (l.inFlow || alone) then l.explicitKey
    else if ch == ':' && (l.inFlow || alone) then l.value
    else if ch == '*' then l.name .alias
    else if ch == '&' then l.name .anchor
    else if ch == '!' then l.tag
    else if (ch == '|' || ch == '>') && !l.inFlow then l.blockScalar (ch == '>')
    else if ch == '\x27' || ch == '\x22' then l.quotedScalar ch
    else if !isIndicator ch && !isGap ch || ch == '-' ||
        (!l.inFlow && (ch == '?' || ch == ':')) then
      l.plainScalar
    else none

/-- Reads tokens until the text is over. -/
def run? : Nat → Lexer → Option (Array Token)
  | 0, _ => none
  | fuel + 1, l => do
    let l := skipGap (l.cursor.rest.length + 1) l
    let l ← l.dropStaleKeys
    let l ← (l.closeBlocks l.cursor.column).token
    if l.tokens.back? == some .streamEnd then return l.tokens
    run? fuel l

end Lexer

def tokens? (text : String) : Option (List Token) :=
  let cs := text.toList
  if cs.all isAllowed then
    (Lexer.run? (cs.length + 2) (.start (normalizeBreaks cs))).map Array.toList
  else none

end ConstraintLogic.Yaml
