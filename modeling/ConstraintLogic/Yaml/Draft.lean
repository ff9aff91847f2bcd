import ConstraintLogic.Yaml.Token
/-!
# Drafts of nodes

The tree that a YAML document is, as it is written: an alias is only the number of the anchor that
it names. What a plain scalar stands for is left open. A text holds one document.
-/

namespace ConstraintLogic.Yaml

inductive Draft where
  | alias (number : Nat)
  | anchored (number : Nat) (d : Draft)
  | scalar (text : String) (style : ScalarStyle) (tag : Option Tag)
  | list (items : List Draft) (tag : Option Tag)
  | map (entries : List (Draft × Draft)) (tag : Option Tag)
deriving Repr, Inhabited

namespace Draft

/-- What stands where nothing is written. -/
def blank : Draft := .scalar "" .plain none

mutual

def size : Draft → Nat
  | .alias _ | .scalar .. => 1
  | .anchored _ d => d.size
  | .list items _ => 2 + sizeOfItems items
  | .map entries _ => 2 + sizeOfEntries entries

def sizeOfItems : List Draft → Nat
  | [] => 0
  | d :: rest => d.size + sizeOfItems rest

def sizeOfEntries : List (Draft × Draft) → Nat
  | [] => 0
  | (k, v) :: rest => k.size + v.size + sizeOfEntries rest

end

mutual

def anchors : Draft → List (Nat × Draft)
  | .alias _ | .scalar .. => []
  | .anchored number d => (number, d) :: d.anchors
  | .list items _ => anchorsOfItems items
  | .map entries _ => anchorsOfEntries entries

def anchorsOfItems : List Draft → List (Nat × Draft)
  | [] => []
  | d :: rest => d.anchors ++ anchorsOfItems rest

def anchorsOfEntries : List (Draft × Draft) → List (Nat × Draft)
  | [] => []
  | (k, v) :: rest => k.anchors ++ v.anchors ++ anchorsOfEntries rest

end

/-! ## Reading -/

/-- What is left to read, and what names stand for. -/
structure Reader where
  tokens : List Token
  /-- The number that each anchor was given last. -/
  numbers : List (String × Nat)
  /-- What the handles of tags stand for. -/
  handles : List (String × List UInt8)

abbrev Read := StateT Reader Option

def peek : Read Token := do
  match (← get).tokens with
  | t :: _ => return t
  | [] => failure

def advance : Read Unit :=
  modify fun r => { r with tokens := r.tokens.tail }

def expect (t : Token) : Read Unit := do
  if (← peek) == t then advance else failure

/-- Numbers an anchor by how many different names anchors have had so far. So a name that comes
again may get the number that the next new name gets as well. -/
def number (name : String) : Read Nat := do
  let numbers := (← get).numbers
  modify fun r => { r with numbers := (name, numbers.length) :: numbers.filter (·.1 != name) }
  return numbers.length

/-- The number that an anchor has here. -/
def numberOf (name : String) : Read Nat := do
  match (← get).numbers.lookup name with
  | some n => return n
  | none => failure

def resolveTag (handle : String) (suffix : List UInt8) : Read Tag := do
  if handle.isEmpty then return .ofOctets suffix
  match (← get).handles.lookup handle with
  | some expansion => return .ofOctets (expansion ++ suffix)
  | none => failure

/-- The anchor and the tag in front of a node, in either order. -/
def properties : Read (Option String × Option Tag) := do
  match ← peek with
  | .anchor name =>
    advance
    match ← peek with
    | .tag handle suffix =>
      advance
      return (some name, some (← resolveTag handle suffix))
    | _ => return (some name, none)
  | .tag handle suffix =>
    advance
    let tag ← resolveTag handle suffix
    match ← peek with
    | .anchor name =>
      advance
      return (some name, some tag)
    | _ => return (none, some tag)
  | _ => return (none, none)

/-- Where a node stands, which decides what it may be. -/
inductive Place where
  | flow
  | block
  /-- In a block map, where a list need not be indented. -/
  | mapEntry
deriving DecidableEq

def endsMapEntry : Token → Bool
  | .key | .value | .blockEnd => true
  | _ => false

mutual

/-- The node that starts here. -/
def read (place : Place) : Nat → Read Draft
  | 0 => failure
  | fuel + 1 => do
    if let .alias name := ← peek then
      advance
      return .alias (← numberOf name)
    else
      match ← properties with
      | (some name, tag) => return .anchored (← number name) (← content place true tag fuel)
      | (none, tag) => content place tag.isSome tag fuel

/-- What follows the properties of a node, if it has some. -/
def content (place : Place) (hasProperties : Bool) (tag : Option Tag) : Nat → Read Draft
  | 0 => failure
  | fuel + 1 => do
    match ← peek with
    | .item =>
      if place = .mapEntry then return .list (← looseItems fuel) tag
      else if hasProperties then return .scalar "" .plain tag
      else failure
    | .scalar text style =>
      advance
      return .scalar text style tag
    | .flowListStart =>
      advance
      return .list (← flowItems true fuel) tag
    | .flowMapStart =>
      advance
      return .map (← flowEntries true fuel) tag
    | .blockListStart =>
      if place = .flow then failure
      advance
      return .list (← blockItems fuel) tag
    | .blockMapStart =>
      if place = .flow then failure
      advance
      return .map (← blockEntries fuel) tag
    | _ => if hasProperties then return .scalar "" .plain tag else failure

def blockItems : Nat → Read (List Draft)
  | 0 => failure
  | fuel + 1 => do
    match ← peek with
    | .item =>
      advance
      let n ← match ← peek with
        | .item | .blockEnd => pure blank
        | _ => read .block fuel
      return n :: (← blockItems fuel)
    | .blockEnd =>
      advance
      return []
    | _ => failure

/-- The items of a list that is not indented, which ends without a token of its own. -/
def looseItems : Nat → Read (List Draft)
  | 0 => failure
  | fuel + 1 => do
    match ← peek with
    | .item =>
      advance
      let next ← peek
      let n ← if next == .item || endsMapEntry next then pure blank else read .block fuel
      return n :: (← looseItems fuel)
    | _ => return []

def blockEntries : Nat → Read (List (Draft × Draft))
  | 0 => failure
  | fuel + 1 => do
    match ← peek with
    | .key =>
      advance
      let k ← if endsMapEntry (← peek) then pure blank else read .mapEntry fuel
      let v ← blockValue fuel
      return (k, v) :: (← blockEntries fuel)
    | .blockEnd =>
      advance
      return []
    | _ => failure

def blockValue : Nat → Read Draft
  | 0 => failure
  | fuel + 1 => do
    match ← peek with
    | .value =>
      advance
      if endsMapEntry (← peek) then pure blank else read .mapEntry fuel
    | _ => return blank

/-- The items of a flow list, to its end. An item may be a map of one entry without braces. -/
def flowItems (first : Bool) : Nat → Read (List Draft)
  | 0 => failure
  | fuel + 1 => do
    if (← peek) == .flowListEnd then
      advance
      return []
    if !first then expect .comma
    match ← peek with
    | .flowListEnd =>
      advance
      return []
    | .key =>
      advance
      let k ← match ← peek with
        | .value | .comma | .flowListEnd => do
          advance
          pure blank
        | _ => read .flow fuel
      let v ← flowValue .flowListEnd fuel
      return .map [(k, v)] none :: (← flowItems false fuel)
    | _ =>
      let n ← read .flow fuel
      return n :: (← flowItems false fuel)

/-- The entries of a flow map, to its end. A key may stand without a value. -/
def flowEntries (first : Bool) : Nat → Read (List (Draft × Draft))
  | 0 => failure
  | fuel + 1 => do
    if (← peek) == .flowMapEnd then
      advance
      return []
    if !first then expect .comma
    match ← peek with
    | .flowMapEnd =>
      advance
      return []
    | .key =>
      advance
      let k ← match ← peek with
        | .value | .comma | .flowMapEnd => pure blank
        | _ => read .flow fuel
      let v ← flowValue .flowMapEnd fuel
      return (k, v) :: (← flowEntries false fuel)
    | _ =>
      let k ← read .flow fuel
      return (k, blank) :: (← flowEntries false fuel)

/-- The value of an entry of a flow collection that ends with this token. -/
def flowValue (ending : Token) : Nat → Read Draft
  | 0 => failure
  | fuel + 1 => do
    match ← peek with
    | .value =>
      advance
      let next ← peek
      if next == .comma || next == ending then pure blank else read .flow fuel
    | _ => return blank

end

/-- The directives in front of a document; each handle is declared once. -/
def directives (version : Bool) (declared : List String) : Nat → Read Unit
  | 0 => failure
  | fuel + 1 => do
    match ← peek with
    | .versionDirective major minor =>
      if version || major != 1 || (minor != 1 && minor != 2) then failure
      advance
      directives true declared fuel
    | .tagDirective handle expansion =>
      if declared.contains handle then failure
      advance
      modify fun r => { r with handles := (handle, expansion) :: r.handles }
      directives version (handle :: declared) fuel
    | .documentStart => advance
    | _ => failure

def endsDocument : Token → Bool
  | .versionDirective .. | .tagDirective .. | .documentStart | .documentEnd | .streamEnd => true
  | _ => false

/-- Passes the marks that end documents. -/
def documentEnds : Nat → Read Unit
  | 0 => failure
  | fuel + 1 => do
    if (← peek) == .documentEnd then
      advance
      documentEnds fuel

def document (fuel : Nat) : Read Draft := do
  match ← peek with
  | .streamEnd => return blank
  | .versionDirective .. | .tagDirective .. | .documentStart =>
    directives false [] fuel
    let n ← if endsDocument (← peek) then pure blank else read .block fuel
    documentEnds fuel
    expect .streamEnd
    return n
  | _ =>
    let n ← read .block fuel
    documentEnds fuel
    expect .streamEnd
    return n

def ofTokens? (tokens : List Token) : Option Draft :=
  (document (4 * tokens.length + 4)).run' ⟨tokens, [], Tag.standardHandles⟩

/-- An alias goes with the number that its name has where it stands. -/
example :
    ofTokens? [.flowListStart, .anchor "a", .scalar "1" .plain, .comma, .anchor "a",
      .scalar "2" .plain, .comma, .alias "a", .flowListEnd, .streamEnd] =
    some (.list [.anchored 0 (.scalar "1" .plain none), .anchored 1 (.scalar "2" .plain none),
      .alias 1] none) := by
  rfl

end Draft

end ConstraintLogic.Yaml
