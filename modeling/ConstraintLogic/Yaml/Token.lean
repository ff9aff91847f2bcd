import ConstraintLogic.Yaml.Tag
/-!
# YAML tokens

The tokens of a YAML text. Block structure, which the text shows by columns, is shown by tokens
that open and close collections; a key is announced by a token of its own in front of it.
-/

namespace ConstraintLogic.Yaml

/-- How a scalar is written. -/
inductive ScalarStyle where
  | plain
  | quoted
  /-- As a block of lines that stay apart. -/
  | literal
  /-- As a block of lines that are joined. -/
  | folded
deriving DecidableEq, Repr

inductive Token where
  | versionDirective (major minor : Nat)
  | tagDirective (handle : String) (expansion : List UInt8)
  | documentStart
  | documentEnd
  | streamEnd
  | blockListStart
  | blockMapStart
  | blockEnd
  | flowListStart
  | flowListEnd
  | flowMapStart
  | flowMapEnd
  /-- The dash in front of an item. -/
  | item
  /-- The comma after an item of a flow collection. -/
  | comma
  | key
  | value
  | anchor (name : String)
  | alias (name : String)
  /-- A tag with an empty handle is given in full. -/
  | tag (handle : String) (suffix : List UInt8)
  | scalar (text : String) (style : ScalarStyle)
deriving DecidableEq, Repr, Inhabited

end ConstraintLogic.Yaml
