/-!
# The characters of YAML
-/

namespace ConstraintLogic.Yaml

/-- Line feeds in place of all line breaks but the separators of lines and paragraphs. -/
def normalizeBreaks : List Char → List Char
  | '\r' :: '\n' :: rest => '\n' :: normalizeBreaks rest
  | c :: rest => (if c == '\r' || c == '\u0085' then '\n' else c) :: normalizeBreaks rest
  | [] => []

def isGap (c : Char) : Bool :=
  c == ' ' || c == '\t'

def isBreak (c : Char) : Bool :=
  c == '\n' || c == '\u2028' || c == '\u2029'

/-- Only these characters may stand in a text. -/
def isAllowed (c : Char) : Bool :=
  let n := c.toNat
  n == 0x9 || n == 0xA || n == 0xD || (0x20 ≤ n && n ≤ 0x7E) || n == 0x85 ||
    (0xA0 ≤ n && n ≤ 0xFFFD) || 0x10000 ≤ n

def isAnyBreak (c : Char) : Bool :=
  isBreak c || c == '\r' || c == '\u0085'

def isWordChar (c : Char) : Bool :=
  c.isAlphanum || c == '_' || c == '-'

end ConstraintLogic.Yaml
