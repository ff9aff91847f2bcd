/-!
# YAML values

What a YAML text says, with scalars resolved.
-/

namespace ConstraintLogic.Yaml

inductive Value where
  | null
  | bool (b : Bool)
  | int (n : Int)
  | float (x : Float)
  | string (s : String)
  | list (items : List Value)
  /-- The entries in the order in which they are written. -/
  | map (entries : List (Value × Value))
  /-- The name is that of a tag that is not one of the standard ones. -/
  | tagged (name : String) (v : Value)
deriving Inhabited, Repr

namespace Value

mutual

/-- Values that may not both be keys of one map. The order of entries does not matter. -/
def same : Value → Value → Bool
  | .null, .null => true
  | .bool a, .bool b => a == b
  | .int a, .int b => a == b
  | .float a, .float b => a == b || (a.isNaN && b.isNaN)
  | .string a, .string b => a == b
  | .list as, .list bs => sameItems as bs
  | .map as, .map bs => as.length == bs.length && sameEntries as bs
  | .tagged t a, .tagged u b => t == u && same a b
  | _, _ => false

def sameItems : List Value → List Value → Bool
  | [], [] => true
  | a :: as, b :: bs => same a b && sameItems as bs
  | _, _ => false

/-- Each entry has one with the same key and the same value. -/
def sameEntries : List (Value × Value) → List (Value × Value) → Bool
  | [], _ => true
  | (k, v) :: rest, others => sameEntry k v others && sameEntries rest others

def sameEntry (k v : Value) : List (Value × Value) → Bool
  | [] => false
  | (l, w) :: rest => (same k l && same v w) || sameEntry k v rest

end

end Value

end ConstraintLogic.Yaml
