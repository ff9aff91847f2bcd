import ConstraintLogic.Yaml.Draft
/-!
# YAML nodes

The tree that a YAML document is, with aliases replaced by what they stand for. What a plain scalar
stands for is left open.
-/

namespace ConstraintLogic.Yaml

inductive Node where
  | scalar (text : String) (style : ScalarStyle) (tag : Option Tag)
  | list (items : List Node) (tag : Option Tag)
  | map (entries : List (Node × Node)) (tag : Option Tag)
deriving Repr, Inhabited

namespace Node

/-- Follows aliases. The state is how many may still be followed. -/
abbrev Follow := StateT Nat Option

/-- What a draft stands for where the anchors are these. -/
def follow (anchors : List (Nat × Draft)) : Draft → Follow Draft
  | .alias number => do
    let budget ← get
    if budget = 0 then failure
    set (budget - 1)
    match anchors.lookup number with
    | some d => return d
    | none => failure
  | .anchored _ d => return d
  | d => return d

/-- The node that a draft stands for, with so many collections inside each other at most. -/
def expand (anchors : List (Nat × Draft)) : Nat → Draft → Follow Node
  | 0, d => do
    match ← follow anchors d with
    | .scalar text style tag => return scalar text style tag
    | _ => failure
  | depth + 1, d => do
    match ← follow anchors d with
    | .scalar text style tag => return scalar text style tag
    | .list items tag => return list (← items.mapM (expand anchors depth)) tag
    | .map entries tag =>
      let entries ← entries.mapM fun (k, v) => do
        return (← expand anchors depth k, ← expand anchors depth v)
      return map entries tag
    | .alias _ | .anchored .. => failure

/-- The most collections that may stand inside each other. -/
def depthLimit : Nat := 128

/-- How often aliases may be followed for each part that is written. -/
def aliasLimit : Nat := 100

/-- The node that a document stands for. Of anchors with the same number the last one counts. -/
def ofDraft? (d : Draft) : Option Node :=
  (expand d.anchors.reverse depthLimit d).run' (aliasLimit * d.size)

end Node

end ConstraintLogic.Yaml
