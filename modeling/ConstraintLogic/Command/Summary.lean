import ConstraintLogic.Command.Json
import ConstraintLogic.Graph.Pass
/-!
# Summaries

What the command line tells about a graph: how much there is of each kind, and what a validation
found.
-/

namespace ConstraintLogic.Command

structure Summary where
  vertices : Nat
  edges : Nat
  components : Nat
  /-- How many of the components bind a letter. -/
  quantifiers : Nat
  labels : Nat
  validation : Validation

namespace Summary

def of (g : Graph) (validation : Validation) : Summary where
  vertices := g.vertices.size
  edges := g.edges.size
  components := g.components.size
  quantifiers := g.components.toList.countP fun (_, c) => c.gadget.isQuantifier
  labels := g.labels.size
  validation := validation

def counts (s : Summary) : String :=
  s!"  {s.vertices} vertices, {s.edges} edges, " ++
    s!"{s.components} components ({s.quantifiers} quantifiers), {s.labels} labels"

def latchLine (change : Ident × Bool) : String :=
  s!"  latch {change.1} -> " ++ (if change.2 then "set" else "clear")

def verdictLines (s : Summary) : List String :=
  if s.validation.allSatisfied then ["✓ All constraints satisfied"]
  else
    s!"✗ {s.validation.unsatisfied.length} unsatisfied vertices:" ::
      s.validation.unsatisfied.map fun id => s!"    {id}"

def lines (s : Summary) : List String :=
  s.counts :: s.validation.latchChanges.map latchLine ++ s.verdictLines

def json (s : Summary) : Json :=
  let change (c : Ident × Bool) : Json := .array [.string c.1.dotted, .bool c.2]
  .object
    [("vertices", .nat s.vertices),
     ("edges", .nat s.edges),
     ("components", .nat s.components),
     ("quantifiers", .nat s.quantifiers),
     ("labels", .nat s.labels),
     ("satisfied", .bool s.validation.allSatisfied),
     ("unsatisfied", .array (s.validation.unsatisfied.map fun id => .string id.dotted)),
     ("latch_changes", .array (s.validation.latchChanges.map change))]

end Summary

end ConstraintLogic.Command
