import ConstraintLogic.Description.Load
import ConstraintLogic.Yaml.Parser
/-!
# Descriptions as texts
-/

namespace ConstraintLogic.Description

/-- Why there is no graph. -/
inductive Failure where
  /-- There is no such file, or it cannot be read. -/
  | unreadable
  /-- The text is not YAML, or not a document. -/
  | malformed
  | fault (cause : Fault)

namespace Failure

def faultMessage (cause : Fault) : String :=
  s!"Graph error: {cause.message}"

end Failure

def Document.parse? (text : String) : Option Document :=
  (Yaml.Node.parse? text).bind Document.ofNode?

/-- A new graph with the contents of a document. -/
def Document.load (d : Document) : Except Failure (Report × Graph) :=
  match (loadInto d).run ∅ with
  | .ok report g => .ok (report, g)
  | .error cause _ => .error (.fault cause)

/-- The graph that a text describes, and what was left out. -/
def load (text : String) : Except Failure (Report × Graph) :=
  match Document.parse? text with
  | some d => d.load
  | none => .error .malformed

end ConstraintLogic.Description
