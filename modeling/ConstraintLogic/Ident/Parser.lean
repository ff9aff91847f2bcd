import ConstraintLogic.Fault
/-!
# Reading identifiers

Outside texts name entities in dotted form. Here no segment may be empty, so that each accepted
text names one identifier and is the dotted form of it.
-/

namespace ConstraintLogic.Ident

def parse (text : String) : Except Fault Ident :=
  if text = "" then .error (.format .identEmpty)
  else if "" ∈ (ofDotted text).segments then .error (.format (.segmentEmpty text))
  else .ok (ofDotted text)

theorem parse_eq_ok_iff {text : String} {id : Ident} :
    parse text = .ok id ↔
      text ≠ "" ∧ "" ∉ (ofDotted text).segments ∧ ofDotted text = id := by
  unfold parse
  split
  · simp [*]
  · split <;> simp [*]

theorem ofDotted_of_parse {text : String} {id : Ident} (h : parse text = .ok id) :
    ofDotted text = id :=
  (parse_eq_ok_iff.1 h).2.2

end ConstraintLogic.Ident
