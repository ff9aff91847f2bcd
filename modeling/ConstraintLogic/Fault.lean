import ConstraintLogic.Decimal.Style
import ConstraintLogic.Ident.Basic
/-!
# Faults

Everything that can be refused, by its cause, and the one place that words it.
-/

namespace ConstraintLogic

/-- The kinds of entity that identifiers name. -/
inductive EntityKind where
  | vertex
  | edge
  | component
  | label
deriving DecidableEq, Repr

namespace EntityKind

def name : EntityKind → String
  | vertex => "vertex"
  | edge => "edge"
  | component => "component"
  | label => "label"

instance : ToString EntityKind := ⟨name⟩

end EntityKind

/-- What an entity refers to is absent, or does not refer back. -/
inductive Breach where
  | endpointMissing (edge endpoint : Ident)
  | notAnEndpoint (vertex edge source target : Ident)
  | endpointsGone (edge : Ident)
  | edgeNotListed (vertex edge : Ident)
  | listedEdgeMissing (vertex edge : Ident)
  | listedEdgeElsewhere (vertex edge : Ident)
  | flowUnbalanced (vertex : Ident) (total : Nat)
  | portMissing (port : String) (component : Ident)
  | portUntagged (port component : Ident)
deriving DecidableEq, Repr

namespace Breach

def message : Breach → String
  | endpointMissing edge endpoint => s!"edge {edge} references missing vertex {endpoint}"
  | notAnEndpoint vertex edge source target =>
    s!"vertex {vertex} is not an endpoint of edge {edge}({source} -> {target})"
  | endpointsGone edge => s!"edge {edge} has a missing endpoint"
  | edgeNotListed vertex edge => s!"vertex {vertex} does not list incident edge {edge}"
  | listedEdgeMissing vertex edge => s!"vertex {vertex} lists missing edge {edge}"
  | listedEdgeElsewhere vertex edge => s!"vertex {vertex} lists edge {edge} which does not touch it"
  | flowUnbalanced vertex total =>
    s!"flow of vertex {vertex} does not add up to its incident weight {total}"
  | portMissing port component => s!"port {port} of component {component} is missing"
  | portUntagged port component => s!"port {port} is not tagged with component {component}"

end Breach

/-- A text or a value does not have the form it should have. -/
inductive Malformation where
  | identEmpty
  | segmentEmpty (text : String)
  /-- The root scope was given as the name of an entity. -/
  | unnamed
  | notFinite (what : String) (value : Float)
  | weight (value : Nat)
  | alignment (word : String)
  | clauseBare (clause : String)
  | literal (text clause : String)
  | notQuantified (text : String)
  | boundTwice (letter : Char)
  | boundUnused (letter : Char)
  | bindingCount (bindings letters : Nat)
  | notAList
  | unexpectedValue (text : String)
  | coordinatesExpected
  | flag (word : String)
  | edgeExpected
  | edgeWeight (value : Float)
  | kindMissing
  | kindArgument (word : String)
  | variableLetter (text : String)
  | kind (word : String)
  | labelExpected

namespace Malformation

def message : Malformation → String
  | identEmpty => "empty identifier"
  | segmentEmpty text => s!"empty segment in identifier '{text}'"
  | unnamed => "empty id"
  | notFinite what value => s!"non-finite value for {what}: {Decimal.plain.render value}"
  | weight value => s!"edge weight must be 1 or 2, got {value}"
  | alignment word => s!"unknown alignment '{word}'"
  | clauseBare clause => s!"clause '{clause}' is not parenthesized"
  | literal text clause => s!"invalid literal '{text}' in clause '{clause}'"
  | notQuantified text => s!"'{text}' is not a QBF"
  | boundTwice letter => s!"variable '{letter}' bound twice"
  | boundUnused letter => s!"variable '{letter}' is bound but never used"
  | bindingCount bindings letters => s!"{bindings} quantifiers for {letters} formula variables"
  | notAList => "expected a list"
  | unexpectedValue text => s!"unexpected value {text}"
  | coordinatesExpected => "expected [x, y, ...]"
  | flag word => s!"unknown flag '{word}'"
  | edgeExpected => "expected [from, to?, weight?, flags...]"
  | edgeWeight value => s!"invalid weight {Decimal.plain.render value}"
  | kindMissing => "missing component kind"
  | kindArgument word => s!"{word} needs an argument"
  | variableLetter text => s!"'{text}' is not a single-letter variable"
  | kind word => s!"unknown component kind '{word}'"
  | labelExpected => "expected [x, y, text, halign?, valign?]"

end Malformation

/-- The cause for which an operation was refused. -/
inductive Fault where
  | duplicate (kind : EntityKind) (id : Ident)
  | notFound (kind : EntityKind) (id : Ident)
  | referential (breach : Breach)
  | format (malformation : Malformation)

namespace Fault

def message : Fault → String
  | duplicate kind id => s!"Duplicate id: {kind} {id} already exists"
  | notFound kind id => s!"Not found: {kind} {id}"
  | referential breach => s!"Referential integrity violated: {breach.message}"
  | format malformation => s!"Invalid format: {malformation.message}"

end Fault

end ConstraintLogic
