import ConstraintLogic.Geometry
import ConstraintLogic.Yaml.Resolve
/-!
# Documents

The description of a graph: sections of named entries, and groups, which are documents themselves.
An entry is any value; whether it makes sense is seen when it is loaded.
-/

namespace ConstraintLogic.Description

/-- Values under different keys, in the order of the keys. -/
abbrev Section (α : Type) := List (String × α)

namespace Section

variable {α : Type}

def insert (key : String) (a : α) : Section α → Section α
  | [] => [(key, a)]
  | (k, b) :: rest =>
    if key = k then (key, a) :: rest
    else if key < k then (key, a) :: (k, b) :: rest
    else (k, b) :: insert key a rest

theorem mem_insert {key : String} {a : α} {s : Section α} {p : String × α}
    (h : p ∈ insert key a s) : p = (key, a) ∨ p ∈ s := by
  induction s with
  | nil => simpa [insert] using h
  | cons q rest ih =>
    rw [insert] at h
    grind

end Section

structure Document where
  /-- Where the contents lie; at the origin if it is not given. -/
  position : Option Point
  vertices : Section Yaml.Value
  edges : Section Yaml.Value
  components : Section Yaml.Value
  labels : Section Yaml.Value
  groups : List (String × Document)

namespace Document

def empty : Document := ⟨none, [], [], [], [], []⟩

instance : Inhabited Document := ⟨empty⟩

/-- How far the contents are moved. -/
def offset (d : Document) : Point :=
  d.position.getD .origin

end Document

open Yaml (Node Value)

/-- Nothing is written; this counts as an empty map. -/
def isBlank : Node → Bool
  | .scalar text .plain _ => text.isEmpty
  | _ => false

/-- A coordinate is a scalar that reads as a double: a plain one, or a literal block with the tag of
doubles. -/
def coordinate? : Node → Option Float
  | .scalar text .plain _ | .scalar text .literal (some .float) => Yaml.float? text
  | _ => none

/-- Two coordinates, or nothing. Under a tag nothing is written as null. -/
def position? : Node → Option (Option Point)
  | .scalar text .plain none => if text.isEmpty || Yaml.isNull text then some none else none
  | .scalar text .plain (some .null) => if Yaml.isNull text then some none else none
  | .list [x, y] _ => do return some ⟨← coordinate? x, ← coordinate? y⟩
  | _ => none

/-- A section; of entries with the same key the last one counts. -/
def section? : Node → Option (Section Value)
  | .map entries _ =>
    entries.foldlM
      (fun s (k, v) =>
        match k with
        | .scalar key .. => (Value.ofNode? v).map fun a => Section.insert key a s
        | _ => none)
      []
  | n => if isBlank n then some [] else none

mutual

/-- The description that a node writes. Only the known fields may stand there, each once. -/
def Document.ofNode? : Node → Option Document
  | .map entries _ => fields? [] .empty entries
  | .scalar text style tag => if isBlank (.scalar text style tag) then some .empty else none
  | .list .. => none

def fields? (seen : List String) (d : Document) : List (Node × Node) → Option Document
  | [] => some d
  | (k, v) :: rest =>
    match k with
    | .scalar name .. =>
      if seen.contains name then none
      else do
        let d ← match name with
          | "position" => (position? v).map fun p => { d with position := p }
          | "vertices" => (section? v).map fun s => { d with vertices := s }
          | "edges" => (section? v).map fun s => { d with edges := s }
          | "components" => (section? v).map fun s => { d with components := s }
          | "labels" => (section? v).map fun s => { d with labels := s }
          | "groups" => (groups? v).map fun s => { d with groups := s }
          | _ => none
        fields? (name :: seen) d rest
    | _ => none

/-- The groups of a document; of groups with the same name the last one counts. -/
def groups? : Node → Option (Section Document)
  | .map entries _ => groupEntries? [] entries
  | .scalar text style tag => if isBlank (.scalar text style tag) then some [] else none
  | .list .. => none

def groupEntries? (s : Section Document) : List (Node × Node) → Option (Section Document)
  | [] => some s
  | (k, v) :: rest =>
    match k with
    | .scalar key .. => do groupEntries? (s.insert key (← Document.ofNode? v)) rest
    | _ => none

end

end ConstraintLogic.Description
