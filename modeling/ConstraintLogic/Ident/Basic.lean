import Std.Data.ExtTreeMap
import Std.Data.ExtTreeSet
import ConstraintLogic.Text.Split
/-!
# Identifiers

Every entity is named by a path of segments. A segment is any text, so the dotted form, which puts
a dot between segments, is not always faithful; equality and order are those of the segments.
-/

namespace ConstraintLogic

/-- A path of segments. The empty path is the root scope, which names no entity. -/
structure Ident where
  segments : List String
deriving DecidableEq, Repr, Inhabited

namespace Ident

def root : Ident := ⟨[]⟩

/-- The identifier with one more segment, taken as it is. -/
def child (id : Ident) (segment : String) : Ident :=
  ⟨id.segments ++ [segment]⟩

/-- The identifier read inside a scope. -/
def join (scope id : Ident) : Ident :=
  ⟨scope.segments ++ id.segments⟩

/-- The enclosing scope; the root has none. -/
def parent? (id : Ident) : Option Ident :=
  if id.segments = [] then none else some ⟨id.segments.dropLast⟩

def name (id : Ident) : String :=
  id.segments.getLastD ""

def isRoot (id : Ident) : Bool :=
  id.segments.isEmpty

def isInside (id scope : Ident) : Bool :=
  scope.segments.length < id.segments.length && scope.segments.isPrefixOf id.segments

@[simp] theorem join_root (scope : Ident) : scope.join root = scope := by
  simp [join, root]

@[simp] theorem root_join (id : Ident) : root.join id = id := by
  simp [join, root]

theorem join_assoc (a b c : Ident) : (a.join b).join c = a.join (b.join c) := by
  simp [join]

theorem join_child (scope id : Ident) (segment : String) :
    scope.join (id.child segment) = (scope.join id).child segment := by
  simp [join, child]

@[simp] theorem parent?_child (id : Ident) (segment : String) :
    (id.child segment).parent? = some id := by
  simp [parent?, child]

@[simp] theorem name_child (id : Ident) (segment : String) : (id.child segment).name = segment := by
  simp [name, child]

theorem isInside_join (scope id : Ident) : (scope.join id).isInside scope = !id.isRoot := by
  cases h : id.segments <;> simp [isInside, join, isRoot, h]

/-! ## Order -/

/-- Identifiers are ordered by their segments, and those by code points. -/
instance : Ord Ident := ⟨fun a b => compare a.segments b.segments⟩

theorem compare_def (a b : Ident) : compare a b = compare a.segments b.segments := rfl

instance : Std.TransOrd Ident where
  eq_swap {a b} := by
    rw [compare_def, compare_def]
    exact Std.OrientedOrd.eq_swap
  isLE_trans {a b c} h₁ h₂ := by
    rw [compare_def] at *
    exact Std.TransOrd.isLE_trans h₁ h₂

instance : Std.LawfulEqOrd Ident where
  eq_of_compare {a b} h := by
    cases a
    cases b
    exact congrArg Ident.mk (Std.LawfulEqOrd.eq_of_compare h)

/-! ## Dotted form -/

/-- The segments with a dot between each two. -/
def dotted (id : Ident) : String :=
  ".".intercalate id.segments

/-- The identifier whose segments are the pieces of the text between dots. The empty text is the
root. -/
def ofDotted (text : String) : Ident :=
  if text = "" then root else ⟨(Text.splitAt '.' text.toList).map String.ofList⟩

instance : ToString Ident := ⟨dotted⟩

theorem dotted_ofDotted (text : String) : (ofDotted text).dotted = text := by
  unfold ofDotted
  split
  · next h => simp [dotted, root, h]
  · apply String.ext
    simp only [dotted, String.toList_intercalate, List.map_map]
    rw [List.map_congr_left (g := id) (by simp), List.map_id]
    exact Text.intercalate_splitAt _ _

end Ident

/-- Values under identifiers, in the order of the identifiers. -/
abbrev Registry (α : Type) := Std.ExtTreeMap Ident α

abbrev IdentSet := Std.ExtTreeSet Ident

end ConstraintLogic
