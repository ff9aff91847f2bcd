import ConstraintLogic.Edit
/-!
# Plays

A play is a sequence of attempts to move edges, each named by its identifier. An attempt that is
not a legal move changes nothing, so every sequence leads somewhere; `Graph.AllLegal` holds of the
sequences without such attempts.
-/

namespace ConstraintLogic

namespace Graph

/-- The graph after a move of the edge of this name, if there is one and the move is legal. -/
def moved? (g : Graph) (id : Ident) : Option Graph :=
  g.edges[id]?.bind g.move?

def attempt (g : Graph) (id : Ident) : Graph :=
  (g.moved? id).getD g

def play (g : Graph) (moves : List Ident) : Graph :=
  moves.foldl attempt g

def AllLegal (g : Graph) : List Ident → Prop
  | [] => True
  | id :: rest => (g.moved? id).isSome ∧ (g.attempt id).AllLegal rest

@[simp] theorem play_nil (g : Graph) : g.play [] = g := rfl

@[simp] theorem play_cons (g : Graph) (id : Ident) (rest : List Ident) :
    g.play (id :: rest) = (g.attempt id).play rest := rfl

theorem play_append (g : Graph) (first second : List Ident) :
    g.play (first ++ second) = (g.play first).play second :=
  List.foldl_append

theorem allLegal_append {g : Graph} {first second : List Ident} :
    g.AllLegal (first ++ second) ↔ g.AllLegal first ∧ (g.play first).AllLegal second := by
  induction first generalizing g with
  | nil => simp [AllLegal]
  | cons id rest ih => simp [AllLegal, ih, and_assoc]

theorem attempt_of_moved?_eq_some {g next : Graph} {id : Ident} (h : g.moved? id = some next) :
    g.attempt id = next := by
  simp [attempt, h]

theorem attempt_of_moved?_eq_none {g : Graph} {id : Ident} (h : g.moved? id = none) :
    g.attempt id = g := by
  simp [attempt, h]

end Graph

namespace Edit

/-- The edit makes the attempt and answers whether the move was legal. -/
theorem run_tryReverse (g : Graph) (id : Ident) :
    (tryReverse id).run g =
      if id ∈ g.edges then .ok (g.moved? id).isSome (g.attempt id)
      else .error (.notFound .edge id) g := by
  cases h : g.edges[id]? with
  | none =>
    have hid : id ∉ g.edges := by simpa using h
    have he : g.edge id = .error (.notFound .edge id) := by rw [Graph.edge, Graph.find, h]
    simp only [tryReverse, EStateM.run_bind, EStateM.run_get, he, if_neg hid]
    rfl
  | some e =>
    have hid : id ∈ g.edges := Std.ExtTreeMap.mem_iff_isSome_getElem?.2 (by simp [h])
    have he : g.edge id = .ok e := by rw [Graph.edge, Graph.find, h]
    simp only [tryReverse, EStateM.run_bind, EStateM.run_get, he, ofExcept, EStateM.run_pure,
      if_pos hid, Graph.attempt, Graph.moved?, h, Option.bind_some]
    cases g.move? e <;> rfl

end Edit

end ConstraintLogic
