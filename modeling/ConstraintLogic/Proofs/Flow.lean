import ConstraintLogic.Graph.Flow
import ConstraintLogic.Proofs.Registry
/-!
# Flow along listed edges

A vertex lists its edges in the order of their names. What runs into it, whether it receives or
drives, and how it is wired depend on the edges alone and not on that order.
-/

namespace ConstraintLogic.Graph

variable {g : Graph} {v : Vertex} {es : List Edge}

/-- The edges that a vertex meets, from any list of their names. -/
theorem incident_perm {ids : List Ident} (hn : ids.Nodup) (h : ∀ id, id ∈ v.edges ↔ id ∈ ids) :
    (g.incident v).Perm (ids.filterMap fun id => g.edges[id]?) :=
  (IdentSet.toList_perm hn h).filterMap _

theorem totalWeight_perm {es es' : List Edge} (h : es.Perm es') :
    totalWeight es = totalWeight es' := by
  induction h with
  | nil => rfl
  | cons e _ ih => simpa [totalWeight] using ih
  | swap e e' l => simp only [totalWeight, List.foldr_cons]; omega
  | trans _ _ ih₁ ih₂ => exact ih₁.trans ih₂

def enters (v : Vertex) (e : Edge) : Bool :=
  e.direction? v.id == some .incoming && !e.circular

def leaves (v : Vertex) (e : Edge) : Bool :=
  e.direction? v.id == some .outgoing && !e.circular

private theorem any_pointing (g : Graph) (v : Vertex) (d : Direction) :
    ((g.pointing v d).any fun e => !e.circular) =
      (g.incident v).any fun e => e.direction? v.id == some d && !e.circular := by
  rw [pointing, List.any_filter]

theorem receives_of_incident (h : (g.incident v).Perm es) : g.receives v = es.any (enters v) := by
  rw [← h.any_eq]
  exact any_pointing g v .incoming

theorem drives_of_incident (h : (g.incident v).Perm es) : g.drives v = es.any (leaves v) := by
  rw [← h.any_eq]
  exact any_pointing g v .outgoing

theorem inflow_of_incident (h : (g.incident v).Perm es) :
    g.inflow v = totalWeight (es.filter fun e => e.direction? v.id == some .incoming) :=
  totalWeight_perm (h.filter _)

theorem outflow_of_incident (h : (g.incident v).Perm es) :
    g.outflow v = totalWeight (es.filter fun e => e.direction? v.id == some .outgoing) :=
  totalWeight_perm (h.filter _)

theorem isWired_of_incident (h : (g.incident v).Perm es) (arity : Arity) :
    g.isWired v arity =
      (es.countP (fun e => e.weight == .single) == arity.singles &&
        es.countP (fun e => e.weight == .double) == arity.doubles) := by
  rw [isWired, h.countP_eq, h.countP_eq]

end ConstraintLogic.Graph
