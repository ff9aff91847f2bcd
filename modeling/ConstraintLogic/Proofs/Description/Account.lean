import ConstraintLogic.Proofs.Description.Loading
import ConstraintLogic.Proofs.Intact
/-!
# Accounting for entries

After a document has been loaded, every entry of it is reported once or has what it describes in
the graph, nothing else is in the graph, and nothing in it comes from more than one entry. So the
graph has no missing ports, and the integrity check finds nothing.
-/

namespace ConstraintLogic.Description

open ConstraintLogic.Graph

namespace Entry

variable {e : Entry} {g next : Graph}

theorem adds_of_run (h : e.load.run g = .ok () next) : next.Adds g e.Makes ∧ e.IsIn next :=
  (e.allOrNothing_load g).of_run h

theorem keeps_load (e : Entry) : Edit.Keeps Consistent e.load := by
  refine (Edit.keeps_ofExcept _).bind fun args => ?_
  cases e.kind with
  | vertex => exact keeps_loadVertex _ _ _
  | edge => exact keeps_loadEdge _ _ _
  | component => exact keeps_loadComponent _ _ _
  | label => exact keeps_loadLabel _ _ _

theorem consistent_of_run (hg : g.Consistent) (h : e.load.run g = .ok () next) :
    next.Consistent := by
  have hleft := e.keeps_load g hg
  rwa [Edit.left, h] at hleft

/-- The vertex of an entry lies where the entry says. -/
theorem IsIn.position (h : e.IsIn g) (hkind : e.kind = .vertex) :
    ∃ entry, e.args >>= VertexEntry.ofArguments e.offset = .ok entry ∧
      g.vertices[e.id]?.map Vertex.position = some entry.position := by
  obtain ⟨kind, scope, offset, key, value⟩ := e
  obtain rfl : kind = .vertex := hkind
  obtain ⟨entry, hread, hvertex⟩ := h
  have hposition := congrArg (Option.map Vertex.position) hvertex
  rw [Option.map_map] at hposition
  exact ⟨entry, hread, hposition⟩

end Entry

/-! ## Runs -/

namespace Verdict

/-- The entry was accepted and brought something of this kind under this name. -/
def Made (v : Verdict) (kind : EntityKind) (x : Ident) : Prop :=
  v.accepted = true ∧ v.entry.Makes kind x

/-- Nothing comes from both entries. -/
def Apart (v w : Verdict) : Prop :=
  ∀ kind x, ¬(v.Made kind x ∧ w.Made kind x)

instance : Std.Symm Apart :=
  ⟨fun _ _ h kind x hboth => h kind x hboth.symm⟩

end Verdict

namespace Loads

variable {g last : Graph} {vs : List Verdict}

/-- What the graph gains is what the accepted entries make. -/
theorem adds (h : Loads g vs last) : last.Adds g fun kind x => ∃ v ∈ vs, v.Made kind x := by
  induction h with
  | nil g => exact Adds.self (by simp)
  | accepted hrun _ ih =>
    refine ((Entry.adds_of_run hrun).1.trans ih).congr fun kind x => ?_
    simp [Verdict.Made, Verdict.accepted]
  | refused _ _ ih =>
    refine ih.congr fun kind x => ?_
    simp [Verdict.Made, Verdict.accepted]

theorem isIn (h : Loads g vs last) : ∀ v ∈ vs, v.accepted = true → v.entry.IsIn last := by
  induction h with
  | nil g => simp
  | accepted hrun hrest ih =>
    rw [List.forall_mem_cons]
    exact ⟨fun _ => (Entry.adds_of_run hrun).2.mono hrest.adds, ih⟩
  | refused _ _ ih =>
    rw [List.forall_mem_cons]
    exact ⟨nofun, ih⟩

/-- What one entry has made, no later one can make. -/
theorem pairwise_apart (h : Loads g vs last) : vs.Pairwise Verdict.Apart := by
  induction h with
  | nil g => exact .nil
  | accepted hrun hrest ih =>
    refine List.pairwise_cons.2 ⟨fun w hw kind x hboth => ?_, ih⟩
    obtain ⟨⟨-, hfirst⟩, hsecond⟩ := hboth
    have hhas := ((Entry.adds_of_run hrun).1.has kind x).2 (.inr hfirst)
    exact hrest.adds.not_has ⟨w, hw, hsecond⟩ hhas
  | refused _ _ ih =>
    exact List.pairwise_cons.2 ⟨fun w _ kind x hboth => absurd hboth.1.1 nofun, ih⟩

theorem consistent_and_portsKept (h : Loads g vs last) (hg : g.Consistent) (hports : g.PortsKept) :
    last.Consistent ∧ last.PortsKept := by
  induction h with
  | nil g => exact ⟨hg, hports⟩
  | accepted hrun _ ih =>
    obtain ⟨hadds, hin⟩ := Entry.adds_of_run hrun
    exact ih (Entry.consistent_of_run hg hrun) (Entry.portsKept_of_adds hports hadds hin)
  | refused _ _ ih => exact ih hg hports

/-- What is there after a load comes from exactly one accepted entry. -/
theorem has_iff_of_cleared (h : Loads g.cleared vs last) (kind : EntityKind) (x : Ident) :
    last.Has kind x ↔ ∃! v, v ∈ vs ∧ v.Made kind x := by
  have hnone : ¬g.cleared.Has kind x := by
    cases kind <;> exact Std.ExtTreeMap.not_mem_empty
  rw [h.adds.has, or_iff_right hnone]
  refine ⟨?_, ExistsUnique.exists⟩
  rintro ⟨v, hv, hmade⟩
  refine ⟨v, ⟨hv, hmade⟩, fun w ⟨hw, hmade'⟩ => ?_⟩
  by_contra hne
  exact h.pairwise_apart.forall hw hv hne kind x ⟨hmade', hmade⟩

end Loads

/-! ## Documents -/

/-- Every entry of a document whose groups are well named is accounted for. The refused ones are
reported in the order of loading, and what the others describe is in the graph; there is nothing in
it that does not come from exactly one of them. -/
theorem exists_account {d : Document} (h : d.wellNamed = true) (g : Graph) :
    ∃ vs last, (loadInto d).run g = .ok ⟨vs.filterMap Verdict.issue?⟩ last ∧
      Account d g vs last ∧
      (∀ v ∈ vs, v.accepted = true → v.entry.IsIn last) ∧
      (∀ kind x, last.Has kind x ↔ ∃! v, v ∈ vs ∧ v.Made kind x) ∧
      last.checkIntegrity = .ok () := by
  obtain ⟨vs, last, hvs, hloads, hrun⟩ := exists_loads_of_wellNamed h g
  have hports : g.cleared.PortsKept := by
    intro id c hc
    cases Std.ExtTreeMap.getElem?_empty.symm.trans hc
  obtain ⟨hconsistent, hkept⟩ := hloads.consistent_and_portsKept (consistent_bare _ _) hports
  exact ⟨vs, last, hrun, account_of_loads hvs hloads, hloads.isIn, hloads.has_iff_of_cleared,
    hconsistent.checkIntegrity_eq_ok_iff_portsKept.2 hkept⟩

/-- A vertex whose name a vertex of a group has too, and the circuit of a formula. -/
def Document.contested : Document where
  position := none
  vertices := [("a", .list [.int 0, .int 0]), ("inner.a", .list [.int 1, .int 0])]
  edges := [("loop", .list [.string "inner.a"])]
  components := [("q", .list [.int 4, .int 0, .string "qbf", .string "exists x : (x)"])]
  labels := [("title", .list [.int 0, .int 2, .string "contested"])]
  groups := [("inner", ⟨some ⟨0, 8⟩, [("a", .list [.int 0, .int 0])], [], [], [], []⟩)]

/-- Two entries are about the vertex in the group. The one of the root has made it, and the one in
the group is the only entry that is refused. -/
theorem exists_account_contested :
    Document.contested.wellNamed = true ∧
      ∃ vs last, (loadInto .contested).run ∅ = .ok ⟨vs.filterMap Verdict.issue?⟩ last ∧
        Account .contested ∅ vs last ∧
        (∀ v ∈ vs, v.accepted = true → v.entry.IsIn last) ∧
        (∀ kind x, last.Has kind x ↔ ∃! v, v ∈ vs ∧ v.Made kind x) ∧
        last.checkIntegrity = .ok () ∧
        (vs.filterMap Verdict.issue?).map Issue.text =
          ["vertex inner.a: Duplicate id: vertex inner.a already exists"] ∧
        last.vertices[(⟨["inner", "a"]⟩ : Ident)]?.map (·.position.y) = some 0 ∧
        ∃ v ∈ vs, v.address = ⟨[0], .vertex, 0⟩ ∧ v.accepted = false := by
  have hnamed : Document.contested.wellNamed = true := by decide +kernel
  obtain ⟨vs, last, hrun, haccount, hin, hhas, hintegrity⟩ := exists_account hnamed ∅
  have hissues : ((loadInto .contested).run' ∅).map (·.issues.map Issue.text) =
      some ["vertex inner.a: Duplicate id: vertex inner.a already exists"] := by decide +kernel
  have hplace : ((loadInto .contested).left ∅).vertices[(⟨["inner", "a"]⟩ : Ident)]?.map
      (·.position.y) = some 0 := by decide +kernel
  rw [Edit.answer_of_run hrun] at hissues
  rw [Edit.left, hrun] at hplace
  have hfound : Document.contested.entry? ⟨[0], .vertex, 0⟩ =
      some ⟨.vertex, ⟨["inner"]⟩, .origin + ⟨0, 8⟩, "a", .list [.int 0, .int 0]⟩ := rfl
  obtain ⟨v, hv, haddress, hentry⟩ := (haccount.entries _ _).2 hfound
  have hrefused : v.accepted = false := by
    rw [Bool.eq_false_iff]
    intro haccepted
    have hisin := hin v hv haccepted
    rw [hentry] at hisin
    obtain ⟨entry, hread, hposition⟩ := hisin.position rfl
    -- the group is moved, and its vertex would lie above that of the root
    have hmoved : (Argument.list (.list [.int 0, .int 0]) >>=
        VertexEntry.ofArguments (.origin + ⟨0, 8⟩)).toOption.map (·.position.y) = some 8 := by
      decide +kernel
    have hargs : Argument.list (.list [.int 0, .int 0]) >>=
        VertexEntry.ofArguments (.origin + ⟨0, 8⟩) = .ok entry := hread
    rw [hargs] at hmoved
    have hsame := congrArg (Option.map Point.y) hposition
    rw [Option.map_map] at hsame
    have height : some 0 = some (8 : Float) := (hplace.symm.trans hsame).trans hmoved
    exact absurd height (by decide +kernel)
  exact ⟨hnamed, vs, last, hrun, haccount, hin, hhas, hintegrity,
    Option.some.inj hissues, hplace, v, hv, haddress, hrefused⟩

end ConstraintLogic.Description
