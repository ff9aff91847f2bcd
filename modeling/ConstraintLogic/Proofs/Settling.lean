import ConstraintLogic.Proofs.Visits
import Mathlib.Data.Set.Card
/-!
# Repeated validation

Validation settles the latches once, as they are asked for then. A latch that is set may satisfy a
gadget whose success another gadget waits for, so the next validation may find more to settle. Still
the latches come to rest: whether a gadget is asked to try does not depend on latches, a gadget that
is not only ever asks for its latch to be cleared, and one that is only ever for it to be set. So
each latch has one value to move to, and stays there.
-/

namespace ConstraintLogic.Graph

/-- The graph after so many validations with nothing in between. -/
def validated (g : Graph) (calls : Nat) : Graph :=
  (fun g => g.validate.2)^[calls] g

/-- The value that the latch of a component may be asked to have: whether the gadget is asked to
try. -/
def aim? (g : Graph) (id : Ident) : Option Bool :=
  g.components[id]?.map fun c => (g.signals c).tryIn

def universals (g : Graph) : List Ident :=
  (g.components.toList.filter fun entry => entry.2.gadget.gateKind == .universal).map (·.1)

variable {g g' : Graph} {id : Ident} {c : Component} {r : LatchRequest}

/-! ## Where a latch can move -/

/-- A gadget that is asked to try never asks for its latch to be cleared, and one that is not never
for it to be set. -/
theorem target_of_latchRequest? (h : g.latchRequest? c = some r) :
    r.target = (g.signals c).tryIn := by
  rw [latchRequest?] at h
  cases hgadget : c.gadget with
  | universal letter latch =>
    simp only [hgadget] at h
    cases htry : (g.signals c).tryIn with
    | false =>
      rw [htry] at h
      obtain rfl := Option.some.inj h
      rfl
    | true =>
      rw [htry, Bool.not_true, if_neg Bool.false_ne_true, Option.ite_none_right_eq_some] at h
      obtain rfl := Option.some.inj h.2
      rfl
  | converter | existential | evaluator =>
    rw [hgadget] at h
    cases h

/-- Latches do not enter into what is asked of a gadget. -/
theorem signals_of_vertices_edges (hv : g'.vertices = g.vertices) (he : g'.edges = g.edges)
    (c : Component) : g'.signals c = g.signals c := by
  have hincident : g'.incident = g.incident := by
    funext v
    rw [incident, incident, he]
  have hport : g'.port? = g.port? := by
    funext c name
    rw [port?, port?, hv]
  have hreceives : g'.receives = g.receives := by
    funext v
    simp only [receives, incoming, pointing, hincident]
  have hdrives : g'.drives = g.drives := by
    funext v
    simp only [drives, outgoing, pointing, hincident]
  simp only [signals, portReceives, portDrives, hport, hreceives, hdrives]

theorem Relatched.aim? (h : g.Relatched g') (id : Ident) : g'.aim? id = g.aim? id := by
  have hunlatched (g : Graph) : g.aim? id =
      (g.components[id]?.map Component.unlatched).map fun c => (g.signals c).tryIn := by
    rw [Option.map_map]
    rfl
  rw [hunlatched, hunlatched, h.frame.components]
  simp only [signals_of_vertices_edges h.frame.vertices h.edges]

/-! ## A single validation -/

theorem latchOf?_validate :
    g.validate.2.latchOf? id = (g.latchOf? id).map fun latch =>
      g.fullPass.requests[id]?.elim latch LatchRequest.target := by
  rw [← Pass.latchOf?_settle, validate, Pass.commit]
  split_ifs <;> rfl

theorem relatched_validate (g : Graph) : g.Relatched g.validate.2 :=
  Pass.relatched_commit g.fullPass g

/-- A latch that moves goes to where it aims. -/
theorem latchOf?_validate_of_ne (h : g.validate.2.latchOf? id ≠ g.latchOf? id) :
    g.validate.2.latchOf? id = g.aim? id := by
  rw [latchOf?_validate] at h ⊢
  cases hlatch : g.latchOf? id with
  | none => simp [hlatch] at h
  | some latch =>
    cases hr : g.fullPass.requests[id]? with
    | none => simp [hlatch, hr] at h
    | some r =>
      obtain ⟨c, hc, hask⟩ := Option.bind_eq_some_iff.1 (requests_fullPass.1 hr).2
      rw [aim?, hc, Option.map_some, Option.map_some, ← target_of_latchRequest? hask]
      rfl

/-- A latch that is where it aims stays there. -/
theorem latchOf?_validate_of_eq (h : g.latchOf? id = g.aim? id) :
    g.validate.2.latchOf? id = g.aim? id := by
  by_cases hmoves : g.validate.2.latchOf? id = g.latchOf? id
  · rw [hmoves, h]
  · exact latchOf?_validate_of_ne hmoves

/-- What validation reports are the latches that moved, with their new values. -/
theorem mem_latchChanges_validate {b : Bool} :
    (id, b) ∈ g.validate.1.latchChanges ↔
      g.latchOf? id = some (!b) ∧ g.validate.2.latchOf? id = some b := by
  have hreport : (id, b) ∈ g.validate.1.latchChanges ↔
      ∃ r, g.fullPass.requests[id]? = some r ∧ r.target = b ∧ g.latchOf? id = some (!b) :=
    Pass.mem_latchChanges_outcome
  rw [latchOf?_validate]
  refine hreport.trans ⟨?_, ?_⟩
  · rintro ⟨r, hr, rfl, hlatch⟩
    exact ⟨hlatch, by simp [hlatch, hr]⟩
  · rintro ⟨hlatch, hnext⟩
    cases hr : g.fullPass.requests[id]? with
    | none => simp [hlatch, hr] at hnext
    | some r => exact ⟨r, rfl, by simpa [hlatch, hr] using hnext, hlatch⟩

/-- Validation reports nothing exactly if it leaves the graph as it is. -/
theorem latchChanges_validate_eq_nil_iff :
    g.validate.1.latchChanges = [] ↔ g.validate.2 = g := by
  have hreport : g.validate.1.latchChanges = [] ↔
      ∀ id, g.validate.2.latchOf? id = g.latchOf? id := by
    simp only [latchOf?_validate, ← Pass.latchOf?_settle]
    exact Pass.latchChanges_eq_nil_iff
  rw [hreport]
  constructor
  · exact (relatched_validate g).untouched
  · intro h id
    rw [h]

/-! ## One validation after the other -/

theorem validated_succ (g : Graph) (calls : Nat) :
    g.validated (calls + 1) = (g.validated calls).validate.2 :=
  Function.iterate_succ_apply' _ calls g

theorem aim?_validated (g : Graph) (calls : Nat) (id : Ident) :
    (g.validated calls).aim? id = g.aim? id := by
  induction calls with
  | zero => rfl
  | succ calls ih => rw [validated_succ, (relatched_validate _).aim?, ih]

theorem isSome_latchOf?_validated (g : Graph) (calls : Nat) (id : Ident) :
    ((g.validated calls).latchOf? id).isSome = (g.latchOf? id).isSome := by
  induction calls with
  | zero => rfl
  | succ calls ih => rw [validated_succ, latchOf?_validate, Option.isSome_map, ih]

/-- The latch of this name is changed by the call of this number. -/
def MovesAt (g : Graph) (id : Ident) (call : Nat) : Prop :=
  (g.validated (call + 1)).latchOf? id ≠ (g.validated call).latchOf? id

theorem latchOf?_validated_of_movesAt {call later : Nat} (h : g.MovesAt id call)
    (hlater : call < later) : (g.validated later).latchOf? id = g.aim? id := by
  induction later, hlater using Nat.le_induction with
  | base =>
    rw [MovesAt, validated_succ] at h
    rw [validated_succ, latchOf?_validate_of_ne h, aim?_validated]
  | succ later hlater ih =>
    rw [← aim?_validated g later] at ih ⊢
    rw [validated_succ]
    exact latchOf?_validate_of_eq ih

/-- Each latch moves at most once. -/
theorem MovesAt.unique {i j : Nat} (hi : g.MovesAt id i) (hj : g.MovesAt id j) : i = j := by
  have hnot {i j : Nat} (hi : g.MovesAt id i) (hj : g.MovesAt id j) : ¬i < j := by
    intro hlt
    apply hj
    rw [latchOf?_validated_of_movesAt hi hlt,
      latchOf?_validated_of_movesAt hi (Nat.lt_succ_of_lt hlt)]
  exact Nat.le_antisymm (Nat.le_of_not_lt (hnot hj hi)) (Nat.le_of_not_lt (hnot hi hj))

theorem MovesAt.mem_universals {call : Nat} (h : g.MovesAt id call) : id ∈ g.universals := by
  have hlatch : (g.latchOf? id).isSome := by
    rw [← isSome_latchOf?_validated g call]
    rw [MovesAt, validated_succ, latchOf?_validate] at h
    by_contra hnone
    simp [Option.not_isSome_iff_eq_none.1 hnone] at h
  obtain ⟨latch, hlatch⟩ := Option.isSome_iff_exists.1 hlatch
  obtain ⟨c, hc, hlatch⟩ := Option.bind_eq_some_iff.1 hlatch
  have hkind : c.gadget.gateKind = .universal := by
    rw [Component.latch?] at hlatch
    cases hgadget : c.gadget with
    | universal => rfl
    | converter | existential | evaluator =>
      rw [hgadget] at hlatch
      cases hlatch
  refine List.mem_map.2 ⟨(id, c), List.mem_filter.2 ⟨?_, by simpa using hkind⟩, rfl⟩
  exact Std.ExtTreeMap.mem_toList_iff_getElem?_eq_some.2 hc

theorem exists_movesAt {call : Nat} (h : g.validated (call + 1) ≠ g.validated call) :
    ∃ id, g.MovesAt id call := by
  by_contra hnone
  rw [validated_succ] at h
  refine h ((relatched_validate _).untouched fun id => ?_)
  rw [← validated_succ]
  by_contra hmoves
  exact hnone ⟨id, hmoves⟩

/-- Calls that change something move different latches. -/
theorem encard_changing_le (g : Graph) :
    {call | g.validated (call + 1) ≠ g.validated call}.encard ≤ g.universals.length := by
  have hmoves (call : {call | g.validated (call + 1) ≠ g.validated call}) :
      ∃ id, g.MovesAt id call := exists_movesAt call.2
  choose mover hmover using hmoves
  have hinto : {call | g.validated (call + 1) ≠ g.validated call}.encard ≤
      {id | id ∈ g.universals}.encard := by
    refine Function.Embedding.encard_le ⟨fun call => ⟨mover call, (hmover call).mem_universals⟩, ?_⟩
    intro i j hij
    have hsame : mover i = mover j := congrArg Subtype.val hij
    have hi := hmover i
    rw [hsame] at hi
    exact Subtype.ext (hi.unique (hmover j))
  have hcount : {id | id ∈ g.universals}.encard ≤ g.universals.length := by
    rw [← List.coe_toFinset, Set.encard_coe_eq_coe_finsetCard]
    exact Nat.cast_le.2 (List.toFinset_card_le _)
  exact hinto.trans hcount

/-- Among as many calls as there are universal gadgets, and one more, there is one that changes
nothing. -/
theorem exists_validated_succ_eq (g : Graph) :
    ∃ call ≤ g.universals.length, g.validated (call + 1) = g.validated call := by
  by_contra hnone
  have hall : (↑(Finset.range (g.universals.length + 1)) : Set Nat) ⊆
      {call | g.validated (call + 1) ≠ g.validated call} := by
    intro call hcall hsame
    exact hnone ⟨call, Nat.lt_succ_iff.1 (Finset.mem_range.1 hcall), hsame⟩
  have hle := (Set.encard_le_encard hall).trans g.encard_changing_le
  rw [Set.encard_coe_eq_coe_finsetCard, Finset.card_range, Nat.cast_le] at hle
  omega

theorem validated_eq_of_le {call later : Nat} (h : g.validated (call + 1) = g.validated call)
    (hlater : call ≤ later) : g.validated later = g.validated call := by
  induction later, hlater using Nat.le_induction with
  | base => rfl
  | succ later hlater ih => rw [validated_succ, ih, ← validated_succ, h]

/-- How validation, called again and again with nothing in between, comes to rest. -/
structure ComesToRest (g : Graph) : Prop where
  /-- Each call reports the latches that it changes, and their new values. -/
  reported : ∀ (call : Nat) (id : Ident) (b : Bool),
    (id, b) ∈ (g.validated call).validate.1.latchChanges ↔
      (g.validated call).latchOf? id = some (!b) ∧ (g.validated (call + 1)).latchOf? id = some b
  once : ∀ (id : Ident) (i j : Nat), g.MovesAt id i → g.MovesAt id j → i = j
  bounded : {call | g.validated (call + 1) ≠ g.validated call}.encard ≤ g.universals.length
  /-- The first of them comes after no more calls than there are universal gadgets. -/
  quiet : ∃ call ≤ g.universals.length, (g.validated call).validate.1.latchChanges = []
  final : ∀ call : Nat, (g.validated call).validate.1.latchChanges = [] → ∀ later ≥ call,
    g.validated later = g.validated call ∧
      (g.validated later).validate = ((g.validated call).validate.1, g.validated call)

/-- Validation comes to rest, whatever the graph. -/
theorem validated_comesToRest (g : Graph) : g.ComesToRest where
  reported call id b := by
    rw [validated_succ]
    exact mem_latchChanges_validate
  once _ _ _ hi hj := hi.unique hj
  bounded := g.encard_changing_le
  quiet := by
    obtain ⟨call, hle, hsame⟩ := g.exists_validated_succ_eq
    rw [validated_succ] at hsame
    exact ⟨call, hle, latchChanges_validate_eq_nil_iff.2 hsame⟩
  final call hquiet later hlater := by
    have hsame := latchChanges_validate_eq_nil_iff.1 hquiet
    have hlast := validated_eq_of_le ((validated_succ g call).trans hsame) hlater
    rw [hlast]
    exact ⟨rfl, Prod.ext rfl hsame⟩

end ConstraintLogic.Graph
