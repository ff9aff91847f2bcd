import ConstraintLogic.Proofs.Circuit.Complete
import ConstraintLogic.Proofs.Circuit.Simulation
import ConstraintLogic.Proofs.Circuit.Sound
import ConstraintLogic.Proofs.Edit
/-!
# Winning

The edge into the sink of a circuit can be moved exactly if the formula is satisfiable on every
branch. A true formula is, so that its circuit can be won. The converse fails where an existential
letter is bound further out than a universal one: a latch stays set while the existential letter
takes its other value, so that each branch of the universal letter can be won with its own value.
-/

namespace ConstraintLogic.Circuit

variable {text : String} {q : Qbf} {g : Graph} {moves : List Ident}

/-- After these attempts one more, to move the edge into the sink, is accepted. -/
def Wins (g : Graph) (moves : List Ident) : Prop :=
  ∃ next, (Edit.tryReverse sinkEdgeId).run (g.play moves) = .ok true next

theorem wins_iff : Wins g moves ↔ ((g.play moves).moved? sinkEdgeId).isSome = true := by
  rw [Option.isSome_iff_exists]
  exact exists_congr fun _ => Edit.run_tryReverse_eq_ok_true_iff

theorem sinkEdge_isIn (q : Qbf) : (Wire.success 0).IsIn (letters q) :=
  Nat.zero_le _

/-- Whatever was attempted before, a win proves every branch satisfiable. -/
theorem Shows.everyBranchSatisfiable (hq : q.IsProper) (h : Shows q g .start)
    (hwins : Wins g moves) : q.EveryBranchSatisfiable := by
  obtain ⟨b, hshows, hreach⟩ := h.play hq (Board.steady_start q) moves
  cases hm : b.move? q (.success 0) with
  | none =>
    have hnone : (g.play moves).moved? sinkEdgeId = none :=
      hshows.moved?_eq_none hq (sinkEdge_isIn q) hm
    rw [wins_iff, hnone] at hwins
    cases hwins
  | some next => exact hreach.everyBranchSatisfiable hq hm

theorem Shows.exists_allLegal (hq : q.IsProper) (h : Shows q g .start)
    (hbranches : q.EveryBranchSatisfiable) : ∃ moves, g.AllLegal (moves ++ [sinkEdgeId]) := by
  obtain ⟨before, after, hreach, -, hm⟩ := Board.exists_win hq hbranches
  obtain ⟨moves, hlegal, hshows⟩ := h.exists_play hq (Board.steady_start q) hreach
  have hbefore := hreach.steady hq.nodup (Board.steady_start q)
  obtain ⟨next, hnext, -⟩ := hshows.moved?_eq_some hq hbefore.lawful (sinkEdge_isIn q) hm
  have hlast : (g.play moves).moved? sinkEdgeId = some next := hnext
  refine ⟨moves, Graph.allLegal_append.2 ⟨hlegal, ?_⟩⟩
  rw [Graph.AllLegal, hlast]
  exact ⟨rfl, trivial⟩

theorem wins_of_allLegal (h : g.AllLegal (moves ++ [sinkEdgeId])) : Wins g moves := by
  rw [Graph.allLegal_append] at h
  exact wins_iff.2 h.2.1

theorem Shows.exists_wins_iff (hq : q.IsProper) (h : Shows q g .start) :
    (∃ moves, Wins g moves) ↔ q.EveryBranchSatisfiable := by
  constructor
  · rintro ⟨moves, hwins⟩
    exact h.everyBranchSatisfiable hq hwins
  · intro hbranches
    obtain ⟨moves, hlegal⟩ := h.exists_allLegal hq hbranches
    exact ⟨moves, wins_of_allLegal hlegal⟩

/-! ## Truth and wins -/

/--
A circuit can be won exactly if every branch of its formula is satisfiable. So a win proves the
formula exactly if that makes it true, as it does with the universal bindings in front.
-/
theorem wins_sound_iff (hq : Qbf.parse text = .ok q) :
    ∃ g, compile text = .ok g ∧
      ((∃ moves, Wins g moves) ↔ q.EveryBranchSatisfiable) ∧
      ((∀ moves, Wins g moves → q.IsTrue) ↔ (q.EveryBranchSatisfiable → q.IsTrue)) ∧
      (q.UniversalFirst → ∀ moves, Wins g moves → q.IsTrue) := by
  have hproper := Qbf.isProper_of_parse hq
  obtain ⟨g, hg, hshows⟩ := exists_compile hq
  have hwin := hshows.exists_wins_iff hproper
  refine ⟨g, hg, hwin, ?_, ?_⟩
  · rw [← hwin]
    exact ⟨fun hsound ⟨moves, hwins⟩ => hsound moves hwins,
      fun hsound moves hwins => hsound ⟨moves, hwins⟩⟩
  · intro hfirst moves hwins
    exact (hwin.1 ⟨moves, hwins⟩).isTrue hproper hfirst

theorem wins_sound_iff_copycat :
    Qbf.parse "forall x exists y : (x||!y)&&(!x||y)" = .ok Qbf.copycat ∧
      ∃ g, compile "forall x exists y : (x||!y)&&(!x||y)" = .ok g ∧
        ((∃ moves, Wins g moves) ↔ Qbf.copycat.EveryBranchSatisfiable) ∧
        ((∀ moves, Wins g moves → Qbf.copycat.IsTrue) ↔
          (Qbf.copycat.EveryBranchSatisfiable → Qbf.copycat.IsTrue)) ∧
        (Qbf.copycat.UniversalFirst → ∀ moves, Wins g moves → Qbf.copycat.IsTrue) :=
  ⟨Qbf.parse_copycat, wins_sound_iff Qbf.parse_copycat⟩

/--
Wins the circuit of the mirror formula: first the branch in which `y` is false with `x` true, then,
with the latch of `y` set and kept, the one in which `y` is true with `x` false.
-/
def mirrorMoves : List Ident :=
  let first : List (List String) :=
    [["source", "try"], ["lit", "x"], ["lit", "!y"], ["try", "0"]]
  let answer : List (List String) :=
    [["probe", "tryout", "in"], ["probe", "result", "in"], ["probe", "tryout", "out"],
      ["probe", "result", "out"], ["junction", "sat"]]
  let retreat : List (List String) :=
    [["junction", "sat"], ["probe", "result", "out"], ["probe", "tryout", "out"],
      ["probe", "result", "in"], ["probe", "tryout", "in"]]
  let second : List (List String) :=
    [["lit", "!y"], ["lit", "x"], ["lit", "!x"], ["lit", "y"]]
  (first ++ answer ++ retreat ++ second ++ answer ++ [["sat", "0"]]).map Ident.mk

/-- The wires of these moves and of the one that wins. -/
def mirrorWires : List Wire :=
  [.call 0, .literal (.positive 'x'), .literal (.negative 'y'), .call 1] ++
    [.call 2, .result, .called, .told, .success 2] ++
    [.success 2, .told, .called, .result, .call 2] ++
    [.literal (.negative 'y'), .literal (.positive 'x'), .literal (.negative 'x'),
      .literal (.positive 'y')] ++
    [.call 2, .result, .called, .told, .success 2] ++ [.success 1, .success 0]

theorem ids_mirrorWires :
    mirrorWires.map (Wire.id (letters Qbf.mirror)) = mirrorMoves ++ [sinkEdgeId] := by
  decide +kernel

theorem isSome_run_mirrorWires :
    (mirrorWires.foldlM (fun (b : Board) w => b.move? Qbf.mirror w) .start).isSome = true := by
  decide +kernel

/-- The circuit of a formula that is not true, won. -/
theorem not_isTrue_of_wins_mirror :
    Qbf.parse "exists x forall y : (x||y)&&(!x||!y)" = .ok Qbf.mirror ∧ ¬Qbf.mirror.IsTrue ∧
      ∃ g, compile "exists x forall y : (x||y)&&(!x||!y)" = .ok g ∧ Wins g mirrorMoves ∧
        ((mirrorMoves ++ [sinkEdgeId]).mapM Edit.tryReverse).run g =
          .ok ((mirrorMoves ++ [sinkEdgeId]).map fun _ => true)
            (g.play (mirrorMoves ++ [sinkEdgeId])) := by
  have hq := Qbf.isProper_of_parse Qbf.parse_mirror
  obtain ⟨g, hg, hshows⟩ := exists_compile Qbf.parse_mirror
  obtain ⟨last, hrun⟩ := Option.isSome_iff_exists.1 isSome_run_mirrorWires
  have hwires : ∀ w ∈ mirrorWires, w.IsIn (letters Qbf.mirror) := by
    intro w hw
    rw [← mem_wires]
    revert w
    decide +kernel
  have hlegal : g.AllLegal (mirrorMoves ++ [sinkEdgeId]) := by
    rw [← ids_mirrorWires]
    exact hshows.allLegal_of_run hq (Board.steady_start _) hwires hrun
  exact ⟨Qbf.parse_mirror, Qbf.not_isTrue_mirror, g, hg, wins_of_allLegal hlegal,
    Edit.run_mapM_tryReverse hlegal⟩

/-- The circuit of a true formula can be won by legal moves alone. -/
theorem exists_run_of_isTrue (hq : Qbf.parse text = .ok q) (h : q.IsTrue) :
    ∃ g, compile text = .ok g ∧ ∃ moves,
      ((moves ++ [sinkEdgeId]).mapM Edit.tryReverse).run g =
        .ok ((moves ++ [sinkEdgeId]).map fun _ => true) (g.play (moves ++ [sinkEdgeId])) := by
  have hproper := Qbf.isProper_of_parse hq
  obtain ⟨g, hg, hshows⟩ := exists_compile hq
  have hbranches := h.everyBranchSatisfiable hproper
  obtain ⟨moves, hlegal⟩ := hshows.exists_allLegal hproper hbranches
  exact ⟨g, hg, moves, Edit.run_mapM_tryReverse hlegal⟩

theorem exists_run_copycat :
    Qbf.parse "forall x exists y : (x||!y)&&(!x||y)" = .ok Qbf.copycat ∧ Qbf.copycat.IsTrue ∧
      ∃ g, compile "forall x exists y : (x||!y)&&(!x||y)" = .ok g ∧ ∃ moves,
        ((moves ++ [sinkEdgeId]).mapM Edit.tryReverse).run g =
          .ok ((moves ++ [sinkEdgeId]).map fun _ => true)
            (g.play (moves ++ [sinkEdgeId])) :=
  ⟨Qbf.parse_copycat, Qbf.isTrue_copycat,
    exists_run_of_isTrue Qbf.parse_copycat Qbf.isTrue_copycat⟩

end ConstraintLogic.Circuit
