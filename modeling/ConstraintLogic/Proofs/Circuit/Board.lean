import ConstraintLogic.Graph.Rule
import ConstraintLogic.Formula.Qbf
import ConstraintLogic.Proofs.Circuit.Wire
import Mathlib.Logic.Relation
import Mathlib.Logic.Function.Basic
/-!
# Boards

A position of a circuit without its graph: which wires are on, that is, point along their signal,
and which latches are set. The rules of the vertices become rules of cells, where a quantifier or
the evaluator with all its ports is one cell. A lawful board obeys all of them.
-/

namespace ConstraintLogic

namespace Signals

theorem existentialHolds_iff {s : Signals} :
    s.existentialHolds = true ↔
      (s.tryOut = true → s.tryIn = true) ∧
      (s.tryOut = true → ¬(s.out = true ∧ s.inv = true)) ∧
      (s.satOut = true → s.satIn = true) := by
  simp only [existentialHolds]
  grind

theorem universalHolds_iff {s : Signals} {latch : Bool} :
    s.universalHolds latch = true ↔
      (s.tryOut = true → s.tryIn = true) ∧
      (s.tryOut = true → s.out ≠ s.inv) ∧
      (s.satOut = true → s.satIn = true ∧ latch = true ∧ s.out = true) := by
  simp only [universalHolds]
  grind

end Signals

namespace Circuit

/-- The letters that a formula binds, outermost first. -/
def letters (q : Qbf) : List Char :=
  q.bindings.map Binding.letter

/-- What obeys one rule. -/
inductive Cell where
  | quantifier (index : Nat)
  | evaluator
  | callProbe
  | resultProbe
  | junction
  | source
  | sinkA
  | sinkB
  | sinkC
deriving DecidableEq

def Place.cell (letters : List Char) : Place → Cell
  | port letter _ => .quantifier (letters.idxOf letter)
  | evaluator _ => .evaluator
  | callProbe => .callProbe
  | resultProbe => .resultProbe
  | junction => .junction
  | source => .source
  | sinkA => .sinkA
  | sinkB => .sinkB
  | sinkC => .sinkC

/-- A position of a circuit. -/
@[ext]
structure Board where
  on : Wire → Bool
  latch : Char → Bool

namespace Board

/-- The position in which a circuit is placed. -/
def start : Board where
  on := fun _ => false
  latch := fun _ => false

def turn (b : Board) (w : Wire) : Board :=
  { b with on := Function.update b.on w (!b.on w) }

/-- What the ports of the quantifier with this index and letter are doing. -/
def signals (b : Board) (index : Nat) (letter : Char) : Signals where
  tryIn := b.on (.call index)
  tryOut := b.on (.call (index + 1))
  satIn := b.on (.success (index + 1))
  satOut := b.on (.success index)
  out := b.on (.literal (.positive letter))
  inv := b.on (.literal (.negative letter))

def quantifierHolds (b : Board) (index : Nat) : Binding → Bool
  | ⟨.existential, letter⟩ => (b.signals index letter).existentialHolds
  | ⟨.universal, letter⟩ => (b.signals index letter).universalHolds (b.latch letter)

/-- The matrix is true where the literals count as true whose wires are on. -/
def formulaHolds (b : Board) (matrix : Cnf) : Bool :=
  matrix.evaluate fun l => b.on (.literal l)

def holds (b : Board) (q : Qbf) : Cell → Bool
  | .quantifier index => q.bindings[index]?.all (b.quantifierHolds index)
  | .evaluator => !b.on .result || b.formulaHolds q.matrix
  | .callProbe => !b.on .called || b.on (.call q.bindings.length)
  | .resultProbe => !b.on .told || b.on .result
  | .junction => !b.on (.success q.bindings.length) || (b.on .called && b.on .told)
  | .source => true
  | .sinkA => b.on .ringAB || !b.on .ringCA || b.on (.success 0)
  | .sinkB => !b.on .ringAB || b.on .ringBC
  | .sinkC => !b.on .ringBC || b.on .ringCA

/-- Every cell obeys its rule. -/
def Lawful (b : Board) (q : Qbf) : Prop :=
  ∀ cell, b.holds q cell = true

/-- The latch of the quantifier of a letter as its gadget asks for it. -/
def settledLatch (b : Board) (letters : List Char) (letter : Char) : Bool :=
  b.on (.call (letters.idxOf letter)) &&
    (b.latch letter ||
      b.on (.success (letters.idxOf letter + 1)) && b.on (.literal (.negative letter)))

def settle (b : Board) (letters : List Char) : Board :=
  { b with latch := b.settledLatch letters }

def move? (b : Board) (q : Qbf) (w : Wire) : Option Board :=
  if w = .loop then none
  else if (b.turn w).holds q ((w.driver (letters q)).cell (letters q)) &&
      (b.turn w).holds q ((w.receiver (letters q)).cell (letters q)) then
    some ((b.turn w).settle (letters q))
  else none

@[simp] theorem turn_latch (b : Board) (w : Wire) : (b.turn w).latch = b.latch := rfl

@[simp] theorem settle_on (b : Board) (letters : List Char) : (b.settle letters).on = b.on := rfl

@[simp] theorem turn_on_self (b : Board) (w : Wire) : (b.turn w).on w = !b.on w := by
  simp [turn]

theorem turn_on_of_ne (b : Board) {w w' : Wire} (h : w' ≠ w) : (b.turn w).on w' = b.on w' := by
  simp [turn, h]

theorem settle_settle (b : Board) (letters : List Char) :
    (b.settle letters).settle letters = b.settle letters := by
  ext letter
  · rfl
  · simp only [settle, settledLatch]
    grind

/-! ## The rules, one by one -/

section Rules

variable {b : Board} {q : Qbf}

theorem Lawful.existential (h : b.Lawful q) {index : Nat} {letter : Char}
    (hb : q.bindings[index]? = some ⟨.existential, letter⟩) :
    (b.signals index letter).existentialHolds = true := by
  simpa [holds, hb, quantifierHolds] using h (.quantifier index)

theorem Lawful.universal (h : b.Lawful q) {index : Nat} {letter : Char}
    (hb : q.bindings[index]? = some ⟨.universal, letter⟩) :
    (b.signals index letter).universalHolds (b.latch letter) = true := by
  simpa [holds, hb, quantifierHolds] using h (.quantifier index)

theorem Lawful.out_ne_inv (h : b.Lawful q) {index : Nat} {letter : Char}
    (hb : q.bindings[index]? = some ⟨.universal, letter⟩) (hon : b.on (.call (index + 1)) = true) :
    b.on (.literal (.positive letter)) ≠ b.on (.literal (.negative letter)) :=
  (Signals.universalHolds_iff.1 (h.universal hb)).2.1 hon

theorem Lawful.not_out_and_inv (h : b.Lawful q) {index : Nat} {letter : Char}
    (hb : q.bindings[index]? = some ⟨.existential, letter⟩)
    (hon : b.on (.call (index + 1)) = true) :
    ¬(b.on (.literal (.positive letter)) = true ∧ b.on (.literal (.negative letter)) = true) :=
  (Signals.existentialHolds_iff.1 (h.existential hb)).2.1 hon

theorem Lawful.latch_and_out (h : b.Lawful q) {index : Nat} {letter : Char}
    (hb : q.bindings[index]? = some ⟨.universal, letter⟩) (hon : b.on (.success index) = true) :
    b.latch letter = true ∧ b.on (.literal (.positive letter)) = true :=
  ((Signals.universalHolds_iff.1 (h.universal hb)).2.2 hon).2

theorem Lawful.call_of_call_succ (h : b.Lawful q) {index : Nat} (hi : index < q.bindings.length)
    (hon : b.on (.call (index + 1)) = true) : b.on (.call index) = true := by
  obtain ⟨⟨kind, letter⟩, hb⟩ : ∃ b, q.bindings[index]? = some b :=
    ⟨_, List.getElem?_eq_getElem hi⟩
  cases kind with
  | existential => exact (Signals.existentialHolds_iff.1 (h.existential hb)).1 hon
  | universal => exact (Signals.universalHolds_iff.1 (h.universal hb)).1 hon

theorem Lawful.success_succ_of_success (h : b.Lawful q) {index : Nat}
    (hi : index < q.bindings.length) (hon : b.on (.success index) = true) :
    b.on (.success (index + 1)) = true := by
  obtain ⟨⟨kind, letter⟩, hb⟩ : ∃ b, q.bindings[index]? = some b :=
    ⟨_, List.getElem?_eq_getElem hi⟩
  cases kind with
  | existential => exact (Signals.existentialHolds_iff.1 (h.existential hb)).2.2 hon
  | universal => exact ((Signals.universalHolds_iff.1 (h.universal hb)).2.2 hon).1

theorem Lawful.call_of_le (h : b.Lawful q) {i j : Nat} (hij : i ≤ j)
    (hj : j ≤ q.bindings.length) (hon : b.on (.call j) = true) : b.on (.call i) = true := by
  induction hij with
  | refl => exact hon
  | step _ ih => exact ih (by omega) (h.call_of_call_succ hj hon)

theorem Lawful.success_of_le (h : b.Lawful q) {i j : Nat} (hij : i ≤ j)
    (hj : j ≤ q.bindings.length) (hon : b.on (.success i) = true) :
    b.on (.success j) = true := by
  induction hij with
  | refl => exact hon
  | step _ ih => exact h.success_succ_of_success hj (ih (by omega))

theorem Lawful.probes_of_success_last (h : b.Lawful q)
    (hon : b.on (.success q.bindings.length) = true) :
    b.on .called = true ∧ b.on .told = true := by
  simpa [holds, hon] using h .junction

theorem Lawful.call_last_of_called (h : b.Lawful q) (hon : b.on .called = true) :
    b.on (.call q.bindings.length) = true := by
  simpa [holds, hon] using h .callProbe

theorem Lawful.result_of_told (h : b.Lawful q) (hon : b.on .told = true) :
    b.on .result = true := by
  simpa [holds, hon] using h .resultProbe

theorem Lawful.formulaHolds_of_result (h : b.Lawful q) (hon : b.on .result = true) :
    b.formulaHolds q.matrix = true := by
  simpa [holds, hon] using h .evaluator

/-- A success anywhere in the chain means that every quantifier is asked to try. -/
theorem Lawful.call_of_success (h : b.Lawful q) {i j : Nat} (hi : i ≤ q.bindings.length)
    (hj : j ≤ q.bindings.length) (hon : b.on (.success i) = true) : b.on (.call j) = true := by
  have hlast := h.success_of_le hi (Nat.le_refl _) hon
  have hcalled := (h.probes_of_success_last hlast).1
  exact h.call_of_le hj (Nat.le_refl _) (h.call_last_of_called hcalled)

end Rules

end Board

end Circuit

end ConstraintLogic
