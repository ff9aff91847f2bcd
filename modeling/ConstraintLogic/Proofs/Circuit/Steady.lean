import ConstraintLogic.Proofs.Circuit.Board
/-!
# Steady boards

A board is steady if it is lawful and every latch is as its gadget asks for it. The board on which
a circuit starts is steady, and legal moves lead from steady boards to steady boards: a move leaves
the cells away from its two ends as they are, and the latches that settling clears belong to
quantifiers that do not tell of a success.
-/

namespace ConstraintLogic.Circuit

theorem cell_portOr_of_lt {letters : List Char} (hn : letters.Nodup) {index : Nat}
    (h : index < letters.length) (p : QuantifierPort) (other : Place) :
    (portOr letters index p other).cell letters = .quantifier index := by
  simp [portOr, List.getElem?_eq_getElem h, Place.cell, hn.idxOf_getElem]

theorem portOr_of_length_le {letters : List Char} {index : Nat} (h : letters.length ≤ index)
    (p : QuantifierPort) (other : Place) : portOr letters index p other = other := by
  simp [portOr, List.getElem?_eq_none h]

@[simp] theorem length_letters (q : Qbf) : (letters q).length = q.bindings.length :=
  List.length_map _

theorem getElem?_letters {q : Qbf} {index : Nat} {b : Binding}
    (h : q.bindings[index]? = some b) : (letters q)[index]? = some b.letter := by
  simp [letters, h]

theorem idxOf_letter {q : Qbf} (hn : (letters q).Nodup) {index : Nat} {b : Binding}
    (h : q.bindings[index]? = some b) : (letters q).idxOf b.letter = index := by
  have hl := getElem?_letters h
  exact ((getElem?_eq_some_iff_idxOf hn (List.mem_of_getElem? hl)).1 hl).symm

/-- A letter is bound once. -/
theorem index_eq_of_letter_eq {q : Qbf} (hn : (letters q).Nodup) {i j : Nat} {b b' : Binding}
    (hi : q.bindings[i]? = some b) (hj : q.bindings[j]? = some b') (h : b.letter = b'.letter) :
    i = j := by
  calc i = (letters q).idxOf b.letter := (idxOf_letter hn hi).symm
    _ = (letters q).idxOf b'.letter := by rw [h]
    _ = j := idxOf_letter hn hj

/-- The wire ends in the cell. -/
def Wire.Meets (ls : List Char) (w : Wire) (cell : Cell) : Prop :=
  (w.driver ls).cell ls = cell ∨ (w.receiver ls).cell ls = cell

namespace Board

variable {q : Qbf} {b b' : Board} {w : Wire}

/-- The ports of a quantifier notice only wires that end at them. -/
theorem signals_congr (hn : (letters q).Nodup) {index : Nat} {binding : Binding}
    (hb : q.bindings[index]? = some binding)
    (h : ∀ v : Wire, v.Meets (letters q) (.quantifier index) → b.on v = b'.on v) :
    b.signals index binding.letter = b'.signals index binding.letter := by
  have hi : index < (letters q).length := by
    rw [length_letters]
    exact (List.getElem?_eq_some_iff.1 hb).1
  have hport (p : QuantifierPort) (other : Place) :
      (portOr (letters q) index p other).cell (letters q) = .quantifier index :=
    cell_portOr_of_lt hn hi p other
  have hletter : Cell.quantifier ((letters q).idxOf binding.letter) = .quantifier index := by
    rw [idxOf_letter hn hb]
  simp only [signals]
  rw [h (.call index) (.inr (hport _ _)), h (.call (index + 1)) (.inl (hport _ _)),
    h (.success (index + 1)) (.inr (hport _ _)), h (.success index) (.inl (hport _ _)),
    h (.literal (.positive binding.letter)) (.inl hletter),
    h (.literal (.negative binding.letter)) (.inl hletter)]

/-- A cell looks only at wires that end in it and at its own latch. -/
theorem holds_congr (hn : (letters q).Nodup) {cell : Cell}
    (hon : ∀ v : Wire, v.Meets (letters q) cell → b.on v = b'.on v)
    (hlatch : ∀ index letter, cell = .quantifier index →
      q.bindings[index]? = some ⟨.universal, letter⟩ → b.latch letter = b'.latch letter) :
    b.holds q cell = b'.holds q cell := by
  cases cell with
  | quantifier index =>
    cases hb : q.bindings[index]? with
    | none => simp [holds, hb]
    | some binding =>
      have hsignals := signals_congr hn hb hon
      obtain ⟨kind, letter⟩ := binding
      cases kind with
      | existential => simp [holds, hb, quantifierHolds, hsignals]
      | universal => simp [holds, hb, quantifierHolds, hsignals, hlatch index letter rfl hb]
  | evaluator =>
    have hformula : b.formulaHolds q.matrix = b'.formulaHolds q.matrix := by
      simp only [formulaHolds]
      congr 1
      funext l
      exact hon _ (.inr rfl)
    simp only [holds, hformula]
    rw [hon .result (.inl rfl)]
  | callProbe =>
    simp only [holds]
    have hend : (Wire.call q.bindings.length).receiver (letters q) = .callProbe :=
      portOr_of_length_le (by simp) _ _
    rw [hon .called (.inl rfl), hon (.call q.bindings.length) (.inr (by rw [hend]; rfl))]
  | resultProbe =>
    simp only [holds]
    rw [hon .told (.inl rfl), hon .result (.inr rfl)]
  | junction =>
    simp only [holds]
    have hend : (Wire.success q.bindings.length).driver (letters q) = .junction :=
      portOr_of_length_le (by simp) _ _
    rw [hon .called (.inr rfl), hon .told (.inr rfl),
      hon (.success q.bindings.length) (.inl (by rw [hend]; rfl))]
  | source => rfl
  | sinkA =>
    simp only [holds]
    rw [hon .ringAB (.inr rfl), hon .ringCA (.inl rfl), hon (.success 0) (.inr rfl)]
  | sinkB =>
    simp only [holds]
    rw [hon .ringAB (.inl rfl), hon .ringBC (.inr rfl)]
  | sinkC =>
    simp only [holds]
    rw [hon .ringBC (.inl rfl), hon .ringCA (.inr rfl)]

theorem turn_on_of_meets {cell : Cell} (h : ¬w.Meets (letters q) cell) {v : Wire}
    (hv : v.Meets (letters q) cell) : (b.turn w).on v = b.on v := by
  apply turn_on_of_ne
  rintro rfl
  exact h hv

theorem holds_turn_of_not_meets (hn : (letters q).Nodup) {cell : Cell}
    (h : ¬w.Meets (letters q) cell) : (b.turn w).holds q cell = b.holds q cell :=
  holds_congr hn (fun _ hv => turn_on_of_meets h hv) fun _ _ _ _ => rfl

theorem Lawful.turn (hn : (letters q).Nodup) (h : b.Lawful q)
    (hd : (b.turn w).holds q ((w.driver (letters q)).cell (letters q)) = true)
    (hr : (b.turn w).holds q ((w.receiver (letters q)).cell (letters q)) = true) :
    (b.turn w).Lawful q := by
  intro cell
  by_cases hmeets : w.Meets (letters q) cell
  · rcases hmeets with rfl | rfl
    · exact hd
    · exact hr
  · rw [holds_turn_of_not_meets hn hmeets]
    exact h cell

/-- The rules see a latch only where a success is told. -/
theorem Lawful.of_latch (hn : (letters q).Nodup) (h : b.Lawful q) (hon : b'.on = b.on)
    (hlatch : ∀ index letter, q.bindings[index]? = some ⟨.universal, letter⟩ →
      b.on (.success index) = true → b'.latch letter = true) : b'.Lawful q := by
  intro cell
  cases cell with
  | quantifier index =>
    cases hb : q.bindings[index]? with
    | none => simp [holds, hb]
    | some binding =>
      obtain ⟨kind, letter⟩ := binding
      have hsignals : b'.signals index letter = b.signals index letter := by
        simp only [signals, hon]
      cases kind with
      | existential =>
        simp only [holds, hb, Option.all_some, quantifierHolds]
        rw [hsignals]
        exact h.existential hb
      | universal =>
        obtain ⟨htry, hone, hsat⟩ := Signals.universalHolds_iff.1 (h.universal hb)
        simp only [holds, hb, Option.all_some, quantifierHolds]
        rw [hsignals]
        refine Signals.universalHolds_iff.2 ⟨htry, hone, ?_⟩
        intro htells
        exact ⟨(hsat htells).1, hlatch index letter hb htells, (hsat htells).2.2⟩
  | _ =>
    rw [holds_congr hn (fun _ _ => congrFun hon _) (by simp)]
    exact h _

theorem settledLatch_of_success (hn : (letters q).Nodup) (h : b.Lawful q) {index : Nat}
    {letter : Char} (hb : q.bindings[index]? = some ⟨.universal, letter⟩)
    (hon : b.on (.success index) = true) : b.settledLatch (letters q) letter = true := by
  have hi : index < q.bindings.length := (List.getElem?_eq_some_iff.1 hb).1
  have hcall := h.call_of_success (Nat.le_of_lt hi) (Nat.le_of_lt hi) hon
  have hlatch := ((Signals.universalHolds_iff.1 (h.universal hb)).2.2 hon).2.1
  have hidx : (letters q).idxOf letter = index := idxOf_letter hn hb
  simp [settledLatch, hidx, hcall, hlatch]

/-- Settling breaks no rule: a quantifier that tells of a success is asked to try. -/
theorem Lawful.settle (hn : (letters q).Nodup) (h : b.Lawful q) :
    (b.settle (letters q)).Lawful q :=
  h.of_latch hn rfl fun _ _ hb hon => settledLatch_of_success hn h hb hon

/-- The board is lawful and its latches are as the gadgets ask for them. -/
structure Steady (b : Board) (q : Qbf) : Prop where
  lawful : b.Lawful q
  settled : b.settle (letters q) = b

theorem steady_start (q : Qbf) : start.Steady q where
  lawful := by
    intro cell
    cases cell with
    | quantifier index =>
      cases hb : q.bindings[index]? with
      | none => simp [holds, hb]
      | some binding =>
        obtain ⟨kind, letter⟩ := binding
        cases kind <;>
          simp [holds, hb, quantifierHolds, signals, start, Signals.existentialHolds,
            Signals.universalHolds]
    | _ => simp [holds, start]
  settled := by
    ext letter
    · rfl
    · simp [Board.settle, settledLatch, start]

theorem move?_eq_some_iff {next : Board} :
    b.move? q w = some next ↔
      w ≠ .loop ∧
      (b.turn w).holds q ((w.driver (letters q)).cell (letters q)) = true ∧
      (b.turn w).holds q ((w.receiver (letters q)).cell (letters q)) = true ∧
      next = (b.turn w).settle (letters q) := by
  unfold move?
  grind

theorem Steady.move? (hn : (letters q).Nodup) (h : b.Steady q) {next : Board}
    (hm : b.move? q w = some next) : next.Steady q := by
  obtain ⟨-, hd, hr, rfl⟩ := move?_eq_some_iff.1 hm
  exact ⟨(h.lawful.turn hn hd hr).settle hn, settle_settle _ _⟩

/-- In a lawful board the legal moves are those to which no cell objects. -/
theorem Lawful.isSome_move?_iff (hn : (letters q).Nodup) (h : b.Lawful q) (hw : w ≠ .loop) :
    (b.move? q w).isSome = true ↔ (b.turn w).Lawful q := by
  rw [Option.isSome_iff_exists]
  constructor
  · rintro ⟨next, hm⟩
    obtain ⟨-, hd, hr, -⟩ := move?_eq_some_iff.1 hm
    exact h.turn hn hd hr
  · intro ht
    exact ⟨_, move?_eq_some_iff.2 ⟨hw, ht _, ht _, rfl⟩⟩

/-! ## Latches of steady boards -/

theorem Steady.latch_eq (hn : (letters q).Nodup) (h : b.Steady q) {index : Nat}
    {binding : Binding} (hb : q.bindings[index]? = some binding) :
    b.latch binding.letter =
      (b.on (.call index) && (b.latch binding.letter ||
        b.on (.success (index + 1)) && b.on (.literal (.negative binding.letter)))) := by
  have hlatch := congrArg (fun b => b.latch binding.letter) h.settled
  simp only [Board.settle, settledLatch, idxOf_letter hn hb] at hlatch
  exact hlatch.symm

theorem Steady.call_of_latch (hn : (letters q).Nodup) (h : b.Steady q) {index : Nat}
    {binding : Binding} (hb : q.bindings[index]? = some binding)
    (hl : b.latch binding.letter = true) : b.on (.call index) = true := by
  have := h.latch_eq hn hb
  grind

theorem Steady.latch_of_success (hn : (letters q).Nodup) (h : b.Steady q) {index : Nat}
    {binding : Binding} (hb : q.bindings[index]? = some binding)
    (hs : b.on (.success (index + 1)) = true)
    (hi : b.on (.literal (.negative binding.letter)) = true) :
    b.latch binding.letter = true := by
  have hlt : index < q.bindings.length := (List.getElem?_eq_some_iff.1 hb).1
  have hcall := h.lawful.call_of_success hlt (Nat.le_of_lt hlt) hs
  have := h.latch_eq hn hb
  grind

/-! ## Plays -/

def Step (q : Qbf) (b next : Board) : Prop :=
  ∃ w, w.IsIn (letters q) ∧ b.move? q w = some next

/-- Legal moves lead from one board to another. -/
def Reaches (q : Qbf) : Board → Board → Prop :=
  Relation.ReflTransGen (Step q)

theorem Reaches.steady (hn : (letters q).Nodup) {next : Board} (h : Reaches q b next)
    (hb : b.Steady q) : next.Steady q := by
  induction h with
  | refl => exact hb
  | tail _ hstep ih =>
    obtain ⟨w, -, hm⟩ := hstep
    exact ih.move? hn hm

end Board

end ConstraintLogic.Circuit
