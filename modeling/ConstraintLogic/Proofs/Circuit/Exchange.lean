import ConstraintLogic.Proofs.Circuit.Retreat
import ConstraintLogic.Proofs.Consistency
/-!
# Moves taken back and moves exchanged

A legal move of a circuit can be taken back at once. Its latches may have changed meanwhile, but a
rule sees a latch only where a success is told, and while one is told no latch is cleared. Two
moves whose ends belong to different gadgets and vertices can be made in either order: the latch of
a quantifier depends on the wires that end there, and at most one of the moves turns one of them.
-/

namespace ConstraintLogic

namespace Graph

/-- The vertices are the same, or ports of one gadget. -/
def Adjoin (g : Graph) (vertex vertex' : Ident) : Prop :=
  vertex = vertex' ∨ ∃ v v' owner, g.vertices[vertex]? = some v ∧ g.vertices[vertex']? = some v' ∧
    v.gate.owner? = some owner ∧ v'.gate.owner? = some owner

/-- The edges share no end, and no gadget has ports at both of them. -/
def Independent (g : Graph) (e e' : Edge) : Prop :=
  ∀ vertex vertex', e.EndsAt vertex → e'.EndsAt vertex' → ¬g.Adjoin vertex vertex'

end Graph

namespace Circuit

/-- No cell meets both wires. -/
def Wire.Independent (ls : List Char) (w w' : Wire) : Prop :=
  ∀ cell, w.Meets ls cell → ¬w'.Meets ls cell

theorem Wire.Independent.symm {ls : List Char} {w w' : Wire} (h : Independent ls w w') :
    Independent ls w' w :=
  fun cell hw' hw => h cell hw hw'

namespace Board

variable {q : Qbf} {b next next' : Board} {w w' : Wire} {index : Nat}

/-! ## Taking a move back -/

/-- The latch that a success needs is there as long as the success is told, and after the move
that ends this. -/
theorem Lawful.latch_of_move? (hn : (letters q).Nodup) (h : b.Lawful q)
    (hm : b.move? q w = some next) {letter : Char}
    (hb : q.bindings[index]? = some ⟨.universal, letter⟩) (hon : b.on (.success index) = true) :
    next.latch letter = true := by
  obtain ⟨-, hd, hr, rfl⟩ := move?_eq_some_iff.1 hm
  have hi : index ≤ q.bindings.length := Nat.le_of_lt (List.getElem?_eq_some_iff.1 hb).1
  have hidx : (letters q).idxOf letter = index := idxOf_letter hn hb
  have hlatch : b.latch letter = true := (h.latch_and_out hb hon).1
  -- a latch is cleared only where the call ends, and no call ends while a success is told
  have hcall : (b.turn w).on (.call index) = true := by
    by_cases hw : w = .success index
    · rw [hw, turn_on_of_ne b (by simp)]
      exact h.call_of_success hi hi hon
    · have hstill : (b.turn w).on (.success index) = true := by
        rwa [turn_on_of_ne b (Ne.symm hw)]
      exact (h.turn hn hd hr).call_of_success hi hi hstill
  simp [Board.settle, settledLatch, hidx, hcall, hlatch]

theorem turn_turn_on (b : Board) (w : Wire) : ((b.turn w).turn w).on = b.on := by
  funext v
  by_cases hv : v = w
  · rw [hv, turn_on_self, turn_on_self, Bool.not_not]
  · rw [turn_on_of_ne _ hv, turn_on_of_ne _ hv]

/-- A legal move can be taken back at once. -/
theorem Lawful.exists_back (hn : (letters q).Nodup) (h : b.Lawful q)
    (hm : b.move? q w = some next) : ∃ back, next.move? q w = some back ∧ back.on = b.on := by
  have hlatch (index : Nat) (letter : Char)
      (hb : q.bindings[index]? = some ⟨.universal, letter⟩) (hon : b.on (.success index) = true) :
      next.latch letter = true := h.latch_of_move? hn hm hb hon
  obtain ⟨hloop, -, -, rfl⟩ := move?_eq_some_iff.1 hm
  have hback : (((b.turn w).settle (letters q)).turn w).Lawful q :=
    h.of_latch hn (turn_turn_on b w) hlatch
  exact ⟨_, move?_eq_some_iff.2 ⟨hloop, hback _, hback _, rfl⟩, turn_turn_on b w⟩

/-! ## Exchanging two moves -/

theorem turn_comm (b : Board) (w w' : Wire) : (b.turn w).turn w' = (b.turn w').turn w := by
  ext v
  · by_cases hv : v = w <;> by_cases hv' : v = w' <;> simp_all [turn]
  · rfl

/-- A cell that a move does not meet sees another move after it as it would have before. -/
theorem turn_settle_turn_on {cell : Cell} (hw : ¬w.Meets (letters q) cell) {v : Wire}
    (hv : v.Meets (letters q) cell) :
    (((b.turn w).settle (letters q)).turn w').on v = (b.turn w').on v := by
  change ((b.turn w).turn w').on v = _
  rw [turn_comm]
  exact turn_on_of_meets hw hv

theorem settledLatch_eq (hn : (letters q).Nodup) {binding : Binding}
    (hb : q.bindings[index]? = some binding) :
    b.settledLatch (letters q) binding.letter =
      ((b.signals index binding.letter).tryIn && (b.latch binding.letter ||
        (b.signals index binding.letter).satIn && (b.signals index binding.letter).inv)) := by
  simp [settledLatch, signals, idxOf_letter hn hb]

/-- A move elsewhere does not change what a quantifier asks for its latch. -/
theorem Steady.settledLatch_turn (hn : (letters q).Nodup) (h : b.Steady q) {binding : Binding}
    (hb : q.bindings[index]? = some binding) (hw : ¬w.Meets (letters q) (.quantifier index)) :
    (b.turn w).settledLatch (letters q) binding.letter = b.latch binding.letter := by
  have hsignals := signals_congr hn hb fun _ hv => turn_on_of_meets (b := b) hw hv
  rw [settledLatch_eq hn hb, hsignals, turn_latch, ← settledLatch_eq hn hb]
  exact congrArg (fun b => b.latch binding.letter) h.settled

/-- A move is as legal after an independent one as before. -/
theorem Steady.isSome_move?_of_move? (hn : (letters q).Nodup) (h : b.Steady q)
    (hind : Wire.Independent (letters q) w w') (hm : b.move? q w' = some next) :
    (next.move? q w).isSome = (b.move? q w).isSome := by
  obtain ⟨-, -, -, rfl⟩ := move?_eq_some_iff.1 hm
  have hsame (cell : Cell) (hcell : w.Meets (letters q) cell) :
      (((b.turn w').settle (letters q)).turn w).holds q cell = (b.turn w).holds q cell := by
    have hother : ¬w'.Meets (letters q) cell := hind cell hcell
    refine holds_congr hn (fun _ hv => turn_settle_turn_on hother hv) ?_
    rintro index letter rfl hb
    exact h.settledLatch_turn hn hb hother
  rw [Board.move?, Board.move?, hsame _ (.inl rfl), hsame _ (.inr rfl)]
  split_ifs <;> rfl

/-- The latch of a quantifier that only the second of two moves meets does not depend on their
order. -/
theorem Steady.latch_comm_of_not_meets (hn : (letters q).Nodup) (h : b.Steady q)
    {binding : Binding} (hb : q.bindings[index]? = some binding)
    (hw : ¬w.Meets (letters q) (.quantifier index)) :
    (((b.turn w).settle (letters q)).turn w').settledLatch (letters q) binding.letter =
      (((b.turn w').settle (letters q)).turn w).settledLatch (letters q) binding.letter := by
  have hfirst : ((b.turn w).settle (letters q)).latch binding.letter = b.latch binding.letter :=
    h.settledLatch_turn hn hb hw
  have hsecond := signals_congr (b := ((b.turn w).settle (letters q)).turn w') hn hb
    fun _ hv => turn_settle_turn_on hw hv
  have hlast := signals_congr (b := ((b.turn w').settle (letters q)).turn w) hn hb
    fun _ hv => turn_on_of_meets hw hv
  calc (((b.turn w).settle (letters q)).turn w').settledLatch (letters q) binding.letter
      = (b.turn w').settledLatch (letters q) binding.letter := by
        rw [settledLatch_eq hn hb, settledLatch_eq hn hb, hsecond, turn_latch, hfirst, turn_latch]
    _ = ((b.turn w').settle (letters q)).settledLatch (letters q) binding.letter :=
        (congrArg (fun b => b.latch binding.letter) (settle_settle _ _)).symm
    _ = (((b.turn w').settle (letters q)).turn w).settledLatch (letters q) binding.letter := by
        rw [settledLatch_eq hn hb, settledLatch_eq hn hb, hlast, turn_latch]

/-- Two independent moves leave the same latches in either order. -/
theorem Steady.latch_comm (hn : (letters q).Nodup) (h : b.Steady q)
    (hind : Wire.Independent (letters q) w w') {binding : Binding}
    (hb : q.bindings[index]? = some binding) :
    (((b.turn w).settle (letters q)).turn w').settledLatch (letters q) binding.letter =
      (((b.turn w').settle (letters q)).turn w).settledLatch (letters q) binding.letter := by
  by_cases hw : w.Meets (letters q) (.quantifier index)
  · exact (h.latch_comm_of_not_meets hn hb (hind _ hw)).symm
  · exact h.latch_comm_of_not_meets hn hb hw

/-- Two independent legal moves can be made in either order, to the same effect. -/
theorem Steady.exists_both (hn : (letters q).Nodup) (h : b.Steady q)
    (hind : Wire.Independent (letters q) w w') (hm : b.move? q w = some next)
    (hm' : b.move? q w' = some next') :
    ∃ last last', next.move? q w' = some last ∧ next'.move? q w = some last' ∧
      last'.on = last.on ∧
      ∀ binding ∈ q.bindings, last'.latch binding.letter = last.latch binding.letter := by
  have hsome := h.isSome_move?_of_move? hn hind.symm hm
  have hsome' := h.isSome_move?_of_move? hn hind hm'
  rw [hm'] at hsome
  rw [hm] at hsome'
  obtain ⟨last, hlast⟩ := Option.isSome_iff_exists.1 hsome
  obtain ⟨last', hlast'⟩ := Option.isSome_iff_exists.1 hsome'
  refine ⟨last, last', hlast, hlast', ?_⟩
  obtain ⟨-, -, -, rfl⟩ := move?_eq_some_iff.1 hm
  obtain ⟨-, -, -, rfl⟩ := move?_eq_some_iff.1 hm'
  obtain ⟨-, -, -, rfl⟩ := move?_eq_some_iff.1 hlast
  obtain ⟨-, -, -, rfl⟩ := move?_eq_some_iff.1 hlast'
  have hturn : ((b.turn w').turn w).on = ((b.turn w).turn w').on := by rw [turn_comm]
  refine ⟨hturn, ?_⟩
  intro binding hmem
  obtain ⟨index, hi⟩ := List.mem_iff_getElem?.1 hmem
  exact h.latch_comm hn hind.symm hi

end Board

variable {text : String} {q : Qbf} {g : Graph} {b b' : Board} {w w' : Wire}

/-! ## Graphs that moves are taken back in -/

/-- What has been moved in a circuit can be moved back at once. -/
theorem run_tryReverse_back (hq : Qbf.parse text = .ok q) :
    ∃ g, compile text = .ok g ∧ ∀ (moves : List Ident) (id : Ident) (next : Graph),
      (Edit.tryReverse id).run (g.play moves) = .ok true next →
        ∃ back, (Edit.tryReverse id).run next = .ok true back ∧
          back.edges = (g.play moves).edges := by
  have hproper := Qbf.isProper_of_parse hq
  have hsteady := Board.steady_start q
  obtain ⟨g, hg, hstart⟩ := exists_compile hq
  refine ⟨g, hg, ?_⟩
  intro moves id next hnext
  obtain ⟨b, hplay, hreach⟩ := hstart.play hproper hsteady moves
  have hb := hreach.steady hproper.nodup hsteady
  obtain ⟨w, b', hw, rfl, hm, hshows⟩ :=
    hplay.exists_move? hproper hb.lawful (Edit.run_tryReverse_eq_ok_true_iff.1 hnext)
  obtain ⟨b'', hback, hon⟩ := hb.lawful.exists_back hproper.nodup hm
  obtain ⟨back, hmoved, hlast⟩ :=
    hshows.moved?_eq_some hproper (hb.move? hproper.nodup hm).lawful hw hback
  exact ⟨back, Edit.run_tryReverse_eq_ok_true_iff.2 hmoved, hplay.edges_eq hlast hon⟩

/-- Asks for the branch of `!x` in the circuit of the copycat formula, and wins the matrix there. -/
def copycatBranch : List Wire :=
  [.call 0, .literal (.negative 'x'), .call 1, .literal (.negative 'y'), .call 2, .called, .result,
    .told, .success 2]

theorem isIn_copycat {ws : List Wire}
    (h : (ws.all fun w => (wires (letters Qbf.copycat)).contains w) = true) :
    ∀ w ∈ ws, w.IsIn (letters Qbf.copycat) := by
  intro w hw
  rw [← mem_wires]
  simpa using List.all_eq_true.1 h w hw

/-- The move that sets the latch of `x`, taken back. -/
theorem run_tryReverse_back_copycat :
    ∃ g next back, compile "forall x exists y : (x||!y)&&(!x||y)" = .ok g ∧
      (Edit.tryReverse ⟨["sat", "0"]⟩).run
        (g.play (copycatBranch.map (Wire.id (letters Qbf.copycat)))) = .ok true next ∧
      (Edit.tryReverse ⟨["sat", "0"]⟩).run next = .ok true back ∧
      back.edges = (g.play (copycatBranch.map (Wire.id (letters Qbf.copycat)))).edges := by
  obtain ⟨g, hg, hall⟩ := run_tryReverse_back Qbf.parse_copycat
  obtain ⟨g', hg', hstart⟩ := exists_compile Qbf.parse_copycat
  obtain rfl : g = g' := Except.ok.inj (hg.symm.trans hg')
  have hq := Qbf.isProper_of_parse Qbf.parse_copycat
  have hids : (copycatBranch ++ [Wire.success 1]).map (Wire.id (letters Qbf.copycat)) =
      copycatBranch.map (Wire.id (letters Qbf.copycat)) ++ [⟨["sat", "0"]⟩] := by decide +kernel
  obtain ⟨last, hrun⟩ : ∃ last, (copycatBranch ++ [Wire.success 1]).foldlM
      (fun b w => Board.move? b Qbf.copycat w) .start = some last :=
    Option.isSome_iff_exists.1 (by decide +kernel)
  have hlegal :=
    hstart.allLegal_of_run hq (Board.steady_start _) (isIn_copycat (by decide +kernel)) hrun
  rw [hids, Graph.allLegal_append] at hlegal
  obtain ⟨next, hnext⟩ := Option.isSome_iff_exists.1 hlegal.2.1
  have haccepted := Edit.run_tryReverse_eq_ok_true_iff.2 hnext
  obtain ⟨back, hback, hedges⟩ := hall _ _ next haccepted
  exact ⟨g, next, back, hg, haccepted, hback, hedges⟩

/-! ## Graphs that moves are exchanged in -/

theorem Wire.Meets.exists_place {ls : List Char} {cell : Cell} (hw : w.IsIn ls)
    (h : w.Meets ls cell) (on : Bool) :
    ∃ p : Place, p.IsIn ls ∧ p.cell ls = cell ∧ (w.edge ls on).EndsAt p.id := by
  rcases h with h | h
  · refine ⟨_, Wire.driver_isIn hw, h, ?_⟩
    cases on
    · exact .inr rfl
    · exact .inl rfl
  · refine ⟨_, Wire.receiver_isIn hw, h, ?_⟩
    cases on
    · exact .inl rfl
    · exact .inr rfl

theorem Wire.exists_place_of_endsAt {ls : List Char} (hw : w.IsIn ls) {on : Bool} {vertex : Ident}
    (h : (w.edge ls on).EndsAt vertex) :
    ∃ p : Place, p.IsIn ls ∧ p.id = vertex ∧ w.Meets ls (p.cell ls) := by
  have hdriver := Wire.driver_isIn hw
  have hreceiver := Wire.receiver_isIn hw
  cases on
  · rcases h with rfl | rfl
    · exact ⟨_, hreceiver, rfl, .inr rfl⟩
    · exact ⟨_, hdriver, rfl, .inl rfl⟩
  · rcases h with rfl | rfl
    · exact ⟨_, hdriver, rfl, .inl rfl⟩
    · exact ⟨_, hreceiver, rfl, .inr rfl⟩

theorem owner?_gate_port (hn : (letters q).Nodup) {letter : Char} (h : letter ∈ letters q)
    (port : QuantifierPort) :
    ((Place.port letter port).gate q).owner? = some (quantifierId letter) := by
  obtain ⟨binding, hmem, rfl⟩ := List.mem_map.1 h
  obtain ⟨index, hi⟩ := List.mem_iff_getElem?.1 hmem
  rw [gate_port hn hi, portGate]
  cases binding.quantifier <;> rfl

/-- Places belong to one cell if they are the same or ports of one gadget. -/
theorem Place.cell_eq_iff (hn : (letters q).Nodup) {p p' : Place} (hp : p.IsIn (letters q))
    (hp' : p'.IsIn (letters q)) :
    p.cell (letters q) = p'.cell (letters q) ↔
      p = p' ∨ ∃ owner, (p.gate q).owner? = some owner ∧ (p'.gate q).owner? = some owner := by
  cases p with
  | port letter port =>
    rw [owner?_gate_port hn hp]
    cases p' with
    | port letter' port' =>
      have hletter : (letters q).idxOf letter = (letters q).idxOf letter' ↔ letter = letter' :=
        List.idxOf_inj hp
      have howner : (∃ owner, some (quantifierId letter) = some owner ∧
          some (quantifierId letter') = some owner) ↔ letter = letter' := by
        simp [quantifierId, eq_comm]
      rw [owner?_gate_port hn hp', howner, Place.cell, Place.cell, Cell.quantifier.injEq, hletter,
        Place.port.injEq]
      exact ⟨.inr, fun h => h.elim And.left fun h => h⟩
    | _ => simp [Place.cell, Place.gate, Gate.owner?, quantifierId, formulaId]
  | _ =>
    cases p' with
    | port letter' port' =>
      rw [owner?_gate_port hn hp']
      simp [Place.cell, Place.gate, Gate.owner?, quantifierId, formulaId]
    | _ => simp [Place.cell, Place.gate, Gate.owner?, formulaId]

theorem Shows.adjoin_iff (hn : (letters q).Nodup) (h : Shows q g b) {p p' : Place}
    (hp : p.IsIn (letters q)) (hp' : p'.IsIn (letters q)) :
    g.Adjoin p.id p'.id ↔ p.cell (letters q) = p'.cell (letters q) := by
  obtain ⟨v, hv, hat⟩ := h.vertex p hp
  obtain ⟨v', hv', hat'⟩ := h.vertex p' hp'
  have hid : p.id = p'.id ↔ p = p' := ⟨Place.id_injective, congrArg Place.id⟩
  rw [Place.cell_eq_iff hn hp hp', Graph.Adjoin, hid, ← hat.gate_eq, ← hat'.gate_eq]
  simp [hv, hv']

/-- Edges are independent in the graph if their wires are independent on the board. -/
theorem Shows.independent_iff (hn : (letters q).Nodup) (h : Shows q g b)
    (hw : w.IsIn (letters q)) (hw' : w'.IsIn (letters q)) (on on' : Bool) :
    g.Independent (w.edge (letters q) on) (w'.edge (letters q) on') ↔
      Wire.Independent (letters q) w w' := by
  constructor
  · intro hind cell hmeets hmeets'
    obtain ⟨p, hp, hcell, hend⟩ := hmeets.exists_place hw on
    obtain ⟨p', hp', hcell', hend'⟩ := hmeets'.exists_place hw' on'
    exact hind _ _ hend hend' ((h.adjoin_iff hn hp hp').2 (hcell.trans hcell'.symm))
  · intro hind vertex vertex' hend hend'
    obtain ⟨p, hp, rfl, hmeets⟩ := Wire.exists_place_of_endsAt hw hend
    obtain ⟨p', hp', rfl, hmeets'⟩ := Wire.exists_place_of_endsAt hw' hend'
    rw [h.adjoin_iff hn hp hp']
    intro hcell
    rw [← hcell] at hmeets'
    exact hind _ hmeets hmeets'

theorem Shows.run_tryReverse (h : Shows q g b) (hw : w.IsIn (letters q)) :
    (Edit.tryReverse (w.id (letters q))).run g =
      .ok (g.moved? (w.id (letters q))).isSome (g.attempt (w.id (letters q))) := by
  rw [Edit.run_tryReverse, if_pos (Registry.mem_of_getElem? (h.getElem?_edges hw))]

theorem Shows.isSome_moved?_attempt (hq : q.IsProper) (h : Shows q g b) (hb : b.Steady q)
    (hw : w.IsIn (letters q)) (hw' : w'.IsIn (letters q))
    (hind : Wire.Independent (letters q) w w') :
    ((g.attempt (w'.id (letters q))).moved? (w.id (letters q))).isSome =
      (g.moved? (w.id (letters q))).isSome := by
  cases hm : b.move? q w' with
  | none => rw [Graph.attempt_of_moved?_eq_none (h.moved?_eq_none hq hw' hm)]
  | some next =>
    obtain ⟨g', hg', hnext⟩ := h.moved?_eq_some hq hb.lawful hw' hm
    rw [Graph.attempt_of_moved?_eq_some hg',
      hnext.isSome_moved? hq (hb.move? hq.nodup hm).lawful hw, h.isSome_moved? hq hb.lawful hw,
      hb.isSome_move?_of_move? hq.nodup hind hm]

/-- Attempts commute where one of them is refused, before the other and after it. -/
theorem attempt_comm_of_moved?_eq_none {id id' : Ident} (h : g.moved? id = none)
    (hsame : ((g.attempt id').moved? id).isSome = (g.moved? id).isSome) :
    (g.attempt id).attempt id' = (g.attempt id').attempt id := by
  rw [h, Option.isSome_none, Option.isSome_eq_false_iff, Option.isNone_iff_eq_none] at hsame
  rw [Graph.attempt_of_moved?_eq_none h, Graph.attempt_of_moved?_eq_none hsame]

theorem Shows.attempt_comm_of_move? (hq : q.IsProper) (h : Shows q g b) (hb : b.Steady q)
    (hw : w.IsIn (letters q)) (hw' : w'.IsIn (letters q))
    (hind : Wire.Independent (letters q) w w') {next next' : Board}
    (hm : b.move? q w = some next) (hm' : b.move? q w' = some next') :
    (g.attempt (w.id (letters q))).attempt (w'.id (letters q)) =
      (g.attempt (w'.id (letters q))).attempt (w.id (letters q)) := by
  obtain ⟨last, last', hlast, hlast', hon, hlatch⟩ := hb.exists_both hq.nodup hind hm hm'
  obtain ⟨g₁, hg₁, h₁⟩ := h.moved?_eq_some hq hb.lawful hw hm
  obtain ⟨g₁', hg₁', h₁'⟩ := h.moved?_eq_some hq hb.lawful hw' hm'
  obtain ⟨g₂, hg₂, h₂⟩ := h₁.moved?_eq_some hq (hb.move? hq.nodup hm).lawful hw' hlast
  obtain ⟨g₂', hg₂', h₂'⟩ := h₁'.moved?_eq_some hq (hb.move? hq.nodup hm').lawful hw hlast'
  have hframe : g₂.SameFrame g :=
    (Graph.sameFrame_of_moved? hg₂).trans (Graph.sameFrame_of_moved? hg₁)
  have hframe' : g₂'.SameFrame g :=
    (Graph.sameFrame_of_moved? hg₂').trans (Graph.sameFrame_of_moved? hg₁')
  have hentities : g₂.SameEntities g₂' :=
    h₂'.sameEntities (h₂.congr hon hlatch) (hframe.trans hframe'.symm)
  have hrevision : g₂.revision = g₂'.revision := by
    rw [(Graph.record_of_moved? hg₂).1, (Graph.record_of_moved? hg₁).1,
      (Graph.record_of_moved? hg₂').1, (Graph.record_of_moved? hg₁').1]
  have hchanged : g₂.changed = g₂'.changed := by
    rw [(Graph.record_of_moved? hg₂).2, (Graph.record_of_moved? hg₂').2]
  rw [Graph.attempt_of_moved?_eq_some hg₁, Graph.attempt_of_moved?_eq_some hg₁',
    Graph.attempt_of_moved?_eq_some hg₂, Graph.attempt_of_moved?_eq_some hg₂']
  exact hentities.eq hrevision hchanged

theorem Shows.attempt_comm (hq : q.IsProper) (h : Shows q g b) (hb : b.Steady q)
    (hw : w.IsIn (letters q)) (hw' : w'.IsIn (letters q))
    (hind : Wire.Independent (letters q) w w') :
    (g.attempt (w.id (letters q))).attempt (w'.id (letters q)) =
      (g.attempt (w'.id (letters q))).attempt (w.id (letters q)) := by
  cases hm : b.move? q w with
  | none =>
    exact attempt_comm_of_moved?_eq_none (h.moved?_eq_none hq hw hm)
      (h.isSome_moved?_attempt hq hb hw hw' hind)
  | some next =>
    cases hm' : b.move? q w' with
    | none =>
      exact (attempt_comm_of_moved?_eq_none (h.moved?_eq_none hq hw' hm')
        (h.isSome_moved?_attempt hq hb hw' hw hind.symm)).symm
    | some next' => exact h.attempt_comm_of_move? hq hb hw hw' hind hm hm'

/-- In a circuit, independent moves do not notice each other, and their order does not matter. -/
theorem run_tryReverse_exchange (hq : Qbf.parse text = .ok q) :
    ∃ g, compile text = .ok g ∧ ∀ (moves : List Ident) (id id' : Ident) (e e' : Edge),
      (g.play moves).edges[id]? = some e → (g.play moves).edges[id']? = some e' →
      (g.play moves).Independent e e' →
        ∃ answer answer' first first' last,
          (Edit.tryReverse id).run (g.play moves) = .ok answer first ∧
          (Edit.tryReverse id').run (g.play moves) = .ok answer' first' ∧
          (Edit.tryReverse id').run first = .ok answer' last ∧
          (Edit.tryReverse id).run first' = .ok answer last := by
  have hproper := Qbf.isProper_of_parse hq
  have hsteady := Board.steady_start q
  obtain ⟨g, hg, hstart⟩ := exists_compile hq
  refine ⟨g, hg, ?_⟩
  intro moves id id' e e' he he' hind
  obtain ⟨b, hplay, hreach⟩ := hstart.play hproper hsteady moves
  have hb := hreach.steady hproper.nodup hsteady
  obtain ⟨w, hw, rfl, rfl⟩ := (hplay.edge_iff id e).1 he
  obtain ⟨w', hw', rfl, rfl⟩ := (hplay.edge_iff id' e').1 he'
  have hwires := (hplay.independent_iff hproper.nodup hw hw' _ _).1 hind
  obtain ⟨first, hfirst, -⟩ := hplay.attempt hproper hb (w.id (letters q))
  obtain ⟨first', hfirst', -⟩ := hplay.attempt hproper hb (w'.id (letters q))
  refine ⟨_, _, _, _, ((g.play moves).attempt (w.id (letters q))).attempt (w'.id (letters q)),
    hplay.run_tryReverse hw, hplay.run_tryReverse hw', ?_, ?_⟩
  · rw [hfirst.run_tryReverse hw', hplay.isSome_moved?_attempt hproper hb hw' hw hwires.symm]
  · rw [hfirst'.run_tryReverse hw, hplay.isSome_moved?_attempt hproper hb hw hw' hwires,
      hplay.attempt_comm hproper hb hw hw' hwires]

/-- Sets the latch of `x` and takes everything back but the first call and the result. -/
def copycatRetreat : List Wire :=
  [.success 1, .success 1, .success 2, .told, .called, .call 2, .call 1]

/-- The move that clears the latch of `x`, exchanged with one at the evaluator. -/
theorem run_tryReverse_exchange_copycat :
    ∃ g moves e e', compile "forall x exists y : (x||!y)&&(!x||y)" = .ok g ∧
      moves = (copycatBranch ++ copycatRetreat).map (Wire.id (letters Qbf.copycat)) ∧
      (g.play moves).edges[(⟨["source", "try"]⟩ : Ident)]? = some e ∧
      (g.play moves).edges[(⟨["probe", "result", "in"]⟩ : Ident)]? = some e' ∧
      (g.play moves).Independent e e' ∧
      ∃ answer answer' first first' last,
        (Edit.tryReverse ⟨["source", "try"]⟩).run (g.play moves) = .ok answer first ∧
        (Edit.tryReverse ⟨["probe", "result", "in"]⟩).run (g.play moves) = .ok answer' first' ∧
        (Edit.tryReverse ⟨["probe", "result", "in"]⟩).run first = .ok answer' last ∧
        (Edit.tryReverse ⟨["source", "try"]⟩).run first' = .ok answer last := by
  obtain ⟨g, hg, hall⟩ := run_tryReverse_exchange Qbf.parse_copycat
  obtain ⟨g', hg', hstart⟩ := exists_compile Qbf.parse_copycat
  obtain rfl : g = g' := Except.ok.inj (hg.symm.trans hg')
  have hq := Qbf.isProper_of_parse Qbf.parse_copycat
  obtain ⟨b, hrun⟩ : ∃ b, (copycatBranch ++ copycatRetreat).foldlM
      (fun b w => Board.move? b Qbf.copycat w) .start = some b :=
    Option.isSome_iff_exists.1 (by decide +kernel)
  obtain ⟨-, hplay⟩ :=
    hstart.play_of_run hq (Board.steady_start _) (isIn_copycat (by decide +kernel)) hrun
  have hcall : (Wire.call 0).IsIn (letters Qbf.copycat) := Nat.zero_le _
  have hresult : Wire.result.IsIn (letters Qbf.copycat) := trivial
  have hwires : Wire.Independent (letters Qbf.copycat) (.call 0) .result := by
    rintro cell (rfl | rfl) (h | h) <;> exact absurd h (by decide +kernel)
  have hind :=
    (hplay.independent_iff hq.nodup hcall hresult (b.on (.call 0)) (b.on .result)).2 hwires
  have he := hplay.getElem?_edges hcall
  have he' := hplay.getElem?_edges hresult
  exact ⟨g, _, _, _, hg, rfl, he, he', hind, hall _ _ _ _ _ he he' hind⟩

end Circuit

end ConstraintLogic
