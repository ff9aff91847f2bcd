import ConstraintLogic.Graph.Play
import ConstraintLogic.Proofs.Circuit.Satisfied
import ConstraintLogic.Proofs.Pass
/-!
# Plays of circuits

A move of a graph that shows a board is a move of the board: it is legal for both or for neither,
and afterwards the graph shows the new board.
-/

namespace ConstraintLogic.Circuit

variable {q : Qbf} {g : Graph} {b : Board} {w : Wire}

/-! ## Turning an edge -/

theorem Shows.getElem?_edges (h : Shows q g b) (hw : w.IsIn (letters q)) :
    g.edges[w.id (letters q)]? = some (w.edge (letters q) (b.on w)) :=
  (h.edge_iff _ _).2 ⟨w, hw, rfl, rfl⟩

theorem Shows.flip (h : Shows q g b) (hw : w.IsIn (letters q)) :
    Shows q (g.flip (w.edge (letters q) (b.on w))) (b.turn w) where
  vertex := h.vertex
  place := h.place
  edge_iff id e := by
    have hflip : (g.flip (w.edge (letters q) (b.on w))).edges =
        g.edges.insert (w.id (letters q)) (w.edge (letters q) !b.on w) := by
      rw [← Wire.edge_reverse]
      rfl
    rw [hflip, Std.ExtTreeMap.getElem?_insert]
    simp only [Registry.compare_eq_iff]
    split
    · next hid =>
      subst hid
      rw [Option.some.injEq]
      constructor
      · rintro rfl
        exact ⟨w, hw, rfl, by rw [Board.turn_on_self]⟩
      · rintro ⟨w', hw', hid, rfl⟩
        obtain rfl := Wire.id_injective hid
        rw [Board.turn_on_self]
    · next hid =>
      have hkeep (w' : Wire) (hw' : w'.id (letters q) = id) : (b.turn w).on w' = b.on w' := by
        apply Board.turn_on_of_ne
        rintro rfl
        exact hid hw'
      rw [h.edge_iff]
      constructor
      · rintro ⟨w', hw', hid', rfl⟩
        exact ⟨w', hw', hid', by rw [hkeep w' hid']⟩
      · rintro ⟨w', hw', hid', rfl⟩
        exact ⟨w', hw', hid', by rw [hkeep w' hid']⟩
  quantifier := h.quantifier
  evaluator := h.evaluator
  binding := h.binding

theorem portOr_isIn {ls : List Char} {index : Nat} {port : QuantifierPort} {other : Place}
    (hother : other.IsIn ls) : (portOr ls index port other).IsIn ls := by
  rw [portOr]
  cases hl : ls[index]? with
  | none => exact hother
  | some letter => exact List.mem_of_getElem? hl

theorem Wire.driver_isIn {ls : List Char} (hw : w.IsIn ls) : (w.driver ls).IsIn ls := by
  cases w with
  | call index =>
    cases index with
    | zero => trivial
    | succ index => exact portOr_isIn trivial
  | success index => exact portOr_isIn trivial
  | literal l => exact hw
  | _ => trivial

theorem Wire.receiver_isIn {ls : List Char} (hw : w.IsIn ls) : (w.receiver ls).IsIn ls := by
  cases w with
  | call index => exact portOr_isIn trivial
  | success index =>
    cases index with
    | zero => trivial
    | succ index => exact portOr_isIn trivial
  | literal l => exact hw
  | _ => trivial

theorem Shows.any_isSatisfied (hq : q.IsProper) (h : Shows q g b) {p : Place}
    (hp : p.IsIn (letters q)) :
    g.vertices[p.id]?.any g.isSatisfied = b.holds q (p.cell (letters q)) := by
  obtain ⟨v, hv, hat⟩ := h.vertex p hp
  rw [hv, Option.any_some, h.isSatisfied_eq hq hp hat]

/-- Both ends of an edge are satisfied exactly if the cells at the ends of its wire are. -/
theorem Shows.isEdgeSatisfied_eq (hq : q.IsProper) (h : Shows q g b) (hw : w.IsIn (letters q))
    (on : Bool) :
    g.isEdgeSatisfied (w.edge (letters q) on) =
      (b.holds q ((w.driver (letters q)).cell (letters q)) &&
        b.holds q ((w.receiver (letters q)).cell (letters q))) := by
  have hd := h.any_isSatisfied hq (Wire.driver_isIn hw)
  have hr := h.any_isSatisfied hq (Wire.receiver_isIn hw)
  cases on
  · rw [Bool.and_comm, ← hd, ← hr]
    rfl
  · rw [← hd, ← hr]
    rfl

/-! ## Settling the latches -/

theorem Shows.ownsVertex (h : Shows q g b) (hq : q.IsProper) {binding : Binding}
    (hb : binding ∈ q.bindings) : g.OwnsVertex (quantifierId binding.letter) := by
  obtain ⟨index, hi⟩ := List.mem_iff_getElem?.1 hb
  have hin : (Place.port binding.letter .tryIn).IsIn (letters q) := List.mem_map_of_mem hb
  obtain ⟨v, hv, hat⟩ := h.vertex _ hin
  refine ⟨_, v, hv, ?_⟩
  rw [hat.gate_eq, gate_port hq.nodup hi, portGate]
  cases binding.quantifier <;> rfl

/-- What tells a quantifier of a success is satisfied. -/
theorem Shows.isSatSourceSatisfied (hq : q.IsProper) (h : Shows q g b) (hb : b.Lawful q)
    {index : Nat} {binding : Binding} (hi : q.bindings[index]? = some binding) {latch : Bool}
    {c : Component} (hc : QuantifierAt binding latch c)
    (hon : b.on (.success (index + 1)) = true) : g.isSatSourceSatisfied c = true := by
  have hl := getElem?_letters hi
  have hin : (Place.port binding.letter .satIn).IsIn (letters q) := List.mem_of_getElem? hl
  have hw : (Wire.success (index + 1)).IsIn (letters q) :=
    (List.getElem?_eq_some_iff.1 hl).1
  have hreceiver : (Wire.success (index + 1)).receiver (letters q) =
      .port binding.letter .satIn := (receiver_portWire hl).2
  have hat : wiresAt (letters q) (.port binding.letter .satIn) = [.success (index + 1)] := by
    rw [wiresAt, idxOf_letter hq.nodup hi]
    rfl
  obtain ⟨v, hv, hvat⟩ := h.vertex _ hin
  have hincoming : g.incoming v = [(Wire.success (index + 1)).edge (letters q) true] := by
    have hpoints : (((Wire.success (index + 1)).edge (letters q) true).direction? v.id ==
        some .incoming) = true := by
      rw [hvat.id_eq]
      exact Wire.incoming_of_receiver (by simp) hreceiver true
    have hperm := (h.incident_perm hq hin hvat).filter fun e =>
      e.direction? v.id == some .incoming
    rw [hat, List.map_singleton, hon, List.filter_cons_of_pos (by exact hpoints),
      List.filter_nil] at hperm
    exact List.perm_singleton.1 hperm
  have hport : g.port? c QuantifierPort.satIn.name = some v := by
    rw [Graph.port?, hc.ports_eq, Option.bind_some]
    exact hv
  have hsource := h.any_isSatisfied hq (Wire.driver_isIn hw)
  rw [hb] at hsource
  simp only [Graph.isSatSourceSatisfied, hport, hincoming]
  rw [List.find?_cons_of_pos (by rw [Wire.circular_edge (by simp)]; rfl)]
  exact hsource

theorem Shows.latchRequest?_eq (hq : q.IsProper) (h : Shows q g b) (hb : b.Lawful q)
    {index : Nat} {letter : Char} (hi : q.bindings[index]? = some ⟨.universal, letter⟩)
    {latch : Bool} {c : Component} (hc : QuantifierAt ⟨.universal, letter⟩ latch c) :
    g.latchRequest? c =
      if b.on (.call index) then
        if b.on (.success (index + 1)) && b.on (.literal (.negative letter)) then some .set
        else none
      else some .clear := by
  have hsignals := h.signals_eq hq hi hc
  have hgadget : c.gadget = .universal letter latch := hc.gadget_eq
  simp only [Graph.latchRequest?, hgadget, hsignals, Board.signals]
  cases hcall : b.on (.call index)
  · rfl
  cases hsat : b.on (.success (index + 1))
  · rfl
  rw [h.isSatSourceSatisfied hq hb hi hc hsat]
  cases b.on (.literal (.negative letter)) <;> rfl

theorem Shows.quantifierAt_settledComponent (hq : q.IsProper) (h : Shows q g b)
    (hb : b.Lawful q) {binding : Binding} (hmem : binding ∈ q.bindings) {c : Component}
    (hc : QuantifierAt binding (b.latch binding.letter) c) :
    QuantifierAt binding (b.settledLatch (letters q) binding.letter) (g.settledComponent c) := by
  obtain ⟨index, hi⟩ := List.mem_iff_getElem?.1 hmem
  obtain ⟨kind, letter⟩ := binding
  cases kind with
  | existential =>
    have hnone : g.latchRequest? c = none := by
      rw [Graph.latchRequest?, hc.gadget_eq]
      rfl
    rw [Graph.settledComponent, hnone]
    exact ⟨hc.gadget_eq, hc.ports_eq⟩
  | universal =>
    have hidx : (letters q).idxOf letter = index := idxOf_letter hq.nodup hi
    have hgadget : c.gadget = .universal letter (b.latch letter) := hc.gadget_eq
    rw [Graph.settledComponent, h.latchRequest?_eq hq hb hi hc]
    simp only [Board.settledLatch, hidx]
    cases b.on (.call index)
    · exact ⟨by simp [Component.withLatch, hgadget]; rfl, hc.ports_eq⟩
    cases b.on (.success (index + 1)) && b.on (.literal (.negative letter))
    · exact ⟨by rw [Bool.or_false]; exact hgadget, hc.ports_eq⟩
    · exact ⟨by simp [Component.withLatch, hgadget]; rfl, hc.ports_eq⟩

theorem Shows.settled (hq : q.IsProper) (h : Shows q g b) (hb : b.Lawful q) :
    Shows q g.settled (b.settle (letters q)) where
  vertex := h.vertex
  place := h.place
  edge_iff := h.edge_iff
  quantifier binding hmem := by
    obtain ⟨c, hc, hat⟩ := h.quantifier binding hmem
    exact ⟨_, Graph.components_settled hc (h.ownsVertex hq hmem),
      h.quantifierAt_settledComponent hq hb hmem hat⟩
  evaluator := by
    obtain ⟨c, hc, hat⟩ := h.evaluator
    refine ⟨c, Graph.components_settled_of_latch?_eq_none hc ?_, hat⟩
    rw [Component.latch?, hat.gadget_eq]
    rfl
  binding id c hc hl := by
    rw [Graph.settled, Pass.components_settle] at hc
    obtain ⟨c', hc', rfl⟩ := Option.map_eq_some_iff.1 hc
    refine h.binding id c' hc' ?_
    intro hnone
    apply hl
    cases g.fullPass.requests[id]? with
    | none => exact hnone
    | some r =>
      rw [Option.elim_some, Component.latch?, Component.withLatch, Gadget.latch?_withLatch,
        ← Component.latch?, hnone]
      rfl

theorem Shows.touch (h : Shows q g b) : Shows q g.touch b :=
  ⟨h.vertex, h.place, h.edge_iff, h.quantifier, h.evaluator, h.binding⟩

/-- A graph shows nothing of the latches of letters that are not bound. -/
theorem Shows.congr (h : Shows q g b) {b' : Board} (hon : b'.on = b.on)
    (hlatch : ∀ binding ∈ q.bindings, b'.latch binding.letter = b.latch binding.letter) :
    Shows q g b' where
  vertex := h.vertex
  place := h.place
  edge_iff := by
    rw [hon]
    exact h.edge_iff
  quantifier binding hmem := by
    rw [hlatch binding hmem]
    exact h.quantifier binding hmem
  evaluator := h.evaluator
  binding := h.binding

/-! ## Moves -/

/-- A graph that shows a lawful board moves as the board does. -/
theorem Shows.moved?_eq_some (hq : q.IsProper) (h : Shows q g b) (hb : b.Lawful q)
    (hw : w.IsIn (letters q)) {next : Board} (hm : b.move? q w = some next) :
    ∃ g', g.moved? (w.id (letters q)) = some g' ∧ Shows q g' next := by
  obtain ⟨hloop, hd, hr, rfl⟩ := Board.move?_eq_some_iff.1 hm
  have hends := (h.flip hw).isEdgeSatisfied_eq hq hw (!b.on w)
  rw [hd, hr] at hends
  refine ⟨(g.flip (w.edge (letters q) (b.on w))).settled.touch, ?_,
    ((h.flip hw).settled hq (hb.turn hq.nodup hd hr)).touch⟩
  rw [Graph.moved?, h.getElem?_edges hw, Option.bind_some, Graph.move?, Wire.circular_edge hloop,
    Wire.edge_reverse, hends]
  rfl

theorem Shows.moved?_eq_none (hq : q.IsProper) (h : Shows q g b) (hw : w.IsIn (letters q))
    (hm : b.move? q w = none) : g.moved? (w.id (letters q)) = none := by
  rw [Graph.moved?, h.getElem?_edges hw, Option.bind_some, Graph.move?]
  by_cases hloop : w = .loop
  · subst hloop
    cases b.on .loop <;> rfl
  · have hends := (h.flip hw).isEdgeSatisfied_eq hq hw (!b.on w)
    rw [Board.move?, if_neg hloop] at hm
    rw [Wire.circular_edge hloop, Wire.edge_reverse, hends]
    split at hm
    · cases hm
    · next hnot => rw [if_neg (by simp), if_neg hnot]

theorem Shows.moved?_of_not_wire (h : Shows q g b) {id : Ident}
    (hid : ∀ w : Wire, w.IsIn (letters q) → w.id (letters q) ≠ id) : g.moved? id = none := by
  have hnone : g.edges[id]? = none := by
    rw [Option.eq_none_iff_forall_ne_some]
    intro e he
    obtain ⟨w, hw, hwid, -⟩ := (h.edge_iff id e).1 he
    exact hid w hw hwid
  rw [Graph.moved?, hnone]
  rfl

theorem Shows.isSome_moved? (hq : q.IsProper) (h : Shows q g b) (hb : b.Lawful q)
    (hw : w.IsIn (letters q)) :
    (g.moved? (w.id (letters q))).isSome = (b.move? q w).isSome := by
  cases hm : b.move? q w with
  | none =>
    rw [h.moved?_eq_none hq hw hm]
    rfl
  | some next =>
    obtain ⟨g', hg', -⟩ := h.moved?_eq_some hq hb hw hm
    rw [hg']
    rfl

/-- Every move of a graph that shows a lawful board is a move of the board. -/
theorem Shows.exists_move? (hq : q.IsProper) (h : Shows q g b) (hb : b.Lawful q) {id : Ident}
    {g' : Graph} (hm : g.moved? id = some g') :
    ∃ w next, w.IsIn (letters q) ∧ w.id (letters q) = id ∧ b.move? q w = some next ∧
      Shows q g' next := by
  have hid : ∃ w : Wire, w.IsIn (letters q) ∧ w.id (letters q) = id := by
    by_contra hnot
    rw [h.moved?_of_not_wire fun w hw hwid => hnot ⟨w, hw, hwid⟩] at hm
    cases hm
  obtain ⟨w, hw, rfl⟩ := hid
  have hsome := h.isSome_moved? hq hb hw
  rw [hm] at hsome
  obtain ⟨next, hnext⟩ := Option.isSome_iff_exists.1 hsome.symm
  obtain ⟨g'', hg'', hshows⟩ := h.moved?_eq_some hq hb hw hnext
  obtain rfl := Option.some.inj (hm.symm.trans hg'')
  exact ⟨w, next, hw, rfl, hnext, hshows⟩

/-- An attempt leaves the board as it is or makes one legal move on it. -/
theorem Shows.attempt_eq_or_step (hq : q.IsProper) (h : Shows q g b) (hb : b.Lawful q)
    (id : Ident) :
    ∃ next, Shows q (g.attempt id) next ∧ (next = b ∨ Board.Step q b next) := by
  cases hm : g.moved? id with
  | none =>
    refine ⟨b, ?_, .inl rfl⟩
    rwa [Graph.attempt_of_moved?_eq_none hm]
  | some g' =>
    obtain ⟨w, next, hw, -, hnext, hshows⟩ := h.exists_move? hq hb hm
    refine ⟨next, ?_, .inr ⟨w, hw, hnext⟩⟩
    rwa [Graph.attempt, hm]

theorem Shows.attempt (hq : q.IsProper) (h : Shows q g b) (hb : b.Steady q) (id : Ident) :
    ∃ next, Shows q (g.attempt id) next ∧ Board.Reaches q b next := by
  obtain ⟨next, hnext, rfl | hstep⟩ := h.attempt_eq_or_step hq hb.lawful id
  · exact ⟨_, hnext, .refl⟩
  · exact ⟨next, hnext, .single hstep⟩

/-- Whatever is attempted, a graph that shows a steady board shows one that legal moves reach. -/
theorem Shows.play (hq : q.IsProper) (h : Shows q g b) (hb : b.Steady q) (moves : List Ident) :
    ∃ next, Shows q (g.play moves) next ∧ Board.Reaches q b next := by
  induction moves generalizing g b with
  | nil => exact ⟨b, h, .refl⟩
  | cons id rest ih =>
    obtain ⟨middle, hmiddle, hreach⟩ := h.attempt hq hb id
    obtain ⟨next, hnext, hrest⟩ := ih hmiddle (hreach.steady hq.nodup hb)
    exact ⟨next, hnext, hreach.trans hrest⟩

/-- What legal moves reach on the board, legal moves reach in the graph. -/
theorem Shows.exists_play (hq : q.IsProper) (h : Shows q g b) (hb : b.Steady q) {next : Board}
    (hreach : Board.Reaches q b next) :
    ∃ moves, g.AllLegal moves ∧ Shows q (g.play moves) next := by
  induction hreach with
  | refl => exact ⟨[], trivial, h⟩
  | tail hmiddle hstep ih =>
    obtain ⟨moves, hlegal, hshows⟩ := ih
    obtain ⟨w, hw, hm⟩ := hstep
    have hsteady := Board.Reaches.steady hq.nodup hmiddle hb
    obtain ⟨g', hg', hnext⟩ := hshows.moved?_eq_some hq hsteady.lawful hw hm
    refine ⟨moves ++ [w.id (letters q)], ?_, ?_⟩
    · rw [Graph.allLegal_append]
      exact ⟨hlegal, by rw [hg']; rfl, trivial⟩
    · rw [Graph.play_append, Graph.play_cons, Graph.play_nil, Graph.attempt, hg']
      exact hnext

/-- Moves that are legal one after the other on the board are so in the graph. -/
theorem Shows.play_of_run (hq : q.IsProper) (h : Shows q g b) (hb : b.Steady q)
    {ws : List Wire} (hws : ∀ w ∈ ws, w.IsIn (letters q)) {next : Board}
    (hrun : ws.foldlM (fun b w => b.move? q w) b = some next) :
    g.AllLegal (ws.map (Wire.id (letters q))) ∧
      Shows q (g.play (ws.map (Wire.id (letters q)))) next := by
  induction ws generalizing g b with
  | nil =>
    obtain rfl := Option.some.inj hrun
    exact ⟨trivial, h⟩
  | cons w rest ih =>
    rw [List.foldlM_cons, Option.bind_eq_bind, Option.bind_eq_some_iff] at hrun
    obtain ⟨middle, hm, hrest⟩ := hrun
    obtain ⟨g', hg', hmiddle⟩ := h.moved?_eq_some hq hb.lawful (hws w List.mem_cons_self) hm
    obtain ⟨hlegal, hlast⟩ := ih hmiddle (hb.move? hq.nodup hm)
      (fun w' hw' => hws w' (List.mem_cons_of_mem _ hw')) hrest
    rw [List.map_cons, Graph.AllLegal, Graph.play_cons, Graph.attempt_of_moved?_eq_some hg', hg']
    exact ⟨⟨rfl, hlegal⟩, hlast⟩

theorem Shows.allLegal_of_run (hq : q.IsProper) (h : Shows q g b) (hb : b.Steady q)
    {ws : List Wire} (hws : ∀ w ∈ ws, w.IsIn (letters q)) {next : Board}
    (hrun : ws.foldlM (fun b w => b.move? q w) b = some next) :
    g.AllLegal (ws.map (Wire.id (letters q))) :=
  (h.play_of_run hq hb hws hrun).1

theorem exists_compile {text : String} (hq : Qbf.parse text = .ok q) :
    ∃ g, compile text = .ok g ∧ Shows q g .start :=
  ⟨_, compile_of_parse hq, shows_start (Qbf.isProper_of_parse hq)⟩

end ConstraintLogic.Circuit
