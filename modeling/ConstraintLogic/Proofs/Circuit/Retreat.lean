import ConstraintLogic.Proofs.Circuit.Complete
import ConstraintLogic.Proofs.Circuit.Settled
import ConstraintLogic.Proofs.Move
import Mathlib.Data.Finset.Card
import Mathlib.Order.WellFounded
/-!
# Leading back to the start

From every position of a play, legal moves lead back to the board on which the circuit was placed.
The rules put the wires in tiers: a wire that is on asks only for wires of higher tiers. So the
wires that are on can be turned off tier by tier, as long as the ring of the sink is off or the
success into the sink is on. Otherwise the ring has been turned all the way and the success taken
back since; then the circuit, which was won before, is won again with the ring as it is.
-/

namespace ConstraintLogic.Circuit

namespace Wire

/-- The wire is part of the ring of the sink. -/
def IsRing : Wire → Prop
  | ringAB | ringBC | ringCA => True
  | loop | call _ | success _ | literal _ | called | result | told => False

instance : DecidablePred IsRing := fun w => by
  cases w <;> unfold IsRing <;> infer_instance

/-- Where the wire comes when the wires that are on are turned off one by one. -/
def tier (count : Nat) : Wire → Nat
  | ringAB => 0
  | ringBC => 1
  | ringCA => 2
  | success index => 3 + index
  | called => 4 + count
  | told => 5 + count
  | result => 6 + count
  | call index => 7 + count + (count - index)
  | literal _ => 8 + count + count
  | loop => 9 + count + count

end Wire

namespace Board

variable {q : Qbf} {b next : Board} {w : Wire}

/-- The rules of a board, each as what a wire that is on asks for. -/
theorem lawful_iff :
    b.Lawful q ↔
      (∀ index binding, q.bindings[index]? = some binding →
        b.quantifierHolds index binding = true) ∧
      (b.on .result = true → b.formulaHolds q.matrix = true) ∧
      (b.on .called = true → b.on (.call q.bindings.length) = true) ∧
      (b.on .told = true → b.on .result = true) ∧
      (b.on (.success q.bindings.length) = true → b.on .called = true ∧ b.on .told = true) ∧
      (b.on .ringCA = true → b.on .ringAB = true ∨ b.on (.success 0) = true) ∧
      (b.on .ringAB = true → b.on .ringBC = true) ∧
      (b.on .ringBC = true → b.on .ringCA = true) := by
  constructor
  · intro h
    refine ⟨?_, h.formulaHolds_of_result, h.call_last_of_called, h.result_of_told,
      h.probes_of_success_last, ?_, ?_, ?_⟩
    · intro index binding hb
      simpa [holds, hb] using h (.quantifier index)
    · have := h .sinkA
      simp only [holds] at this
      grind
    · have := h .sinkB
      simp only [holds] at this
      grind
    · have := h .sinkC
      simp only [holds] at this
      grind
  · rintro ⟨hquantifier, hresult, hcalled, htold, hsuccess, hca, hab, hbc⟩ cell
    cases cell with
    | quantifier index =>
      rw [holds, Option.all_eq_true]
      intro binding hb
      exact hquantifier index binding hb
    | source => rfl
    | _ =>
      simp only [holds]
      grind

/-! ## Turning wires off -/

/-- The ring is off, or the success into the sink lets it turn. -/
def Unlocked (b : Board) : Prop :=
  ∀ w : Wire, w.IsRing → b.on w = true → b.on (.success 0) = true

/-- The wire is on, and those of lower tiers are off. -/
structure IsLowest (b : Board) (q : Qbf) (w : Wire) : Prop where
  on : b.on w = true
  isIn : w.IsIn (letters q)
  lower : ∀ v : Wire, v.IsIn (letters q) → b.on v = true →
    w.tier q.bindings.length ≤ v.tier q.bindings.length

theorem IsLowest.on_of_turn (h : b.IsLowest q w) {v : Wire} (hv : (b.turn w).on v = true) :
    v ≠ w ∧ b.on v = true := by
  have hne : v ≠ w := by
    rintro rfl
    rw [turn_on_self, h.on] at hv
    cases hv
  exact ⟨hne, by rwa [turn_on_of_ne b hne] at hv⟩

/-- What a wire of a lower tier may ask for is not turned off before it. -/
theorem IsLowest.keeps (h : b.IsLowest q w) {v u : Wire} (hin : v.IsIn (letters q))
    (hv : (b.turn w).on v = true)
    (htier : v.tier q.bindings.length < u.tier q.bindings.length) :
    (b.turn w).on u = b.on u := by
  apply turn_on_of_ne
  rintro rfl
  have := h.lower v hin (h.on_of_turn hv).2
  omega

theorem IsLowest.keeps_on (h : b.IsLowest q w) {v u : Wire} (hin : v.IsIn (letters q))
    (hv : (b.turn w).on v = true)
    (htier : v.tier q.bindings.length < u.tier q.bindings.length)
    (hu : b.on v = true → b.on u = true) : (b.turn w).on u = true :=
  (h.keeps hin hv htier).trans (hu (h.on_of_turn hv).2)

theorem IsLowest.quantifierHolds (h : b.IsLowest q w) (hb : b.Lawful q) {index : Nat}
    {binding : Binding} (hi : q.bindings[index]? = some binding) :
    (b.turn w).quantifierHolds index binding = true := by
  have hlt : index < q.bindings.length := (List.getElem?_eq_some_iff.1 hi).1
  have hcall : (Wire.call (index + 1)).IsIn (letters q) := by
    rw [Wire.IsIn, length_letters]
    exact hlt
  have hsuccess : (Wire.success index).IsIn (letters q) := by
    rw [Wire.IsIn, length_letters]
    exact Nat.le_of_lt hlt
  have htry (hon : (b.turn w).on (.call (index + 1)) = true) :
      (b.turn w).on (.call index) = true :=
    h.keeps_on hcall hon (by simp only [Wire.tier]; omega) (hb.call_of_call_succ hlt)
  have hsat (hon : (b.turn w).on (.success index) = true) :
      (b.turn w).on (.success (index + 1)) = true :=
    h.keeps_on hsuccess hon (by simp only [Wire.tier]; omega) (hb.success_succ_of_success hlt)
  have hliteral (hon : (b.turn w).on (.call (index + 1)) = true) (l : Literal) :
      (b.turn w).on (.literal l) = b.on (.literal l) :=
    h.keeps hcall hon (by simp only [Wire.tier]; omega)
  obtain ⟨kind, c⟩ := binding
  simp only [Board.quantifierHolds]
  cases kind with
  | existential =>
    refine Signals.existentialHolds_iff.2 ⟨htry, ?_, hsat⟩
    intro hon
    have hboth := hb.not_out_and_inv hi (h.on_of_turn hon).2
    simp only [signals, hliteral hon]
    exact hboth
  | universal =>
    refine Signals.universalHolds_iff.2 ⟨htry, ?_, ?_⟩
    · intro hon
      have hne := hb.out_ne_inv hi (h.on_of_turn hon).2
      simp only [signals, hliteral hon]
      exact hne
    · intro hon
      obtain ⟨hlatch, hout⟩ := hb.latch_and_out hi (h.on_of_turn hon).2
      refine ⟨hsat hon, hlatch, ?_⟩
      exact h.keeps_on hsuccess hon (by simp only [Wire.tier]; omega) fun _ => hout

/-- The lowest wire that is on can be turned off, unless that locks the ring. -/
theorem IsLowest.lawful (h : b.IsLowest q w) (hb : b.Lawful q) (hu : b.Unlocked) :
    (b.turn w).Lawful q := by
  have hlast : (Wire.success q.bindings.length).IsIn (letters q) := by
    rw [Wire.IsIn, length_letters]
  obtain ⟨-, -, -, -, -, -, hab, hbc⟩ := lawful_iff.1 hb
  refine lawful_iff.2 ⟨fun index binding hi => h.quantifierHolds hb hi, ?_, ?_, ?_, ?_, ?_, ?_, ?_⟩
  · intro hon
    have hformula := hb.formulaHolds_of_result (h.on_of_turn hon).2
    have hkeep (l : Literal) : (b.turn w).on (.literal l) = b.on (.literal l) :=
      h.keeps (v := .result) trivial hon (by simp only [Wire.tier]; omega)
    simp only [formulaHolds, hkeep]
    exact hformula
  · intro hon
    exact h.keeps_on (v := .called) trivial hon (by simp only [Wire.tier]; omega)
      hb.call_last_of_called
  · intro hon
    exact h.keeps_on (v := .told) trivial hon (by simp only [Wire.tier]; omega) hb.result_of_told
  · intro hon
    exact ⟨h.keeps_on hlast hon (by simp only [Wire.tier]; omega) fun hs =>
        (hb.probes_of_success_last hs).1,
      h.keeps_on hlast hon (by simp only [Wire.tier]; omega) fun hs =>
        (hb.probes_of_success_last hs).2⟩
  · intro hon
    -- here the rule asks for a wire of a lower tier; the success into the sink stands in for it
    exact .inr (h.keeps_on (v := .ringCA) trivial hon (by simp only [Wire.tier]; omega)
      (hu .ringCA trivial))
  · intro hon
    exact h.keeps_on (v := .ringAB) trivial hon (by simp only [Wire.tier]; omega) hab
  · intro hon
    exact h.keeps_on (v := .ringBC) trivial hon (by simp only [Wire.tier]; omega) hbc

theorem IsLowest.unlocked (h : b.IsLowest q w) (hu : b.Unlocked) : (b.turn w).Unlocked := by
  intro v hv hon
  have hin : v.IsIn (letters q) := by
    cases v <;> first | exact trivial | exact hv.elim
  refine h.keeps_on hin hon ?_ (hu v hv)
  cases v <;> first | exact hv.elim | simp [Wire.tier]

/-- The loop at the source and wires of other circuits are off. -/
def Frozen (b : Board) (q : Qbf) : Prop :=
  ∀ w : Wire, w = .loop ∨ ¬w.IsIn (letters q) → b.on w = false

theorem Frozen.move? (h : b.Frozen q) (hw : w.IsIn (letters q)) (hm : b.move? q w = some next) :
    next.Frozen q := by
  obtain ⟨hloop, -, -, rfl⟩ := move?_eq_some_iff.1 hm
  intro v hv
  have hne : v ≠ w := by
    rintro rfl
    exact hv.elim hloop (absurd hw)
  rw [settle_on, turn_on_of_ne b hne, h v hv]

theorem Reaches.frozen (h : Reaches q b next) (hb : b.Frozen q) : next.Frozen q := by
  induction h with
  | refl => exact hb
  | tail _ hstep ih =>
    obtain ⟨w, hw, hm⟩ := hstep
    exact ih.move? hw hm

/-- A steady board on which nothing is on has no latch set. -/
theorem Steady.eq_start (h : b.Steady q) (hoff : ∀ w, b.on w = false) : b = start := by
  ext w
  · exact hoff w
  · rw [← h.settled]
    simp [settle, settledLatch, hoff, start]

theorem exists_isLowest (h : ∃ w : Wire, w.IsIn (letters q) ∧ b.on w = true) :
    ∃ w, b.IsLowest q w := by
  obtain ⟨w, ⟨hin, hon⟩, hleast⟩ :=
    (measure (Wire.tier q.bindings.length)).wf.has_min {w | w.IsIn (letters q) ∧ b.on w = true} h
  exact ⟨w, hon, hin, fun v hv hvon => Nat.le_of_not_lt (hleast v ⟨hv, hvon⟩)⟩

/-- With the ring unlocked the wires are turned off one by one. -/
theorem Steady.reaches_start (hq : q.IsProper) (hb : b.Steady q) (hf : b.Frozen q)
    (hu : b.Unlocked) : Reaches q b start := by
  induction hn : ((wires (letters q)).toFinset.filter fun w => b.on w = true).card
    using Nat.strongRecOn generalizing b with
  | ind n ih =>
    by_cases hon : ∃ w : Wire, w.IsIn (letters q) ∧ b.on w = true
    · obtain ⟨w, hw⟩ := exists_isLowest hon
      have hloop : w ≠ .loop := by
        rintro rfl
        have hoff := hf .loop (.inl rfl)
        rw [hw.on] at hoff
        cases hoff
      have hsome := (hb.lawful.isSome_move?_iff hq.nodup hloop).2 (hw.lawful hb.lawful hu)
      obtain ⟨next, hm⟩ := Option.isSome_iff_exists.1 hsome
      have hnext : next.on = (b.turn w).on := by
        obtain ⟨-, -, -, rfl⟩ := move?_eq_some_iff.1 hm
        rfl
      have hfewer : ((wires (letters q)).toFinset.filter fun v => next.on v = true).card < n := by
        rw [← hn]
        apply Finset.card_lt_card
        rw [Finset.ssubset_iff_of_subset]
        · refine ⟨w, ?_, ?_⟩
          · simp [mem_wires, hw.isIn, hw.on]
          · simp [hnext, hw.on]
        · intro v hv
          simp only [Finset.mem_filter, hnext] at hv ⊢
          exact ⟨hv.1, (hw.on_of_turn hv.2).2⟩
      have hunlocked : next.Unlocked := by
        have := hw.unlocked hu
        simpa only [Unlocked, hnext] using this
      have hrest := ih _ hfewer (hb.move? hq.nodup hm) (hf.move? hw.isIn hm) hunlocked rfl
      exact .head ⟨w, hw.isIn, hm⟩ hrest
    · have hoff (w : Wire) : b.on w = false := by
        by_cases hin : w.IsIn (letters q)
        · exact Bool.eq_false_iff.2 fun hw => hon ⟨w, hin, hw⟩
        · exact hf w (.inr hin)
      rw [hb.eq_start hoff]
      exact .refl

/-! ## The ring -/

/-- The board with the whole ring on or off. -/
def withRing (b : Board) (value : Bool) : Board :=
  { b with on := fun w => if w.IsRing then value else b.on w }

@[simp] theorem withRing_latch (b : Board) (value : Bool) : (b.withRing value).latch = b.latch :=
  rfl

theorem withRing_withRing (b : Board) (value value' : Bool) :
    (b.withRing value).withRing value' = b.withRing value' := by
  ext w
  · by_cases hw : w.IsRing <;> simp [withRing, hw]
  · rfl

theorem withRing_on_of_isRing {value : Bool} (h : w.IsRing) : (b.withRing value).on w = value :=
  if_pos h

theorem withRing_on_of_not_isRing {value : Bool} (h : ¬w.IsRing) :
    (b.withRing value).on w = b.on w :=
  if_neg h

/-- Only the success into the sink has to do with the ring. -/
theorem Lawful.withRing (h : b.Lawful q) (value : Bool) : (b.withRing value).Lawful q := by
  obtain ⟨hquantifier, hresult, hcalled, htold, hsuccess, -⟩ := lawful_iff.1 h
  refine lawful_iff.2 ⟨?_, hresult, hcalled, htold, hsuccess, .inl, id, id⟩
  rintro index ⟨kind, c⟩ hb
  cases kind <;> exact hquantifier index _ hb

theorem settle_withRing (b : Board) (ls : List Char) (value : Bool) :
    (b.withRing value).settle ls = (b.settle ls).withRing value := rfl

theorem Steady.withRing (h : b.Steady q) (value : Bool) : (b.withRing value).Steady q where
  lawful := h.lawful.withRing value
  settled := by rw [settle_withRing, h.settled]

theorem Frozen.withRing (h : b.Frozen q) (value : Bool) : (b.withRing value).Frozen q := by
  intro w hw
  have hring : ¬w.IsRing := by
    rintro hring
    cases w <;> first | exact hring.elim | exact hw.elim (by simp) (absurd trivial)
  rw [withRing_on_of_not_isRing hring, h w hw]

theorem latch_settle_turn_of_isRing {ls : List Char} (h : w.IsRing) :
    ((b.turn w).settle ls).latch = (b.settle ls).latch := by
  have hkeep (v : Wire) (hv : ¬v.IsRing) : (b.turn w).on v = b.on v := by
    apply turn_on_of_ne
    rintro rfl
    exact hv h
  funext letter
  simp only [settle, settledLatch, turn_latch]
  rw [hkeep (.call _) id, hkeep (.success _) id, hkeep (.literal _) id]

/-- Moves away from the ring are legal however the ring is turned. -/
theorem Steady.withRing_reaches_of_step (hq : q.IsProper) (hb : b.Steady q) (value : Bool)
    (h : Step q b next) : Reaches q (b.withRing value) (next.withRing value) := by
  obtain ⟨w, hw, hm⟩ := h
  obtain ⟨hloop, hd, hr, rfl⟩ := move?_eq_some_iff.1 hm
  have hlawful := hb.lawful.turn hq.nodup hd hr
  by_cases hring : w.IsRing
  · have hsame : (((b.turn w).settle (letters q)).withRing value) = b.withRing value := by
      ext v
      · by_cases hv : v.IsRing
        · rw [withRing_on_of_isRing hv, withRing_on_of_isRing hv]
        · have hne : v ≠ w := by
            rintro rfl
            exact hv hring
          rw [withRing_on_of_not_isRing hv, withRing_on_of_not_isRing hv, settle_on,
            turn_on_of_ne b hne]
      · rw [withRing_latch, withRing_latch, latch_settle_turn_of_isRing hring, hb.settled]
    rw [hsame]
    exact .refl
  · have hturn : (b.withRing value).turn w = (b.turn w).withRing value := by
      ext v
      · by_cases hv : v = w
        · subst hv
          rw [turn_on_self, withRing_on_of_not_isRing hring, withRing_on_of_not_isRing hring,
            turn_on_self]
        · rw [turn_on_of_ne _ hv]
          simp only [Board.withRing, turn_on_of_ne b hv]
      · rfl
    have hnext : (b.withRing value).move? q w =
        some (((b.turn w).settle (letters q)).withRing value) := by
      rw [move?_eq_some_iff, hturn, settle_withRing]
      exact ⟨hloop, hlawful.withRing value _, hlawful.withRing value _, rfl⟩
    exact .single ⟨w, hw, hnext⟩

theorem Reaches.withRing (hq : q.IsProper) (hb : b.Steady q) (value : Bool)
    (h : Reaches q b next) : Reaches q (b.withRing value) (next.withRing value) := by
  induction h with
  | refl => exact .refl
  | tail hmiddle hstep ih =>
    exact ih.trans
      ((Reaches.steady hq.nodup hmiddle hb).withRing_reaches_of_step hq value hstep)

/-! ## Winning again -/

theorem Reaches.everyBranchSatisfiable_of_on (hq : q.IsProper) (h : Reaches q start b)
    (hon : b.on (.success 0) = true) : q.EveryBranchSatisfiable := by
  obtain ⟨before, after, hbefore, -, hm⟩ := h.exists_turn rfl hon
  exact hbefore.everyBranchSatisfiable hq hm

/-- A ring that has begun to turn was let by a success. -/
theorem Reaches.everyBranchSatisfiable_of_ring (hq : q.IsProper) (h : Reaches q start b)
    (hon : b.on .ringCA = true) : q.EveryBranchSatisfiable := by
  obtain ⟨before, after, hbefore, hoff, hm⟩ := h.exists_turn rfl hon
  have hb := hbefore.steady hq.nodup (steady_start q)
  have hafter : Reaches q start after := hbefore.tail ⟨.ringCA, trivial, hm⟩
  have hlawful := (hb.move? hq.nodup hm).lawful
  obtain ⟨-, -, -, -, -, hca, -⟩ := lawful_iff.1 hlawful
  obtain ⟨-, -, -, -, -, -, hab, hbc⟩ := lawful_iff.1 hb.lawful
  obtain ⟨-, -, -, rfl⟩ := move?_eq_some_iff.1 hm
  have hturned : ((before.turn .ringCA).settle (letters q)).on .ringCA = true := by
    rw [settle_on, turn_on_self, hoff]
    rfl
  rcases hca hturned with hringAB | hsuccess
  · rw [settle_on, turn_on_of_ne before (by simp)] at hringAB
    rw [hbc (hab hringAB)] at hoff
    cases hoff
  · exact hafter.everyBranchSatisfiable_of_on hq hsuccess

/-- A ring that is locked is on all the way round. -/
theorem Lawful.withRing_eq_of_locked (h : b.Lawful q) (hlocked : ¬b.Unlocked) :
    b.withRing true = b := by
  simp only [Unlocked, not_forall] at hlocked
  obtain ⟨w, hring, hon, hoff⟩ := hlocked
  obtain ⟨-, -, -, -, -, hca, hab, hbc⟩ := lawful_iff.1 h
  have hringCA : b.on .ringCA = true := by
    cases w <;> first | exact hring.elim | exact hon | exact hbc hon | exact hbc (hab hon)
  have hringAB : b.on .ringAB = true := (hca hringCA).resolve_right hoff
  ext v
  · by_cases hv : v.IsRing
    · rw [withRing_on_of_isRing hv]
      cases v <;> first | exact hv.elim | simp [hringCA, hringAB, hab hringAB]
    · rw [withRing_on_of_not_isRing hv]
  · rfl

/-- From every board that a play reaches, legal moves lead back to the start. -/
theorem Reaches.reaches_start (hq : q.IsProper) (h : Reaches q start b) : Reaches q b start := by
  have hb := h.steady hq.nodup (steady_start q)
  have hfrozen := h.frozen fun _ _ => rfl
  by_cases hu : b.Unlocked
  · exact hb.reaches_start hq hfrozen hu
  · have hring := hb.lawful.withRing_eq_of_locked hu
    have hringCA : b.on .ringCA = true := by
      rw [← hring]
      rfl
    obtain ⟨won, hwon, hsuccess⟩ := exists_won hq (h.everyBranchSatisfiable_of_ring hq hringCA)
    -- without the ring the board unwinds and is won again; with the ring the moves are as legal
    have hunwind : Reaches q (b.withRing false) start := by
      refine (hb.withRing false).reaches_start hq (hfrozen.withRing false) ?_
      intro w hw hon
      rw [withRing_on_of_isRing hw] at hon
      cases hon
    have hagain : Reaches q b (won.withRing true) := by
      have hround : Reaches q (b.withRing false) won := hunwind.trans hwon
      have hlift := Reaches.withRing hq (hb.withRing false) true hround
      rwa [withRing_withRing, hring] at hlift
    have hlast : (won.withRing true).Steady q :=
      (hwon.steady hq.nodup (steady_start q)).withRing true
    have hstill : (won.withRing true).Frozen q := Frozen.withRing (hwon.frozen fun _ _ => rfl) true
    exact hagain.trans (hlast.reaches_start hq hstill fun _ _ _ => hsuccess)

end Board

/-! ## Circuits -/

variable {text : String} {q : Qbf} {g g' : Graph} {b b' : Board}

theorem Shows.edges_eq (h : Shows q g b) (h' : Shows q g' b') (hon : b'.on = b.on) :
    g'.edges = g.edges := by
  apply Std.ExtTreeMap.ext_getElem?
  intro id
  apply Option.ext
  intro e
  rw [h'.edge_iff, h.edge_iff, hon]

/-- The components of a circuit with their latches cleared and the board say all about them. -/
theorem Shows.component_eq (h : Shows q g b) (h' : Shows q g' b) {id : Ident} {c c' : Component}
    (hc : g.components[id]? = some c) (hc' : g'.components[id]? = some c')
    (hframe : c'.unlatched = c.unlatched) : c' = c := by
  apply Component.eq_of_unlatched hframe
  by_cases hl : c.latch? = none
  · have hkind := congrArg Component.latch? hframe
    simp only [Component.latch?_unlatched, hl] at hkind
    rw [hl]
    simpa using hkind
  · obtain ⟨binding, hmem, rfl⟩ := h.binding id c hc hl
    obtain ⟨d, hd, hat⟩ := h.quantifier binding hmem
    obtain ⟨d', hd', hat'⟩ := h'.quantifier binding hmem
    obtain rfl := Option.some.inj (hc.symm.trans hd)
    obtain rfl := Option.some.inj (hc'.symm.trans hd')
    rw [Component.latch?, Component.latch?, hat'.gadget_eq, hat.gadget_eq]

/-- Two graphs that show the same board differ only in what a play does not change. -/
theorem Shows.sameEntities (h : Shows q g b) (h' : Shows q g' b) (hframe : g'.SameFrame g) :
    g'.SameEntities g where
  vertices := hframe.vertices
  edges := h.edges_eq h' rfl
  components := by
    apply Std.ExtTreeMap.ext_getElem?
    intro id
    have hsame := hframe.components id
    cases hc : g.components[id]? with
    | none =>
      rw [hc] at hsame
      simpa using hsame
    | some c =>
      rw [hc, Option.map_some] at hsame
      obtain ⟨c', hc', hunlatched⟩ := Option.map_eq_some_iff.1 hsame
      rw [hc', h.component_eq h' hc hc' hunlatched]
  labels := hframe.labels

/-- However a circuit was played, legal moves lead back to the circuit as it was compiled. -/
theorem exists_return (hq : Qbf.parse text = .ok q) :
    ∃ g, compile text = .ok g ∧ ∀ moves : List Ident, ∃ back : List Ident,
      (back.mapM Edit.tryReverse).run (g.play moves) =
        .ok (back.map fun _ => true) (g.play (moves ++ back)) ∧
      (g.play (moves ++ back)).SameEntities g := by
  have hproper := Qbf.isProper_of_parse hq
  have hsteady := Board.steady_start q
  obtain ⟨g, hg, hstart⟩ := exists_compile hq
  refine ⟨g, hg, fun moves => ?_⟩
  obtain ⟨b, hplay, hreach⟩ := hstart.play hproper hsteady moves
  obtain ⟨back, hlegal, hback⟩ := hplay.exists_play hproper (hreach.steady hproper.nodup hsteady)
    (hreach.reaches_start hproper)
  rw [← Graph.play_append] at hback
  refine ⟨back, ?_, hstart.sameEntities hback (g.sameFrame_play _)⟩
  rw [Graph.play_append]
  exact Edit.run_mapM_tryReverse hlegal

theorem exists_return_copycat :
    Qbf.parse "forall x exists y : (x||!y)&&(!x||y)" = .ok Qbf.copycat ∧
      ∃ g, compile "forall x exists y : (x||!y)&&(!x||y)" = .ok g ∧
        ∀ moves : List Ident, ∃ back : List Ident,
          (back.mapM Edit.tryReverse).run (g.play moves) =
            .ok (back.map fun _ => true) (g.play (moves ++ back)) ∧
          (g.play (moves ++ back)).SameEntities g :=
  ⟨Qbf.parse_copycat, exists_return Qbf.parse_copycat⟩

end ConstraintLogic.Circuit
