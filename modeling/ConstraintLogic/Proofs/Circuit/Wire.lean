import ConstraintLogic.Circuit.Plan
import Mathlib.Data.List.Nodup
import Std.Data.String.ToNat
/-!
# Wires and places of a circuit

The edges and vertices of the circuit of a formula with given letters, by the part they have in
it. The calls to try and the successes are numbered from the left: call `0` comes from the source
and success `0` goes into the sink, and behind the last quantifier they end at the probe and at
the junction.
-/

namespace ConstraintLogic.Circuit

/-- The edges of a circuit. -/
inductive Wire where
  | loop
  | call (index : Nat)
  | success (index : Nat)
  | literal (l : Literal)
  /-- From the probe of the last call into the junction. -/
  | called
  /-- From the evaluator into the probe of the result. -/
  | result
  /-- From the probe of the result into the junction. -/
  | told
  | ringAB
  | ringBC
  | ringCA
deriving DecidableEq

/-- The vertices of a circuit. -/
inductive Place where
  | port (letter : Char) (port : QuantifierPort)
  | evaluator (port : EvaluatorPort)
  | callProbe
  | resultProbe
  | junction
  | source
  | sinkA
  | sinkB
  | sinkC
deriving DecidableEq

namespace Place

def id : Place → Ident
  | port letter p => quantifierPort letter p
  | evaluator p => evaluatorPort p
  | callProbe => ⟨["probe", "tryout", "port"]⟩
  | resultProbe => ⟨["probe", "result", "port"]⟩
  | junction => junctionId
  | source => sourceId
  | sinkA => ⟨["sink", "a"]⟩
  | sinkB => ⟨["sink", "b"]⟩
  | sinkC => ⟨["sink", "c"]⟩

end Place

theorem text_injective {l l' : Literal} (h : l.text = l'.text) : l = l' := by
  have hlist : l.chars = l'.chars := by simpa [Literal.text] using congrArg String.toList h
  obtain ⟨c, negated⟩ := l
  obtain ⟨c', negated'⟩ := l'
  cases negated <;> cases negated' <;> simp_all [Literal.chars]

theorem text_ne_satisfied (l : Literal) : l.text ≠ "satisfied" := by
  intro h
  have hlength := congrArg (fun s => s.toList.length) h
  obtain ⟨c, negated⟩ := l
  cases negated <;> simp [Literal.text, Literal.chars] at hlength

theorem evaluatorPort_name_injective {p p' : EvaluatorPort} (h : p.name = p'.name) : p = p' := by
  cases p with
  | literal l =>
    cases p' with
    | literal l' => rw [text_injective h]
    | satisfied => exact absurd h (text_ne_satisfied l)
  | satisfied =>
    cases p' with
    | literal l => exact absurd h.symm (text_ne_satisfied l)
    | satisfied => rfl

theorem Place.id_injective {p p' : Place} (h : p.id = p'.id) : p = p' := by
  cases p <;> cases p' <;>
    simp [Place.id, quantifierPort, evaluatorPort, quantifierId, formulaId, Ident.child,
      sourceId, junctionId] at h ⊢
  · exact ⟨h.1, QuantifierPort.name_injective h.2⟩
  · exact evaluatorPort_name_injective h

/-! ## Ends of wires -/

/-- The port of the quantifier with this index, or another place if there is none. -/
def portOr (letters : List Char) (index : Nat) (port : QuantifierPort) (other : Place) : Place :=
  letters[index]?.elim other (.port · port)

namespace Wire

variable (letters : List Char)

/-- Where the signal of a wire comes from. -/
def driver : Wire → Place
  | loop => .source
  | call 0 => .source
  | call (index + 1) => portOr letters index .tryOut .source
  | success index => portOr letters index .satOut .junction
  | literal l => .port l.letter (if l.negated then .inv else .out)
  | called => .callProbe
  | result => .evaluator .satisfied
  | told => .resultProbe
  | ringAB => .sinkB
  | ringBC => .sinkC
  | ringCA => .sinkA

/-- Where the signal of a wire goes to. -/
def receiver : Wire → Place
  | loop => .source
  | call index => portOr letters index .tryIn .callProbe
  | success 0 => .sinkA
  | success (index + 1) => portOr letters index .satIn .sinkA
  | literal l => .evaluator (.literal l)
  | called => .junction
  | result => .resultProbe
  | told => .junction
  | ringAB => .sinkA
  | ringBC => .sinkB
  | ringCA => .sinkC

def weight : Wire → Weight
  | literal _ | called | told => .single
  | loop | call _ | success _ | result | ringAB | ringBC | ringCA => .double

def id : Wire → Ident
  | loop => ⟨["source", "loop"]⟩
  | call 0 => ⟨["source", "try"]⟩
  | call (index + 1) =>
    if index + 1 = letters.length then ⟨["probe", "tryout", "in"]⟩ else tryId index
  | success 0 => sinkEdgeId
  | success (index + 1) =>
    if index + 1 = letters.length then ⟨["junction", "sat"]⟩ else satId index
  | literal l => literalId l
  | called => ⟨["probe", "tryout", "out"]⟩
  | result => ⟨["probe", "result", "in"]⟩
  | told => ⟨["probe", "result", "out"]⟩
  | ringAB => ⟨["sink", "ab"]⟩
  | ringBC => ⟨["sink", "bc"]⟩
  | ringCA => ⟨["sink", "ca"]⟩

/-- The edge of a wire, which points along its signal if it is on, and against it otherwise. -/
def edge (w : Wire) (on : Bool) : Edge where
  id := w.id letters
  source := if on then (w.driver letters).id else (w.receiver letters).id
  target := if on then (w.receiver letters).id else (w.driver letters).id
  weight := w.weight
  muted := false
  labelVisible := false

theorem edge_reverse (w : Wire) (on : Bool) :
    (w.edge letters on).reverse = w.edge letters !on := by
  cases on <;> rfl

variable {letters}

theorem id_injective {w w' : Wire} (h : w.id letters = w'.id letters) : w = w' := by
  rcases w with _ | (_ | i) | (_ | i) | l | _ | _ | _ | _ | _ | _ <;>
    rcases w' with _ | (_ | j) | (_ | j) | l' | _ | _ | _ | _ | _ | _ <;>
    simp only [id] at h <;> (try split at h) <;> (try split at h) <;>
    simp_all [tryId, satId, literalId, sinkEdgeId, Nat.repr_inj]
  exact text_injective h

theorem driver_ne_receiver {w : Wire} (h : w ≠ loop) : w.driver letters ≠ w.receiver letters := by
  cases w with
  | loop => exact absurd rfl h
  | call index => cases index <;> grind [driver, receiver, portOr]
  | success index => cases index <;> grind [driver, receiver, portOr]
  | _ => simp [driver, receiver]

/-! ## The wires of a circuit -/

def IsIn (letters : List Char) : Wire → Prop
  | call index | success index => index ≤ letters.length
  | literal l => l.letter ∈ letters
  | loop | called | result | told | ringAB | ringBC | ringCA => True

def Touches (letters : List Char) (w : Wire) (p : Place) : Prop :=
  w.driver letters = p ∨ w.receiver letters = p

end Wire

def Place.IsIn (letters : List Char) : Place → Prop
  | port letter _ => letter ∈ letters
  | evaluator (.literal l) => l.letter ∈ letters
  | evaluator .satisfied | callProbe | resultProbe | junction | source | sinkA | sinkB | sinkC =>
    True

/-- The wire at a port of the quantifier with this index and letter. -/
def portWire (index : Nat) (letter : Char) : QuantifierPort → Wire
  | .tryIn => .call index
  | .tryOut => .call (index + 1)
  | .satIn => .success (index + 1)
  | .satOut => .success index
  | .out => .literal (.positive letter)
  | .inv => .literal (.negative letter)

def wiresAt (letters : List Char) : Place → List Wire
  | .port letter p => [portWire (letters.idxOf letter) letter p]
  | .evaluator (.literal l) => [.literal l]
  | .evaluator .satisfied => [.result]
  | .callProbe => [.call letters.length, .called]
  | .resultProbe => [.result, .told]
  | .junction => [.called, .told, .success letters.length]
  | .source => [.loop, .call 0]
  | .sinkA => [.ringAB, .ringCA, .success 0]
  | .sinkB => [.ringAB, .ringBC]
  | .sinkC => [.ringBC, .ringCA]

theorem getElem?_eq_some_iff_idxOf {letters : List Char} (hn : letters.Nodup) {index : Nat}
    {letter : Char} (h : letter ∈ letters) :
    letters[index]? = some letter ↔ index = letters.idxOf letter := by
  have hlt := List.idxOf_lt_length_of_mem h
  have hself : letters[letters.idxOf letter]? = some letter := by
    rw [List.getElem?_eq_getElem hlt, List.getElem_idxOf hlt]
  constructor
  · intro hi
    exact ((List.getElem?_inj hlt hn).1 (hself.trans hi.symm)).symm
  · rintro rfl
    exact hself

theorem portOr_eq_port_iff {letters : List Char} (hn : letters.Nodup) {index : Nat}
    {letter : Char} {p p' : QuantifierPort} {other : Place} (h : letter ∈ letters)
    (hother : other ≠ .port letter p) :
    portOr letters index p' other = .port letter p ↔ index = letters.idxOf letter ∧ p' = p := by
  rw [← getElem?_eq_some_iff_idxOf hn h, portOr]
  cases letters[index]? <;> simp [hother]

theorem portOr_eq_iff {letters : List Char} {index : Nat} {p : QuantifierPort}
    {other place : Place} (hplace : ∀ letter q, place ≠ .port letter q) :
    portOr letters index p other = place ↔ letters.length ≤ index ∧ other = place := by
  rw [← List.getElem?_eq_none_iff, portOr]
  cases letters[index]? with
  | none => simp
  | some letter => simp [(hplace letter p).symm]

theorem touches_iff {letters : List Char} (hn : letters.Nodup) (hne : letters ≠ []) {p : Place}
    (hp : p.IsIn letters) {w : Wire} (hw : w.IsIn letters) :
    w.Touches letters p ↔ w ∈ wiresAt letters p := by
  have hzero : 0 ≠ letters.length := (Nat.ne_of_gt (List.length_pos_iff.2 hne)).symm
  cases p with
  | port letter q =>
    cases w with
    | literal l =>
      obtain ⟨c, negated⟩ := l
      cases negated <;> cases q <;>
        simp [Wire.Touches, Wire.driver, Wire.receiver, wiresAt, portWire, Literal.positive,
          Literal.negative]
    | call index | success index =>
      cases index <;> cases q <;>
        simp [Wire.Touches, Wire.driver, Wire.receiver, wiresAt, portWire,
          portOr_eq_port_iff hn hp]
    | _ => cases q <;> simp [Wire.Touches, Wire.driver, Wire.receiver, wiresAt, portWire]
  | evaluator q =>
    cases w with
    | call index | success index =>
      cases index <;> cases q <;>
        simp [Wire.Touches, Wire.driver, Wire.receiver, wiresAt, portOr_eq_iff]
    | _ => cases q <;> simp [Wire.Touches, Wire.driver, Wire.receiver, wiresAt]
  | _ =>
    cases w with
    | call index | success index =>
      simp only [Wire.IsIn] at hw
      cases index <;>
        simp [Wire.Touches, Wire.driver, Wire.receiver, wiresAt, portOr_eq_iff, hne, hzero] <;>
        omega
    | _ => simp [Wire.Touches, Wire.driver, Wire.receiver, wiresAt]

/-! ## All wires -/

def chainWires (links : Nat) : List Wire :=
  (List.range links).flatMap fun index => [.call (index + 1), .success (index + 1)]

def literalWires (letter : Char) : List Wire :=
  [.literal (.positive letter), .literal (.negative letter)]

def leftWires : List Wire :=
  [.loop, .call 0, .ringAB, .ringBC, .ringCA, .success 0]

def rightWires (count : Nat) : List Wire :=
  [.call count, .called, .result, .told, .success count]

/-- The wires of a circuit in the order in which they are placed. -/
def wires (letters : List Char) : List Wire :=
  chainWires (letters.length - 1) ++ letters.flatMap literalWires ++ leftWires ++
    rightWires letters.length

theorem mem_chainWires {links : Nat} {w : Wire} :
    w ∈ chainWires links ↔ ∃ index < links, w = .call (index + 1) ∨ w = .success (index + 1) := by
  simp [chainWires]

theorem mem_literalWires {letter : Char} {w : Wire} :
    w ∈ literalWires letter ↔ ∃ l : Literal, l.letter = letter ∧ w = .literal l := by
  constructor
  · simp only [literalWires, List.mem_cons, List.not_mem_nil, or_false]
    rintro (rfl | rfl)
    · exact ⟨_, rfl, rfl⟩
    · exact ⟨_, rfl, rfl⟩
  · rintro ⟨⟨c, negated⟩, rfl, rfl⟩
    cases negated <;> simp [literalWires, Literal.positive, Literal.negative]

theorem mem_wires {letters : List Char} {w : Wire} : w ∈ wires letters ↔ w.IsIn letters := by
  simp only [wires, List.mem_append, List.mem_flatMap, mem_chainWires, mem_literalWires, leftWires,
    rightWires, List.mem_cons, List.not_mem_nil, or_false]
  cases w with
  | call index | success index =>
    cases index with
    | zero => simp [Wire.IsIn]
    | succ index => simp [Wire.IsIn]; omega
  | _ => simp [Wire.IsIn]

theorem nodup_wires {letters : List Char} (hn : letters.Nodup) (hne : letters ≠ []) :
    (wires letters).Nodup := by
  have hpos : 0 < letters.length := List.length_pos_iff.2 hne
  have hchain (links : Nat) : (chainWires links).Nodup := by
    refine List.nodup_flatMap.2 ⟨by simp, ?_⟩
    refine List.nodup_range.imp ?_
    intro i j hij
    simp [Function.onFun, Ne.symm hij]
  have hliterals : (letters.flatMap literalWires).Nodup := by
    refine List.nodup_flatMap.2 ⟨by simp [literalWires, Literal.positive, Literal.negative], ?_⟩
    refine hn.imp ?_
    intro c d hcd
    simp [Function.onFun, literalWires, Literal.positive, Literal.negative, Ne.symm hcd]
  simp only [wires, List.nodup_append]
  refine ⟨⟨⟨hchain _, hliterals, ?_⟩, by decide, ?_⟩, by simp [rightWires], ?_⟩
  all_goals
    clear hchain hliterals
    intro w hw w' hw'
    simp only [List.mem_append, List.mem_flatMap, mem_chainWires, mem_literalWires, leftWires,
      rightWires, List.mem_cons, List.not_mem_nil, or_false] at hw hw'
    grind

end ConstraintLogic.Circuit
