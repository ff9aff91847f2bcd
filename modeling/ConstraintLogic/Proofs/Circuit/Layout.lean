import ConstraintLogic.Circuit
import ConstraintLogic.Proofs.Circuit.Steady
import ConstraintLogic.Proofs.Placement
import ConstraintLogic.Proofs.Reading
/-!
# What the plan of a circuit brings

The edges of the plan are the wires of the circuit, all off, and its vertices are the places. The
parts are coherent, so that compiling a formula that has been read succeeds.
-/

namespace ConstraintLogic.Circuit

variable {q : Qbf}

section Parts

variable {β : Type} (f : Part → List β)

theorem flatMap_chainParts (hf : ∀ id source target weight, f (.edge id source target weight) = [])
    (ls : List Char) : (chainParts ls).flatMap f = [] := by
  simp [chainParts, linkParts, List.flatMap_assoc, hf]

theorem flatMap_literalParts
    (hf : ∀ id source target weight, f (.edge id source target weight) = []) (ls : List Char) :
    (ls.flatMap literalParts).flatMap f = [] := by
  simp [literalParts, literalPart, List.flatMap_assoc, hf]

theorem flatMap_quantifierParts
    (hf : ∀ id position blueprint, f (.component id position blueprint) = [])
    (bindings : List Binding) : (quantifierParts bindings).flatMap f = [] := by
  simp [quantifierParts, List.flatMap_map, hf]

end Parts

/-! ## Edges -/

section Edges

variable {ls : List Char}

theorem edges_linkParts {index : Nat} {left right : Char} (hl : ls[index]? = some left)
    (hr : ls[index + 1]? = some right) :
    (linkParts left right index).flatMap (Part.edges .root) =
      [(Wire.call (index + 1)).edge ls false, (Wire.success (index + 1)).edge ls false] := by
  have hlt : index + 1 < ls.length := (List.getElem?_eq_some_iff.1 hr).1
  have hne : index + 1 ≠ ls.length := by omega
  simp [linkParts, Part.edges, Wire.edge, Wire.id, Wire.driver, Wire.receiver, Wire.weight, portOr,
    hl, hr, hne, Place.id]

theorem edges_chainParts :
    (chainParts ls).flatMap (Part.edges .root) =
      (chainWires (ls.length - 1)).map fun w => w.edge ls false := by
  rw [chainParts, chainWires, List.flatMap_assoc, List.map_flatMap, List.flatMap_def,
    List.flatMap_def]
  congr 1
  apply List.ext_getElem
  · simp
  · intro index h _
    have hlt : index + 1 < ls.length := by
      simp only [List.length_map, List.length_zipIdx, List.length_zip, List.length_tail] at h
      omega
    have hl : ls[index]? = some ls[index] := List.getElem?_eq_getElem _
    have hr : ls[index + 1]? = some ls[index + 1] := List.getElem?_eq_getElem _
    simp [edges_linkParts hl hr]

theorem edges_literalParts (ls cs : List Char) :
    (cs.flatMap literalParts).flatMap (Part.edges .root) =
      (cs.flatMap literalWires).map fun w => w.edge ls false := by
  rw [List.flatMap_assoc, List.map_flatMap]
  apply congrArg (cs.flatMap ·)
  funext c
  simp [literalParts, literalWires, literalPart, Part.edges, Wire.edge, Wire.id, Wire.driver,
    Wire.receiver, Wire.weight, Place.id, Literal.positive, Literal.negative]

theorem edges_leftParts {first : Char} (h : ls[0]? = some first) :
    (leftParts first).flatMap (Part.edges .root) = leftWires.map fun w => w.edge ls false := by
  simp [leftParts, leftWires, Part.edges, Wire.edge, Wire.id, Wire.driver, Wire.receiver,
    Wire.weight, Place.id, portOr, h]

theorem edges_rightParts {last : Char} (h : ls[ls.length - 1]? = some last) :
    (rightParts last (ls.length - 1)).flatMap (Part.edges .root) =
      (rightWires ls.length).map fun w => w.edge ls false := by
  have hlt : ls.length - 1 < ls.length := (List.getElem?_eq_some_iff.1 h).1
  obtain ⟨n, hn⟩ : ∃ n, ls.length = n + 1 := ⟨ls.length - 1, by omega⟩
  rw [hn, Nat.add_sub_cancel] at h ⊢
  obtain ⟨_, rfl⟩ := List.getElem?_eq_some_iff.1 h
  simp [rightParts, rightWires, Part.edges, Wire.edge, Wire.id, Wire.driver, Wire.receiver,
    Wire.weight, Place.id, portOr, hn, Ident.child]

end Edges

theorem letters_ne_nil (hq : q.IsProper) : letters q ≠ [] := by
  simpa [letters] using hq.bindings_ne_nil

theorem plan_eq (hq : q.IsProper) :
    ∃ first last, (letters q)[0]? = some first ∧
      (letters q)[(letters q).length - 1]? = some last ∧
      plan q = quantifierParts q.bindings ++ chainParts (letters q) ++
        [.component formulaId ⟨0, drop⟩ (.evaluator q.matrix.source)] ++
        (letters q).flatMap literalParts ++ leftParts first ++
        rightParts last ((letters q).length - 1) := by
  have hpos : 0 < (letters q).length := List.length_pos_iff.2 (letters_ne_nil hq)
  refine ⟨_, _, List.getElem?_eq_getElem hpos, List.getElem?_eq_getElem (by omega), ?_⟩
  simp only [plan, ← letters.eq_def]
  rw [List.head?_eq_getElem?, List.getLast?_eq_getElem?, List.getElem?_eq_getElem hpos,
    List.getElem?_eq_getElem (show (letters q).length - 1 < (letters q).length by omega)]
  simp

theorem edges_plan (hq : q.IsProper) :
    (plan q).flatMap (Part.edges .root) =
      (wires (letters q)).map fun w => w.edge (letters q) false := by
  obtain ⟨first, last, hfirst, hlast, hplan⟩ := plan_eq hq
  rw [hplan]
  simp only [List.flatMap_append,
    flatMap_quantifierParts (Part.edges .root) (fun _ _ _ => rfl), edges_chainParts,
    edges_literalParts (letters q), edges_leftParts hfirst, edges_rightParts hlast,
    List.flatMap_singleton, Part.edges, List.nil_append, List.append_nil, wires, List.map_append]

/-! ## Vertices -/

/-- The rule of a port of the quantifier of a binding. -/
def portGate (b : Binding) (port : QuantifierPort) : Gate :=
  match b.quantifier with
  | .existential => .existential (quantifierId b.letter) port
  | .universal => .universal (quantifierId b.letter) port

namespace Place

def gate (q : Qbf) : Place → Gate
  | port letter p => q.bindings[(letters q).idxOf letter]?.elim .plain (portGate · p)
  | evaluator p => .evaluator formulaId p
  | callProbe => .converter ⟨["probe", "tryout"]⟩
  | resultProbe => .converter ⟨["probe", "result"]⟩
  | junction | source | sinkA | sinkB | sinkC => .plain

end Place

def portPlaces (letters : List Char) : List Place :=
  letters.flatMap fun letter => QuantifierPort.all.map (.port letter)

def literalPlaces (letters : List Char) : List Place :=
  letters.flatMap fun letter =>
    [.evaluator (.literal (.positive letter)), .evaluator (.literal (.negative letter))]

def evaluatorPlaces (q : Qbf) : List Place :=
  literalPlaces q.matrix.letters ++ [.evaluator .satisfied]

/-- The places of a circuit in the order in which they are placed. -/
def places (q : Qbf) : List Place :=
  portPlaces (letters q) ++ evaluatorPlaces q ++
    [.source, .sinkA, .sinkB, .sinkC, .junction, .callProbe, .resultProbe]

theorem mem_portPlaces {ls : List Char} {p : Place} :
    p ∈ portPlaces ls ↔ ∃ letter ∈ ls, ∃ port, p = .port letter port := by
  simp only [portPlaces, List.mem_flatMap, List.mem_map, QuantifierPort.mem_all, true_and]
  grind

theorem mem_literalPlaces {ls : List Char} {p : Place} :
    p ∈ literalPlaces ls ↔ ∃ l : Literal, l.letter ∈ ls ∧ p = .evaluator (.literal l) := by
  simp only [literalPlaces, List.mem_flatMap, List.mem_cons, List.not_mem_nil, or_false]
  constructor
  · rintro ⟨c, hc, rfl | rfl⟩
    · exact ⟨.positive c, hc, rfl⟩
    · exact ⟨.negative c, hc, rfl⟩
  · rintro ⟨⟨c, negated⟩, hc, rfl⟩
    cases negated
    · exact ⟨c, hc, .inl rfl⟩
    · exact ⟨c, hc, .inr rfl⟩

theorem mem_evaluatorPlaces (hq : q.IsProper) {port : EvaluatorPort} :
    .evaluator port ∈ evaluatorPlaces q ↔ (Place.evaluator port).IsIn (letters q) := by
  have hmem (c : Char) : c ∈ letters q ↔ c ∈ q.matrix.letters := hq.letters_perm.mem_iff
  cases port <;> simp [evaluatorPlaces, mem_literalPlaces, Place.IsIn, hmem]

theorem mem_places (hq : q.IsProper) {p : Place} : p ∈ places q ↔ p.IsIn (letters q) := by
  cases p with
  | port letter port =>
    simp [places, evaluatorPlaces, mem_portPlaces, mem_literalPlaces, Place.IsIn]
  | evaluator port => simp [places, mem_portPlaces, mem_evaluatorPlaces hq]
  | _ => simp [places, Place.IsIn]

theorem nodup_literalPlaces {ls : List Char} (h : ls.Nodup) : (literalPlaces ls).Nodup := by
  refine List.nodup_flatMap.2 ⟨by simp [Literal.positive, Literal.negative], ?_⟩
  refine h.imp ?_
  intro c d hcd
  simp [Function.onFun, Literal.positive, Literal.negative, Ne.symm hcd]

theorem nodup_places (hq : q.IsProper) : (places q).Nodup := by
  have hl : (letters q).Nodup := hq.nodup
  have hm : q.matrix.letters.Nodup := hq.letters_perm.nodup_iff.1 hq.nodup
  have hports : (portPlaces (letters q)).Nodup := by
    refine List.nodup_flatMap.2 ⟨by simp [QuantifierPort.all], ?_⟩
    refine hl.imp ?_
    intro c d hcd
    simp [Function.onFun, QuantifierPort.all, Ne.symm hcd]
  simp only [places, evaluatorPlaces, List.nodup_append]
  refine ⟨⟨hports, ⟨nodup_literalPlaces hm, by decide, ?_⟩, ?_⟩, by decide, ?_⟩
  all_goals
    intro p hp p' hp'
    simp only [mem_portPlaces, mem_literalPlaces, List.mem_append, List.mem_cons,
      List.not_mem_nil, or_false] at hp hp'
    grind

/-- The vertex regardless of where it lies. -/
def centered (v : Vertex) : Vertex :=
  { v with position := .origin }

def Place.vertex (q : Qbf) (p : Place) : Vertex :=
  .isolated p.id .origin true (p.gate q)

theorem gate_port (hn : (letters q).Nodup) {index : Nat} {b : Binding}
    (hb : q.bindings[index]? = some b) (port : QuantifierPort) :
    (Place.port b.letter port).gate q = portGate b port := by
  rw [Place.gate, idxOf_letter hn hb, hb]
  rfl

theorem vertices_quantifierParts (hn : (letters q).Nodup) :
    ((quantifierParts q.bindings).flatMap (Part.vertices .root .origin)).map centered =
      (portPlaces (letters q)).map (Place.vertex q) := by
  rw [quantifierParts, portPlaces, letters, List.flatMap_map, List.map_flatMap, List.flatMap_map,
    List.map_flatMap, List.flatMap_def, List.flatMap_def]
  congr 1
  apply List.ext_getElem
  · simp
  · intro index h _
    have hi : index < q.bindings.length := by simpa using h
    have hb : q.bindings[index]? = some q.bindings[index] := List.getElem?_eq_getElem hi
    have hgate := gate_port hn hb
    simp only [List.getElem_map, List.getElem_zipIdx, List.map_map, Nat.zero_add]
    generalize q.bindings[index] = b at hgate ⊢
    obtain ⟨kind, letter⟩ := b
    cases kind <;>
      simp [Part.vertices, gadget, Gadget.ofBlueprint, Gadget.ports, Place.vertex, hgate, portGate,
        PortPlan.vertex, centered, Vertex.isolated, Place.id, quantifierPort]

theorem ofBlueprint_evaluator (hq : q.IsProper) :
    Gadget.ofBlueprint (.evaluator q.matrix.source) = .ok (.evaluator q.matrix) := by
  rw [Gadget.ofBlueprint, hq.parse_source]
  rfl

theorem vertices_evaluator (hq : q.IsProper) (position : Point) :
    ((Part.component formulaId position (.evaluator q.matrix.source)).vertices .root .origin).map
        centered =
      (evaluatorPlaces q).map (Place.vertex q) := by
  have hletters : q.matrix.letters.zipIdx.flatMap
      (fun entry => (Gadget.letterPorts formulaId entry.1 entry.2).map fun plan =>
        centered (plan.vertex formulaId (Point.origin + position))) =
      (literalPlaces q.matrix.letters).map (Place.vertex q) := by
    rw [literalPlaces, List.map_flatMap, List.flatMap_def, List.flatMap_def]
    congr 1
    apply List.ext_getElem
    · simp
    · intro index h _
      simp [Gadget.letterPorts, PortPlan.vertex, centered, Place.vertex, Vertex.isolated,
        Place.id, Place.gate, evaluatorPort]
  simp only [Part.vertices, ofBlueprint_evaluator hq, Gadget.ports, List.map_append,
    List.map_flatMap, Ident.root_join, List.map_map, Function.comp_def, hletters, evaluatorPlaces]
  rfl

theorem vertices_plan (hq : q.IsProper) :
    ((plan q).flatMap (Part.vertices .root .origin)).map centered =
      (places q).map (Place.vertex q) := by
  obtain ⟨first, last, -, -, hplan⟩ := plan_eq hq
  have hleft : ((leftParts first).flatMap (Part.vertices .root .origin)).map centered =
      [Place.source, .sinkA, .sinkB, .sinkC].map (Place.vertex q) := by
    simp [leftParts, Part.vertices, centered, Place.vertex, Vertex.isolated, Place.id, Place.gate]
  have hright (index : Nat) :
      ((rightParts last index).flatMap (Part.vertices .root .origin)).map centered =
        [Place.junction, .callProbe, .resultProbe].map (Place.vertex q) := by
    simp [rightParts, Part.vertices, centered, Place.vertex, Vertex.isolated, Place.id, Place.gate,
      Gadget.ofBlueprint, Gadget.ports, PortPlan.vertex, Ident.child]
  rw [hplan]
  simp only [List.flatMap_append, List.map_append, vertices_quantifierParts hq.nodup,
    flatMap_chainParts (Part.vertices .root .origin) (fun _ _ _ _ => rfl),
    flatMap_literalParts (Part.vertices .root .origin) (fun _ _ _ _ => rfl),
    List.flatMap_singleton, vertices_evaluator hq, hleft, hright, List.append_nil,
    places]
  simp

theorem ids_of_centered {vs : List Vertex} {ps : List Place}
    (h : vs.map centered = ps.map (Place.vertex q)) : vs.map Vertex.id = ps.map Place.id := by
  have := congrArg (List.map Vertex.id) h
  simpa [Function.comp_def, centered, Place.vertex, Vertex.isolated] using this

/-! ## Components and labels -/

/-- The gadget of a binding whose latch, if it has one, has this value. -/
def bindingGadget (b : Binding) (latch : Bool) : Gadget :=
  match b.quantifier with
  | .existential => .existential b.letter
  | .universal => .universal b.letter latch

def circuitComponents (q : Qbf) : List Component :=
  q.bindings.map (fun b => .ofGadget (quantifierId b.letter) .origin (bindingGadget b false)) ++
    [.ofGadget formulaId .origin (.evaluator q.matrix),
      .ofGadget ⟨["probe", "tryout"]⟩ .origin .converter,
      .ofGadget ⟨["probe", "result"]⟩ .origin .converter]

theorem components_quantifierParts (bindings : List Binding) :
    ((quantifierParts bindings).flatMap (Part.components .root .origin)).map
        (fun c => { c with position := .origin }) =
      bindings.map fun b => .ofGadget (quantifierId b.letter) .origin (bindingGadget b false) := by
  have hone (b : Binding) (position : Point) :
      ((Part.component (quantifierId b.letter) position (gadget b)).components .root .origin).map
          (fun c => { c with position := .origin }) =
        [.ofGadget (quantifierId b.letter) .origin (bindingGadget b false)] := by
    obtain ⟨kind, letter⟩ := b
    cases kind <;> rfl
  rw [quantifierParts, List.flatMap_map, List.map_flatMap]
  simp only [hone]
  conv_rhs => rw [← List.zipIdx_map_fst 0 bindings, List.map_map, List.map_eq_flatMap]
  rfl

theorem components_plan (hq : q.IsProper) :
    ((plan q).flatMap (Part.components .root .origin)).map
        (fun c => { c with position := .origin }) = circuitComponents q := by
  obtain ⟨first, last, -, -, hplan⟩ := plan_eq hq
  have hformula (position : Point) :
      (Part.component formulaId position (.evaluator q.matrix.source)).components .root .origin =
        [.ofGadget formulaId (.origin + position) (.evaluator q.matrix)] := by
    rw [Part.components, ofBlueprint_evaluator hq]
    rfl
  rw [hplan]
  simp only [List.flatMap_append, List.map_append, components_quantifierParts,
    flatMap_chainParts (Part.components .root .origin) (fun _ _ _ _ => rfl),
    flatMap_literalParts (Part.components .root .origin) (fun _ _ _ _ => rfl),
    List.flatMap_singleton, hformula, circuitComponents]
  simp [Part.components, leftParts, rightParts, Gadget.ofBlueprint, Component.ofGadget]

theorem labels_plan (hq : q.IsProper) :
    ((plan q).flatMap (Part.labels .root .origin)).map Label.id =
      [⟨["label", "try"]⟩, ⟨["label", "sat"]⟩, ⟨["label", "tryout"]⟩, ⟨["label", "result"]⟩] := by
  obtain ⟨first, last, -, -, hplan⟩ := plan_eq hq
  rw [hplan]
  simp only [List.flatMap_append, List.map_append,
    flatMap_quantifierParts (Part.labels .root .origin) (fun _ _ _ => rfl),
    flatMap_chainParts (Part.labels .root .origin) (fun _ _ _ _ => rfl),
    flatMap_literalParts (Part.labels .root .origin) (fun _ _ _ _ => rfl)]
  simp [Part.labels, leftParts, rightParts]

/-! ## Coherence -/

theorem ids_circuitComponents (q : Qbf) :
    (circuitComponents q).map Component.id =
      (letters q).map quantifierId ++
        [formulaId, ⟨["probe", "tryout"]⟩, ⟨["probe", "result"]⟩] := by
  simp [circuitComponents, letters, Component.ofGadget]

theorem ids_components_plan (hq : q.IsProper) :
    ((plan q).flatMap (Part.components .root .origin)).map Component.id =
      (circuitComponents q).map Component.id := by
  rw [← components_plan hq, List.map_map]
  rfl

theorem nodup_ids_circuitComponents (hn : (letters q).Nodup) :
    ((circuitComponents q).map Component.id).Nodup := by
  have hquantifiers : ((letters q).map quantifierId).Nodup := by
    apply hn.map
    intro c d h
    simpa [quantifierId] using h
  rw [ids_circuitComponents, List.nodup_append]
  refine ⟨hquantifiers, by decide, ?_⟩
  intro id hid id' hid'
  obtain ⟨c, -, rfl⟩ := List.mem_map.1 hid
  simp only [List.mem_cons, List.not_mem_nil, or_false] at hid'
  rcases hid' with rfl | rfl | rfl <;> simp [quantifierId, formulaId]

theorem mem_plan (hq : q.IsProper) {p : Part} (hp : p ∈ plan q) :
    (Ident.root.join p.id).isRoot = false ∧ p.IsSound := by
  obtain ⟨first, last, -, -, hplan⟩ := plan_eq hq
  rw [hplan] at hp
  simp only [List.mem_append, List.mem_singleton] at hp
  rcases hp with ((((hp | hp) | rfl) | hp) | hp) | hp
  · obtain ⟨⟨⟨kind, letter⟩, index⟩, -, rfl⟩ := List.mem_map.1 hp
    cases kind <;> exact ⟨rfl, _, rfl⟩
  · simp only [chainParts, linkParts, List.mem_flatMap, List.mem_cons, List.not_mem_nil,
      or_false] at hp
    obtain ⟨_, -, rfl | rfl⟩ := hp <;> exact ⟨rfl, trivial⟩
  · exact ⟨rfl, _, ofBlueprint_evaluator hq⟩
  · simp only [literalParts, literalPart, List.mem_flatMap, List.mem_cons, List.not_mem_nil,
      or_false] at hp
    obtain ⟨_, -, rfl | rfl⟩ := hp <;> exact ⟨rfl, trivial⟩
  · simp only [leftParts, List.mem_cons, List.not_mem_nil, or_false] at hp
    rcases hp with rfl | rfl | rfl | rfl | rfl | rfl | rfl | rfl | rfl | rfl | rfl | rfl <;>
      exact ⟨rfl, trivial⟩
  · simp only [rightParts, List.mem_cons, List.not_mem_nil, or_false] at hp
    rcases hp with rfl | rfl | rfl | rfl | rfl | rfl | rfl | rfl | rfl | rfl <;>
      first | exact ⟨rfl, trivial⟩ | exact ⟨rfl, _, rfl⟩

theorem quantifierPort_mem {ls : List Char} {letter : Char} (h : letter ∈ ls)
    (port : QuantifierPort) : quantifierPort letter port ∈ (portPlaces ls).map Place.id :=
  List.mem_map.2 ⟨.port letter port, mem_portPlaces.2 ⟨letter, h, port, rfl⟩, rfl⟩

theorem evaluatorPort_mem {ls : List Char} {l : Literal} (h : l.letter ∈ ls) :
    evaluatorPort (.literal l) ∈ (literalPlaces ls).map Place.id :=
  List.mem_map.2 ⟨.evaluator (.literal l), mem_literalPlaces.2 ⟨l, h, rfl⟩, rfl⟩

theorem ordered_chainParts {ls : List Char} {known : List Ident}
    (h : ∀ id ∈ (portPlaces ls).map Place.id, id ∈ known) :
    Ordered .root .origin known (chainParts ls) := by
  apply ordered_of_forall
  intro e he
  simp only [chainParts, List.flatMap_assoc, List.mem_flatMap] at he
  obtain ⟨⟨⟨left, right⟩, index⟩, hlink, p, hp, he⟩ := he
  have hmem := List.of_mem_zip (List.fst_mem_of_mem_zipIdx hlink)
  have hleft (port : QuantifierPort) : quantifierPort left port ∈ known :=
    h _ (quantifierPort_mem hmem.1 port)
  have hright (port : QuantifierPort) : quantifierPort right port ∈ known :=
    h _ (quantifierPort_mem (List.mem_of_mem_tail hmem.2) port)
  simp only [linkParts, List.mem_cons, List.not_mem_nil, or_false] at hp
  rcases hp with rfl | rfl
  · obtain rfl := List.mem_singleton.1 he
    exact ⟨hright _, hleft _⟩
  · obtain rfl := List.mem_singleton.1 he
    exact ⟨hleft _, hright _⟩

theorem ordered_literalParts {ls : List Char} {known : List Ident}
    (h : ∀ id ∈ (portPlaces ls).map Place.id, id ∈ known)
    (h' : ∀ id ∈ (literalPlaces ls).map Place.id, id ∈ known) :
    Ordered .root .origin known (ls.flatMap literalParts) := by
  apply ordered_of_forall
  intro e he
  simp only [List.flatMap_assoc, List.mem_flatMap] at he
  obtain ⟨c, hc, p, hp, he⟩ := he
  have hport (port : QuantifierPort) : quantifierPort c port ∈ known :=
    h _ (quantifierPort_mem hc port)
  have hpositive : evaluatorPort (.literal (.positive c)) ∈ known := h' _ (evaluatorPort_mem hc)
  have hnegative : evaluatorPort (.literal (.negative c)) ∈ known := h' _ (evaluatorPort_mem hc)
  simp only [literalParts, List.mem_cons, List.not_mem_nil, or_false] at hp
  rcases hp with rfl | rfl
  · obtain rfl := List.mem_singleton.1 he
    exact ⟨hpositive, hport _⟩
  · obtain rfl := List.mem_singleton.1 he
    exact ⟨hnegative, hport _⟩

theorem ordered_leftParts {first : Char} {known : List Ident}
    (h : ∀ port, quantifierPort first port ∈ known) :
    Ordered .root .origin known (leftParts first) := by
  simp [leftParts, Ordered, Part.edges, Part.vertices, Vertex.isolated, h]

theorem ordered_rightParts {last : Char} {index : Nat} {known : List Ident}
    (h : ∀ port, quantifierPort last port ∈ known)
    (h' : evaluatorPort .satisfied ∈ known) :
    Ordered .root .origin known (rightParts last index) := by
  simp [rightParts, Ordered, Part.edges, Part.vertices, Vertex.isolated, h, h',
    Gadget.ofBlueprint, Gadget.ports, PortPlan.vertex]

theorem ordered_plan (hq : q.IsProper) : Ordered .root .origin [] (plan q) := by
  obtain ⟨first, last, hfirst, hlast, hplan⟩ := plan_eq hq
  have hports := ids_of_centered (vertices_quantifierParts hq.nodup)
  have hliterals := ids_of_centered (vertices_evaluator hq ⟨0, drop⟩)
  have hmem {id : Ident} : id ∈ (literalPlaces (letters q)).map Place.id ↔
      id ∈ (literalPlaces q.matrix.letters).map Place.id := by
    simp only [List.mem_map, mem_literalPlaces, letters, hq.letters_perm.mem_iff]
  rw [hplan]
  simp only [ordered_append, List.flatMap_append, List.map_append, List.flatMap_singleton, hports,
    hliterals]
  refine ⟨⟨⟨⟨⟨?_, ?_⟩, ?_⟩, ?_⟩, ?_⟩, ?_⟩
  · apply ordered_of_forall
    rw [flatMap_quantifierParts (Part.edges .root) (fun _ _ _ => rfl)]
    simp
  · apply ordered_chainParts
    simp
  · exact ⟨by simp [Part.edges], trivial⟩
  · apply ordered_literalParts
    · intro id hid
      simp [hid]
    · intro id hid
      simp [evaluatorPlaces, hmem.1 hid]
  · apply ordered_leftParts
    intro port
    have := quantifierPort_mem (List.mem_of_getElem? hfirst) port
    simp [this]
  · apply ordered_rightParts
    · intro port
      have := quantifierPort_mem (List.mem_of_getElem? hlast) port
      simp [this]
    · simp [evaluatorPlaces, Place.id]

theorem coherent_plan (hq : q.IsProper) : Coherent .root .origin (plan q) where
  vertices := by
    rw [ids_of_centered (vertices_plan hq)]
    exact (nodup_places hq).map fun _ _ h => Place.id_injective h
  edges := by
    have hid : (Edge.id ∘ fun w => Wire.edge (letters q) w false) = Wire.id (letters q) := rfl
    rw [edges_plan hq, List.map_map, hid]
    exact (nodup_wires hq.nodup (letters_ne_nil hq)).map
      fun _ _ h => Wire.id_injective h
  components := by
    rw [ids_components_plan hq]
    exact nodup_ids_circuitComponents hq.nodup
  labels := by
    rw [labels_plan hq]
    decide
  named p hp := (mem_plan hq hp).1
  sound p hp := (mem_plan hq hp).2
  ordered := ordered_plan hq

theorem isFree_empty (ps : List Part) : (∅ : Graph).IsFree .root .origin ps where
  vertices _ _ := Std.ExtTreeMap.not_mem_empty
  edges _ _ := Std.ExtTreeMap.not_mem_empty
  components _ _ := Std.ExtTreeMap.not_mem_empty
  labels _ _ := Std.ExtTreeMap.not_mem_empty

/-- Compiling a formula that can be read gives a graph with all parts of the plan. -/
theorem compile_of_parse {text : String} (h : Qbf.parse text = .ok q) :
    compile text = .ok ((∅ : Graph).withParts .root .origin (plan q)) := by
  have hbuild : (build .root .origin q).run ∅ =
      .ok () ((∅ : Graph).withParts .root .origin (plan q)) :=
    run_forM_place (coherent_plan (Qbf.isProper_of_parse h)) (isFree_empty _)
  simp only [compile, compileInto, EStateM.run_bind, Edit.run_ofExcept, h, EStateM.run_get, hbuild]
  rfl

end ConstraintLogic.Circuit
