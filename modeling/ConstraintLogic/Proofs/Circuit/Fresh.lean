import ConstraintLogic.Proofs.Circuit.Inside
/-!
# Fresh circuits

What a circuit is like before anybody plays it. Its size depends only on the number of letters,
every port has the edges that it takes, every vertex is satisfied, and the quantifier of a letter
drives the two ports of the evaluator that are for the letter, wherever the matrix mentions it
first.
-/

namespace ConstraintLogic

/-- The edges that a port with this gate takes. -/
def Gate.arity? : Gate → Option Arity
  | plain => none
  | converter _ => some ⟨1, 1⟩
  | existential _ port | universal _ port => some port.arity
  | evaluator _ port => some port.arity

namespace Graph

variable {g : Graph} {v : Vertex}

theorem isWired_of_isSatisfied (h : g.isSatisfied v = true) {arity : Arity}
    (harity : v.gate.arity? = some arity) : g.isWired v arity = true := by
  rw [isSatisfied] at h
  cases hgate : v.gate with
  | plain =>
    rw [hgate] at harity
    cases harity
  | converter | existential | universal | evaluator =>
    rw [hgate] at h harity
    cases harity
    exact (Bool.and_eq_true_iff.1 h).1

/-- A single edge leads from one vertex to another, and no other edge ends at either of them. -/
def Links (g : Graph) (source target : Ident) : Prop :=
  ∃ e, g.edges[e.id]? = some e ∧ e.source = source ∧ e.target = target ∧ e.weight = .single ∧
    ∀ (id : Ident) (e' : Edge), g.edges[id]? = some e' →
      e'.EndsAt source ∨ e'.EndsAt target → e' = e

end Graph

namespace Circuit

variable {text : String} {q : Qbf} {g : Graph} {b : Board}

/-! ## Sizes -/

theorem length_portPlaces (ls : List Char) : (portPlaces ls).length = 6 * ls.length := by
  simp [portPlaces, QuantifierPort.all, List.length_flatMap, Nat.mul_comm]

theorem length_literalPlaces (ls : List Char) : (literalPlaces ls).length = 2 * ls.length := by
  simp [literalPlaces, List.length_flatMap, Nat.mul_comm]

/-- The evaluator has two ports for each letter that is bound, since each is in the matrix. -/
theorem length_places (hq : q.IsProper) : (places q).length = 8 * q.bindings.length + 8 := by
  have hmatrix : q.matrix.letters.length = q.bindings.length := by
    rw [← hq.letters_perm.length_eq, List.length_map]
  simp only [places, evaluatorPlaces, List.length_append, length_portPlaces, length_literalPlaces,
    length_letters, hmatrix, List.length_cons, List.length_nil]
  omega

theorem length_wires {ls : List Char} (h : ls ≠ []) : (wires ls).length = 4 * ls.length + 9 := by
  have hpos : 0 < ls.length := List.length_pos_iff.2 h
  have hchain : (chainWires (ls.length - 1)).length = 2 * (ls.length - 1) := by
    simp [chainWires, List.length_flatMap, Nat.mul_comm]
  have hliterals : (ls.flatMap literalWires).length = 2 * ls.length := by
    simp [literalWires, List.length_flatMap, Nat.mul_comm]
  simp only [wires, List.length_append, hchain, hliterals, leftWires, rightWires, List.length_cons,
    List.length_nil]
  omega

theorem size_vertices_start (hq : q.IsProper) :
    ((∅ : Graph).withParts .root .origin (plan q)).vertices.size = 8 * q.bindings.length + 8 := by
  have hlength := congrArg List.length (vertices_plan hq)
  rw [List.length_map, List.length_map, length_places hq] at hlength
  exact (Registry.size_insertMany_empty_map (coherent_plan hq).vertices).trans hlength

theorem size_edges_start (hq : q.IsProper) :
    ((∅ : Graph).withParts .root .origin (plan q)).edges.size = 4 * q.bindings.length + 9 := by
  have hlength := congrArg List.length (edges_plan hq)
  rw [List.length_map, length_wires (letters_ne_nil hq), length_letters] at hlength
  exact (Registry.size_insertMany_empty_map (coherent_plan hq).edges).trans hlength

theorem size_components_start (hq : q.IsProper) :
    ((∅ : Graph).withParts .root .origin (plan q)).components.size = q.bindings.length + 3 := by
  have hlength := congrArg List.length (components_plan hq)
  rw [List.length_map, circuitComponents, List.length_append, List.length_map] at hlength
  exact (Registry.size_insertMany_empty_map (coherent_plan hq).components).trans hlength

theorem size_labels_start (hq : q.IsProper) :
    ((∅ : Graph).withParts .root .origin (plan q)).labels.size = 4 := by
  have hlength := congrArg List.length (labels_plan hq)
  rw [List.length_map] at hlength
  exact (Registry.size_insertMany_empty_map (coherent_plan hq).labels).trans hlength

/-! ## Literals -/

/-- The only wire at a place is the only edge at its vertex. -/
theorem Shows.eq_of_endsAt (hq : q.IsProper) (h : Shows q g b) {p : Place} {w : Wire}
    (hp : p.IsIn (letters q)) (hat : wiresAt (letters q) p = [w]) {id : Ident} {e : Edge}
    (he : g.edges[id]? = some e) (hend : e.EndsAt p.id) : e = w.edge (letters q) (b.on w) := by
  obtain ⟨w', hw', rfl, rfl⟩ := (h.edge_iff id e).1 he
  have htouches : w'.Touches (letters q) p := by
    rw [Wire.Touches]
    cases hon : b.on w' <;> rw [hon] at hend <;>
      rcases hend with hsource | htarget
    · exact .inr (Place.id_injective hsource)
    · exact .inl (Place.id_injective htarget)
    · exact .inl (Place.id_injective hsource)
    · exact .inr (Place.id_injective htarget)
  have hmem : w' ∈ wiresAt (letters q) p :=
    (touches_iff hq.nodup (letters_ne_nil hq) hp hw').1 htouches
  rw [hat] at hmem
  rw [List.mem_singleton.1 hmem]

/-- The wire of a literal ends at the port of the evaluator for it and at a port of the quantifier
of its letter. -/
theorem Shows.links (hq : q.IsProper) (h : Shows q g b) {l : Literal} {port : QuantifierPort}
    (hl : l.letter ∈ letters q) (hoff : b.on (.literal l) = false)
    (hdriver : (Wire.literal l).driver (letters q) = .port l.letter port)
    (hat : wiresAt (letters q) (.port l.letter port) = [.literal l]) :
    g.Links (evaluatorPort (.literal l)) (quantifierPort l.letter port) := by
  have hedge : g.edges[literalId l]? =
      some ((Wire.literal l).edge (letters q) (b.on (.literal l))) :=
    (h.edge_iff _ _).2 ⟨.literal l, hl, rfl, rfl⟩
  refine ⟨(Wire.literal l).edge (letters q) (b.on (.literal l)), hedge, ?_, ?_, rfl, ?_⟩
  · rw [hoff]
    rfl
  · rw [hoff]
    exact congrArg Place.id hdriver
  · rintro id e he (hend | hend)
    · exact h.eq_of_endsAt hq (p := .evaluator (.literal l)) hl rfl he hend
    · exact h.eq_of_endsAt hq (p := .port l.letter port) hl hat he hend

/-! ## The start -/

/-- A circuit as it is compiled. -/
structure IsFresh (q : Qbf) (g : Graph) : Prop where
  /-- There is a first and a last quantifier. -/
  bound : 0 < q.bindings.length
  vertices : g.vertices.size = 8 * q.bindings.length + 8
  edges : g.edges.size = 4 * q.bindings.length + 9
  components : g.components.size = q.bindings.length + 3
  labels : g.labels.size = 4
  wired : ∀ (id : Ident) (v : Vertex) (arity : Arity), g.vertices[id]? = some v →
    v.gate.arity? = some arity → g.isWired v arity = true
  integrity : g.checkIntegrity = .ok ()
  atRest : g.AtRest
  quantifier : ∀ binding ∈ q.bindings, ∃ c,
    g.components[quantifierId binding.letter]? = some c ∧ QuantifierAt binding false c
  evaluator : ∃ c, g.components[formulaId]? = some c ∧ EvaluatorAt q c
  positive : ∀ binding ∈ q.bindings,
    g.Links (evaluatorPort (.literal (.positive binding.letter)))
      (quantifierPort binding.letter .out)
  negative : ∀ binding ∈ q.bindings,
    g.Links (evaluatorPort (.literal (.negative binding.letter)))
      (quantifierPort binding.letter .inv)

/-- Every formula that can be read can be compiled, into a circuit with nothing amiss. -/
theorem isFresh_compile (hq : Qbf.parse text = .ok q) :
    ∃ g, compile text = .ok g ∧ IsFresh q g := by
  have hproper := Qbf.isProper_of_parse hq
  have hcompile := compile_of_parse hq
  have hconsistent := (reachable_of_compile hcompile).consistent
  have hstart := shows_start hproper
  have hrest := hstart.atRest hproper (Board.steady_start q)
  have hletter {binding : Binding} (hb : binding ∈ q.bindings) : binding.letter ∈ letters q :=
    List.mem_map_of_mem hb
  exact
    ⟨_, hcompile,
      { bound := List.length_pos_iff.2 hproper.bindings_ne_nil
        vertices := size_vertices_start hproper
        edges := size_edges_start hproper
        components := size_components_start hproper
        labels := size_labels_start hproper
        wired := fun id v _ hv harity =>
          Graph.isWired_of_isSatisfied (hrest.satisfied id v hv) harity
        integrity := hconsistent.checkIntegrity_eq_ok_iff_portsKept.2
          (portsKept_withParts (coherent_plan hproper))
        atRest := hrest
        quantifier := hstart.quantifier
        evaluator := hstart.evaluator
        positive := fun _ hb =>
          hstart.links hproper (l := .positive _) (hletter hb) rfl rfl rfl
        negative := fun _ hb =>
          hstart.links hproper (l := .negative _) (hletter hb) rfl rfl rfl }⟩

/-- Here the letters are bound in another order than the matrix mentions them in. -/
def transposed : Qbf where
  bindings := [⟨.existential, 'y'⟩, ⟨.universal, 'x'⟩]
  matrix := Qbf.copycat.matrix

theorem parse_transposed : Qbf.parse "exists y forall x : (x||!y)&&(!x||y)" = .ok transposed := by
  have hblank : "exists y forall x : (x||!y)&&(!x||y)".toList.dropWhile Text.isBlank =
      "exists y forall x : (x||!y)&&(!x||y)".toList := by decide +kernel
  have hy : Qbf.binding? "exists y forall x : (x||!y)&&(!x||y)".toList =
      some (⟨.existential, 'y'⟩, " forall x : (x||!y)&&(!x||y)".toList) := by decide +kernel
  have hx : Qbf.binding? "forall x : (x||!y)&&(!x||y)".toList =
      some (⟨.universal, 'x'⟩, " : (x||!y)&&(!x||y)".toList) := by decide +kernel
  have hheader : Qbf.header? "exists y forall x : (x||!y)&&(!x||y)".toList =
      some (transposed.bindings, " (x||!y)&&(!x||y)".toList) :=
    Qbf.header?_cons hy (by decide +kernel) (by decide +kernel)
      (Qbf.header?_last hx (by decide +kernel))
  rw [← hblank] at hheader
  exact Qbf.parse_of_header? hheader (by decide +kernel) (by decide) rfl

theorem isFresh_compile_transposed :
    Qbf.parse "exists y forall x : (x||!y)&&(!x||y)" = .ok transposed ∧
      ∃ g, compile "exists y forall x : (x||!y)&&(!x||y)" = .ok g ∧ IsFresh transposed g ∧
        g.vertices.size = 24 ∧ g.edges.size = 17 := by
  obtain ⟨g, hg, hfresh⟩ := isFresh_compile parse_transposed
  exact ⟨parse_transposed, g, hg, hfresh, hfresh.vertices, hfresh.edges⟩

end Circuit

end ConstraintLogic
