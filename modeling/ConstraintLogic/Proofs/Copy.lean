import ConstraintLogic.Proofs.Locality
import Mathlib.Data.List.Sort
/-!
# Copies inside scopes

A graph may hold a copy of another one: the same vertices, edges and components, all of whose names
stand inside a scope, next to whatever else there is. What is satisfied and what gadgets ask for
depends only on edges that end at a vertex and on ports of a gadget, so it is the same in the copy.
A move of the copy is a move of the other graph. A move elsewhere settles the latches of the copy
too, which changes nothing if they are as the gadgets ask for them.
-/

namespace ConstraintLogic

/-! ## Names -/

namespace Ident

theorem compare_join (scope a b : Ident) : compare (scope.join a) (scope.join b) = compare a b := by
  change List.compareLex compare (scope.segments ++ a.segments) (scope.segments ++ b.segments) =
    List.compareLex compare a.segments b.segments
  induction scope.segments with
  | nil => rfl
  | cons segment rest ih =>
    simp only [List.cons_append, List.compareLex_cons_cons, Std.ReflCmp.compare_self,
      Ordering.eq_then, ih]

theorem join_injective (scope : Ident) : Function.Injective scope.join := by
  rintro ⟨a⟩ ⟨b⟩ h
  simpa [join] using h

theorem isRoot_join (scope id : Ident) :
    (scope.join id).isRoot = (scope.isRoot && id.isRoot) := by
  simp only [isRoot, join]
  cases scope.segments <;> simp

/-- The identifier as seen from a scope that it stands in. -/
def inside? (scope id : Ident) : Option Ident :=
  (id.segments.dropPrefix? scope.segments).map mk

theorem inside?_eq_some_iff {scope id inner : Ident} :
    scope.inside? id = some inner ↔ scope.join inner = id := by
  rw [inside?, Option.map_eq_some_iff]
  simp only [List.dropPrefix?_eq_some_iff, beq_iff_eq]
  constructor
  · rintro ⟨rest, ⟨_, hsegments, rfl⟩, rfl⟩
    exact congrArg mk hsegments.symm
  · rintro rfl
    exact ⟨_, ⟨_, rfl, rfl⟩, rfl⟩

end Ident

namespace IdentSet

def within (scope : Ident) (s : IdentSet) : IdentSet :=
  .ofList (s.toList.map scope.join)

theorem mem_within {scope id : Ident} {s : IdentSet} :
    id ∈ s.within scope ↔ ∃ inner ∈ s, scope.join inner = id := by
  rw [within, Std.ExtTreeSet.mem_ofList, List.contains_iff_mem, List.mem_map]
  simp only [Std.ExtTreeSet.mem_toList]

/-- A scope does not change the order of the names in it. -/
theorem toList_within (scope : Ident) (s : IdentSet) :
    (s.within scope).toList = s.toList.map scope.join := by
  have hsorted : (s.toList.map scope.join).Pairwise fun a b => compare a b = .lt := by
    rw [List.pairwise_map]
    simp only [Ident.compare_join]
    exact s.ordered_toList
  have hperm : (s.within scope).toList.Perm (s.toList.map scope.join) := by
    refine toList_perm ((nodup_toList s).map (Ident.join_injective scope)) fun id => ?_
    rw [within, Std.ExtTreeSet.mem_ofList, List.contains_iff_mem]
  refine hperm.eq_of_pairwise ?_ (Std.ExtTreeSet.ordered_toList) hsorted
  intro a b _ _ hab hba
  have hswap : compare a b = (compare b a).swap := Std.OrientedOrd.eq_swap
  rw [hswap, hba] at hab
  cases hab

end IdentSet

/-! ## Entities -/

namespace Edge

def within (scope : Ident) (e : Edge) : Edge :=
  { e with id := scope.join e.id, source := scope.join e.source, target := scope.join e.target }

variable (scope : Ident) (e : Edge)

@[simp] theorem reverse_within : (e.within scope).reverse = e.reverse.within scope := rfl

@[simp] theorem circular_within : (e.within scope).circular = e.circular := by
  simp [circular, within, (Ident.join_injective scope).eq_iff]

@[simp] theorem direction?_within (vertex : Ident) :
    (e.within scope).direction? (scope.join vertex) = e.direction? vertex := by
  simp [direction?, within, (Ident.join_injective scope).eq_iff]

end Edge

namespace Gate

def within (scope : Ident) : Gate → Gate
  | plain => plain
  | converter owner => converter (scope.join owner)
  | existential owner port => existential (scope.join owner) port
  | universal owner port => universal (scope.join owner) port
  | evaluator owner port => evaluator (scope.join owner) port

@[simp] theorem owner?_within (scope : Ident) (gate : Gate) :
    (gate.within scope).owner? = gate.owner?.map scope.join := by
  cases gate <;> rfl

end Gate

/-- The vertex inside a scope, at another position. -/
def Vertex.within (scope : Ident) (position : Point) (v : Vertex) : Vertex :=
  { v with
    id := scope.join v.id
    position := position
    edges := v.edges.within scope
    gate := v.gate.within scope }

namespace Component

/-- The component inside a scope, at another position. -/
def within (scope : Ident) (position : Point) (c : Component) : Component :=
  { c with
    id := scope.join c.id
    position := position
    ports := c.ports.map fun _ port => scope.join port }

theorem getElem?_ports_within (scope : Ident) (position : Point) (c : Component) (name : String) :
    (c.within scope position).ports[name]? = c.ports[name]?.map scope.join :=
  Std.ExtTreeMap.getElem?_map

end Component

namespace Graph

/-- Everything that is referred to exists, and every component has a port. -/
structure Whole (g : Graph) : Prop extends Consistent g where
  ports : ∀ (id : Ident) (c : Component), g.components[id]? = some c →
    ∀ (name : String) (port : Ident), c.ports[name]? = some port → port ∈ g.vertices
  owns : ∀ (id : Ident) (c : Component), g.components[id]? = some c → g.OwnsVertex id

/-- Inside the scope, the graph has all that is in the other one, though maybe elsewhere on
paper. -/
structure HasCopy (g : Graph) (scope : Ident) (s : Graph) : Prop where
  vertex : ∀ (id : Ident) (v : Vertex), s.vertices[id]? = some v →
    ∃ position, g.vertices[scope.join id]? = some (v.within scope position)
  edge : ∀ (id : Ident) (e : Edge), s.edges[id]? = some e →
    g.edges[scope.join id]? = some (e.within scope)
  component : ∀ (id : Ident) (c : Component), s.components[id]? = some c →
    ∃ position, g.components[scope.join id]? = some (c.within scope position)

variable {g s : Graph} {scope id : Ident} {v : Vertex} {e : Edge} {c : Component}

theorem HasCopy.touch (h : g.HasCopy scope s) : g.touch.HasCopy scope s :=
  ⟨h.vertex, h.edge, h.component⟩

theorem HasCopy.touch_touch (h : g.HasCopy scope s) : g.touch.HasCopy scope s.touch :=
  ⟨h.vertex, h.edge, h.component⟩

/-! ## Flow -/

section Flow

variable (hc : g.HasCopy scope s) (hs : s.Linked) (hv : s.vertices[id]? = some v)
  (position : Point)
include hc hs hv

/-- The edges come in the same order, on which it depends who tells a gadget of a success. -/
theorem HasCopy.incident :
    g.incident (v.within scope position) = (s.incident v).map (Edge.within scope) := by
  rw [Graph.incident, Vertex.within, IdentSet.toList_within, List.filterMap_map, Graph.incident,
    List.map_filterMap]
  apply List.filterMap_congr
  intro edge hedge
  obtain ⟨e, he, -⟩ := (hs.listed id v hv edge).1 (Std.ExtTreeSet.mem_toList.1 hedge)
  rw [Function.comp_apply, hc.edge edge e he, he, Option.map_some]

theorem HasCopy.pointing (d : Direction) :
    g.pointing (v.within scope position) d = (s.pointing v d).map (Edge.within scope) := by
  rw [Graph.pointing, hc.incident hs hv, List.filter_map, Graph.pointing]
  congr 2
  funext e
  simp [Vertex.within]

theorem HasCopy.receives : g.receives (v.within scope position) = s.receives v := by
  rw [Graph.receives, incoming, hc.pointing hs hv, List.any_map, Graph.receives, incoming]
  simp [Function.comp_def]

theorem HasCopy.drives : g.drives (v.within scope position) = s.drives v := by
  rw [Graph.drives, outgoing, hc.pointing hs hv, List.any_map, Graph.drives, outgoing]
  simp [Function.comp_def]

theorem HasCopy.inflow : g.inflow (v.within scope position) = s.inflow v := by
  rw [Graph.inflow, incoming, hc.pointing hs hv, totalWeight, List.foldr_map]
  rfl

theorem HasCopy.isWired (arity : Arity) :
    g.isWired (v.within scope position) arity = s.isWired v arity := by
  rw [Graph.isWired, hc.incident hs hv, List.countP_map, List.countP_map]
  rfl

end Flow

/-! ## Gadgets -/

section Gadgets

variable (hc : g.HasCopy scope s) (hs : s.Whole)
include hc

theorem HasCopy.exists_vertex (hid : id ∈ s.vertices) :
    ∃ position, g.vertices[scope.join id]? =
      s.vertices[id]?.map (Vertex.within scope position) := by
  obtain ⟨v, hv⟩ := Registry.mem_iff_exists.1 hid
  obtain ⟨position, hcopy⟩ := hc.vertex id v hv
  exact ⟨position, by rw [hcopy, hv, Option.map_some]⟩

/-- What holds of vertices as of their copies is the same for the vertex of a name. -/
theorem HasCopy.any_vertex (hid : id ∈ s.vertices) {f f' : Vertex → Bool}
    (hf : ∀ (id : Ident) (v : Vertex) (position : Point), s.vertices[id]? = some v →
      f' (v.within scope position) = f v) :
    g.vertices[scope.join id]?.any f' = s.vertices[id]?.any f := by
  obtain ⟨v, hv⟩ := Registry.mem_iff_exists.1 hid
  obtain ⟨position, hcopy⟩ := hc.exists_vertex hid
  rw [hcopy, hv, Option.map_some, Option.any_some, Option.any_some, hf id v position hv]

include hs

variable (hcomponent : s.components[id]? = some c) (position : Point)
include hcomponent

theorem HasCopy.exists_port (name : String) :
    ∃ position', g.port? (c.within scope position) name =
      (s.port? c name).map (Vertex.within scope position') := by
  rw [port?, Component.getElem?_ports_within, port?]
  cases hport : c.ports[name]? with
  | none => exact ⟨.origin, rfl⟩
  | some port => exact hc.exists_vertex (hs.ports id c hcomponent name port hport)

theorem HasCopy.any_port (name : String) {f f' : Vertex → Bool}
    (hf : ∀ (id : Ident) (v : Vertex) (position : Point), s.vertices[id]? = some v →
      f' (v.within scope position) = f v) :
    (g.port? (c.within scope position) name).any f' = (s.port? c name).any f := by
  rw [port?, Component.getElem?_ports_within, port?]
  cases hport : c.ports[name]? with
  | none => rfl
  | some port => exact hc.any_vertex (hs.ports id c hcomponent name port hport) hf

theorem HasCopy.portReceives (name : String) :
    g.portReceives (c.within scope position) name = s.portReceives c name :=
  hc.any_port hs hcomponent position name fun _ _ position hv => hc.receives hs.toLinked hv position

theorem HasCopy.portDrives (name : String) :
    g.portDrives (c.within scope position) name = s.portDrives c name :=
  hc.any_port hs hcomponent position name fun _ _ position hv => hc.drives hs.toLinked hv position

theorem HasCopy.signals : g.signals (c.within scope position) = s.signals c := by
  simp only [Graph.signals, hc.portReceives hs hcomponent, hc.portDrives hs hcomponent]

theorem HasCopy.gadgetHolds : g.gadgetHolds (c.within scope position) = s.gadgetHolds c := by
  simp only [Graph.gadgetHolds, formulaHolds, hc.signals hs hcomponent,
    hc.portReceives hs hcomponent, hc.portDrives hs hcomponent]
  rfl

end Gadgets

/-! ## Satisfaction -/

section Satisfaction

variable (hc : g.HasCopy scope s) (hs : s.Whole)
include hc hs

theorem HasCopy.ownerHolds {owner : Ident} (howner : owner ∈ s.components) :
    g.ownerHolds (scope.join owner) = s.ownerHolds owner := by
  obtain ⟨c, hcomponent⟩ := Registry.mem_iff_exists.1 howner
  obtain ⟨position, hcopy⟩ := hc.component owner c hcomponent
  rw [Graph.ownerHolds, hcopy, Graph.ownerHolds, hcomponent, Option.any_some, Option.any_some]
  exact hc.gadgetHolds hs hcomponent position

theorem HasCopy.isSatisfied (hv : s.vertices[id]? = some v) (position : Point) :
    g.isSatisfied (v.within scope position) = s.isSatisfied v := by
  have howner {owner : Ident} (h : v.gate.owner? = some owner) :
      g.ownerHolds (scope.join owner) = s.ownerHolds owner := by
    obtain ⟨c, hcomponent, -⟩ := hs.owned id v owner hv h
    exact hc.ownerHolds hs (Registry.mem_of_getElem? hcomponent)
  have hinflow := hc.inflow hs.toLinked hv position
  have hwired := hc.isWired hs.toLinked hv position
  have hgate : (v.within scope position).gate = v.gate.within scope := rfl
  have hvisible : (v.within scope position).visible = v.visible := rfl
  cases hkind : v.gate with
  | plain | converter =>
    simp only [Graph.isSatisfied, hgate, hkind, Gate.within, hvisible, hinflow, hwired]
  | existential owner port | universal owner port | evaluator owner port =>
    simp only [Graph.isSatisfied, hgate, hkind, Gate.within, hwired,
      howner (congrArg Gate.owner? hkind)]

theorem HasCopy.any_isSatisfied (hid : id ∈ s.vertices) :
    g.vertices[scope.join id]?.any g.isSatisfied = s.vertices[id]?.any s.isSatisfied :=
  hc.any_vertex hid fun _ _ position hv => hc.isSatisfied hs hv position

theorem HasCopy.isEdgeSatisfied (he : s.edges[id]? = some e) :
    g.isEdgeSatisfied (e.within scope) = s.isEdgeSatisfied e := by
  have hsource := hc.any_isSatisfied hs (hs.ends id e he _ (.inl rfl))
  have htarget := hc.any_isSatisfied hs (hs.ends id e he _ (.inr rfl))
  rw [Graph.isEdgeSatisfied, Graph.isEdgeSatisfied, ← hsource, ← htarget]
  rfl

/-! ## Latches -/

variable (hcomponent : s.components[id]? = some c) (position : Point)
include hcomponent

theorem HasCopy.isSatSourceSatisfied :
    g.isSatSourceSatisfied (c.within scope position) = s.isSatSourceSatisfied c := by
  obtain ⟨position', hport⟩ :=
    hc.exists_port hs hcomponent position QuantifierPort.satIn.name
  rw [Graph.isSatSourceSatisfied, hport, Graph.isSatSourceSatisfied]
  cases hv : s.port? c QuantifierPort.satIn.name with
  | none => rfl
  | some v =>
    obtain ⟨port, -, hv⟩ := Option.bind_eq_some_iff.1 hv
    have hfind : ((s.pointing v .incoming).map (Edge.within scope)).find? (fun e => !e.circular) =
        ((s.pointing v .incoming).find? fun e => !e.circular).map (Edge.within scope) := by
      simp only [List.find?_map, Function.comp_def, Edge.circular_within]
    simp only [Option.map_some, incoming, hc.pointing hs.toLinked hv, hfind]
    cases he : (s.pointing v .incoming).find? fun e => !e.circular with
    | none => rfl
    | some e =>
      have hmem := List.mem_of_find?_eq_some he
      rw [Graph.pointing, Graph.incident, List.mem_filter, List.mem_filterMap] at hmem
      obtain ⟨⟨edge, -, hedge⟩, -⟩ := hmem
      exact hc.any_isSatisfied hs (hs.ends edge e hedge _ (.inl rfl))

theorem HasCopy.latchRequest? :
    g.latchRequest? (c.within scope position) = s.latchRequest? c := by
  simp only [Graph.latchRequest?, hc.signals hs hcomponent, hc.isSatSourceSatisfied hs hcomponent]
  rfl

theorem HasCopy.settledComponent :
    g.settledComponent (c.within scope position) =
      (s.settledComponent c).within scope position := by
  rw [Graph.settledComponent, hc.latchRequest? hs hcomponent, Graph.settledComponent]
  cases s.latchRequest? c <;> rfl

end Satisfaction

/-! ## Moves -/

theorem Whole.of_sameShape {s' : Graph} (hs : s.Whole) (h : s'.SameShape s) : s'.Whole where
  toConsistent := hs.toConsistent.of_sameShape h
  ports id c' hc' name port hport := by
    have hshape := h.components id
    rw [hc', Option.map_some, eq_comm, Option.map_eq_some_iff] at hshape
    obtain ⟨c, hc, hsame⟩ := hshape
    have hports : c.ports = c'.ports := congrArg (fun shape => shape.2.1) hsame
    have hmem := hs.ports id c hc name port (by rw [hports, hport])
    rw [Std.ExtTreeMap.mem_iff_isSome_getElem?] at hmem ⊢
    rwa [← Option.isSome_map, h.vertices, Option.isSome_map]
  owns id c' hc' := by
    have hcomponent := h.components id
    rw [hc', Option.map_some, eq_comm, Option.map_eq_some_iff] at hcomponent
    obtain ⟨c, hc, -⟩ := hcomponent
    obtain ⟨key, v, hv, howner⟩ := hs.owns id c hc
    have hvertex := h.vertices key
    rw [hv, Option.map_some, Option.map_eq_some_iff] at hvertex
    obtain ⟨v', hv', hsame⟩ := hvertex
    have hgate : v'.gate = v.gate := congrArg (fun shape => shape.2.2) hsame
    exact ⟨key, v', hv', by rw [hgate, howner]⟩

theorem SameShape.attempt (hs : s.Linked) (id : Ident) : (s.attempt id).SameShape s := by
  rw [Graph.attempt]
  cases hm : s.moved? id with
  | none => exact .refl s
  | some next => exact .of_moved? hs hm

theorem SameShape.play (hs : s.Linked) (moves : List Ident) : (s.play moves).SameShape s := by
  induction moves generalizing s with
  | nil => exact .refl s
  | cons id rest ih =>
    have hattempt := SameShape.attempt hs id
    exact (ih (hs.of_sameShape hattempt)).trans hattempt

theorem SameShape.mem_edges {s' : Graph} (h : s'.SameShape s) {id : Ident} :
    id ∈ s'.edges ↔ id ∈ s.edges := by
  rw [Std.ExtTreeMap.mem_iff_isSome_getElem?, Std.ExtTreeMap.mem_iff_isSome_getElem?,
    ← Option.isSome_map, h.edges, Option.isSome_map]

theorem HasCopy.settled (hc : g.HasCopy scope s) (hs : s.Whole) :
    g.settled.HasCopy scope s.settled where
  vertex := hc.vertex
  edge := hc.edge
  component id c' hc' := by
    obtain ⟨c, hcomponent⟩ : ∃ c, s.components[id]? = some c := by
      rw [Graph.settled, Pass.components_settle, Option.map_eq_some_iff] at hc'
      exact hc'.imp fun _ => And.left
    obtain ⟨position, hcopy⟩ := hc.component id c hcomponent
    have howns := hs.owns id c hcomponent
    have howns' : g.OwnsVertex (scope.join id) := by
      obtain ⟨key, v, hv, howner⟩ := howns
      obtain ⟨position', hv'⟩ := hc.vertex key v hv
      have hcopied : (v.within scope position').gate.owner? = some (scope.join id) := by
        rw [Vertex.within, Gate.owner?_within, howner, Option.map_some]
      exact ⟨_, _, hv', hcopied⟩
    obtain rfl : s.settledComponent c = c' :=
      Option.some.inj ((components_settled hcomponent howns).symm.trans hc')
    exact ⟨position, by
      rw [components_settled hcopy howns', hc.settledComponent hs hcomponent]⟩

theorem HasCopy.flip (hc : g.HasCopy scope s) (e : Edge) :
    (g.flip (e.within scope)).HasCopy scope (s.flip e) where
  vertex := hc.vertex
  edge id e' he' := by
    have hid : (e.within scope).id = scope.join id ↔ e.id = id :=
      (Ident.join_injective scope).eq_iff
    rw [getElem?_edges_flip] at he' ⊢
    split at he'
    · next heq =>
      rw [if_pos (hid.2 heq), ← Option.some.inj he']
      rfl
    · next hne => rw [if_neg fun heq => hne (hid.1 heq), hc.edge id e' he']
  component := hc.component

/-- A move of the copy is legal as in the graph itself, and to the same effect. -/
theorem HasCopy.attempt_join (hc : g.HasCopy scope s) (hs : s.Whole)
    (he : s.edges[id]? = some e) :
    (g.moved? (scope.join id)).isSome = (s.moved? id).isSome ∧
      (g.attempt (scope.join id)).HasCopy scope (s.attempt id) := by
  obtain rfl : e.id = id := (hs.edges id e he).1
  have hflip : (s.flip e).Whole :=
    hs.of_sameShape (SameShape.insert_edge he (Edge.shape_reverse e))
  have hcopy := hc.flip e
  have hreverse : (s.flip e).edges[e.id]? = some e.reverse := by
    rw [getElem?_edges_flip, if_pos rfl]
  have hends : (g.flip (e.within scope)).isEdgeSatisfied (e.reverse.within scope) =
      (s.flip e).isEdgeSatisfied e.reverse :=
    hcopy.isEdgeSatisfied hflip hreverse
  have hmoved : s.moved? e.id = s.move? e := by rw [Graph.moved?, he, Option.bind_some]
  have hmoved' : g.moved? (scope.join e.id) = g.move? (e.within scope) := by
    rw [Graph.moved?, hc.edge e.id e he, Option.bind_some]
  rw [Graph.attempt, Graph.attempt, hmoved, hmoved', Graph.move?, Graph.move?,
    Edge.circular_within, Edge.reverse_within, hends]
  split_ifs
  · exact ⟨rfl, hc⟩
  · exact ⟨rfl, (hcopy.settled hflip).touch_touch⟩
  · exact ⟨rfl, hc⟩

theorem HasCopy.run_tryReverse (hc : g.HasCopy scope s) (hs : s.Whole) (hid : id ∈ s.edges) :
    ∃ answer, (Edit.tryReverse (scope.join id)).run g = .ok answer (g.attempt (scope.join id)) ∧
      (Edit.tryReverse id).run s = .ok answer (s.attempt id) := by
  obtain ⟨e, he⟩ := Registry.mem_iff_exists.1 hid
  have hjoin : scope.join id ∈ g.edges := Registry.mem_of_getElem? (hc.edge id e he)
  rw [Edit.run_tryReverse, Edit.run_tryReverse, if_pos hid, if_pos hjoin,
    (hc.attempt_join hs he).1]
  exact ⟨_, rfl, rfl⟩

/-- A move elsewhere settles the latches of the copy too, and leaves it alone if they are. -/
theorem HasCopy.attempt_of_ne (hc : g.HasCopy scope s) (hs : s.Whole) (hsettled : s.IsSettled)
    (hg : g.Linked) (hne : ∀ inner ∈ s.edges, scope.join inner ≠ id) :
    (g.attempt id).HasCopy scope s := by
  rw [Graph.attempt]
  cases hm : g.moved? id with
  | none => exact hc
  | some next =>
    obtain ⟨e, he, -, -, rfl⟩ := moved?_eq_some_iff.1 hm
    have hflip : (g.flip e).HasCopy scope s := by
      refine ⟨hc.vertex, fun inner e' he' => ?_, hc.component⟩
      have hinner := hne inner (Registry.mem_of_getElem? he')
      rw [getElem?_edges_flip, (hg.edges id e he).1, if_neg (Ne.symm hinner)]
      exact hc.edge inner e' he'
    have hsame : s.settled = s := settle_fullPass_of_isSettled hsettled
    have hlast := hflip.settled hs
    rw [hsame] at hlast
    exact hlast.touch

/-! ## Plays -/

/-- Those of the moves that are made in the copy, as they are named in the graph itself. -/
def movesInside (s : Graph) (scope : Ident) (moves : List Ident) : List Ident :=
  moves.filterMap fun id => (scope.inside? id).filter (· ∈ s.edges)

/-- However the graph is played, the copy follows the moves that are made in it. -/
theorem HasCopy.play (hc : g.HasCopy scope s) (hs : s.Whole)
    (hsettled : ∀ moves : List Ident, (s.play moves).IsSettled) (hg : g.Linked)
    (moves : List Ident) :
    (g.play moves).HasCopy scope (s.play (s.movesInside scope moves)) := by
  induction moves using List.reverseRecOn with
  | nil => exact hc
  | append_singleton moves id ih =>
    have hshape := SameShape.play hs.toLinked (s.movesInside scope moves)
    have hwhole := hs.of_sameShape hshape
    rw [play_append, play_cons, play_nil, movesInside, List.filterMap_append, ← movesInside]
    cases hown : (scope.inside? id).filter (· ∈ s.edges) with
    -- the move is made elsewhere, and finds the latches of the copy as their gadgets ask for them
    | none =>
      have hne (inner : Ident)
          (hinner : inner ∈ (s.play (s.movesInside scope moves)).edges) :
          scope.join inner ≠ id := by
        intro heq
        rw [Ident.inside?_eq_some_iff.2 heq, Option.filter_some,
          decide_eq_true (hshape.mem_edges.1 hinner)] at hown
        cases hown
      have hkept := ih.attempt_of_ne hwhole (hsettled _)
        (hg.of_sameShape (SameShape.play hg moves)) hne
      simpa [hown] using hkept
    | some inner =>
      obtain ⟨hinside, hmem⟩ := Option.filter_eq_some_iff.1 hown
      obtain rfl := Ident.inside?_eq_some_iff.1 hinside
      obtain ⟨e, he⟩ :=
        Registry.mem_iff_exists.1 (hshape.mem_edges.2 (of_decide_eq_true hmem))
      have hboth := (ih.attempt_join hwhole he).2
      simpa [hown, play_append] using hboth

end Graph

end ConstraintLogic
