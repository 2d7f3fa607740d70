import Mathlib.Logic.Equiv.Basic
import OperatorChain.Proofs.AnyOrder

/-!
# Contractions that commute

Two pending edges that share no node can be contracted in either order.  Neither contraction changes
what the other one reads: the edge itself, and the two nodes that it names.  What they write may
meet in one edge, the one that is left between them, but there one of them writes the left end and
the other one the right end.  So the outcomes are the same, and so are the graphs, except that the
two new nodes are stored in the order in which they came.

* `Graph.exchange` — the graph with two nodes exchanged.
* `Graph.Redex` — an edge with its two operands: all that a contraction depends on.
* `Redex.mark`, `Redex.splice` — another contraction leaves it as it is.
* `mark_comm`, `splice_mark_comm`, `splice_splice_eq_exchange` — what the contractions write.
* `Graph.contractAll_comm` — contractions of edges that share no node commute.
-/

namespace OperatorChain

/-- The edges have no node in common. -/
def Edge.Disjoint (x y : Edge) : Prop :=
  x.left ≠ y.left ∧ x.left ≠ y.right ∧ x.right ≠ y.left ∧ x.right ≠ y.right

/-- The edge once the nodes at `a` and `b` are exchanged. -/
def Edge.exchange (a b : Nat) (edge : Edge) : Edge :=
  { edge with left := Equiv.swap a b edge.left, right := Equiv.swap a b edge.right }

namespace Graph

/-- The graph with the nodes at `a` and `b` exchanged. -/
def exchange (g : Graph) (a b : Nat) : Graph :=
  ⟨g.nodes.swapIfInBounds a b, g.edges.map (Edge.exchange a b)⟩

/-! ## What contractions read -/

/-- An edge with its two operands. -/
structure Redex (g : Graph) (position : Nat) (edge : Edge) (left right : Node) : Prop where
  edge_eq : g.edges[position]? = some edge
  left_eq : g.nodes[edge.left]? = some left
  right_eq : g.nodes[edge.right]? = some right

section Redex

variable {g : Graph} {position other : Nat} {edge : Edge} {left right : Node}

/-- What a contraction answers and what it changes. -/
theorem Redex.contract_eq (h : g.Redex position edge left right) (hbounds : g.InBounds) :
    g.contract position =
      match edge.operator.apply left.value right.value position with
      | .error error => (.error error, g.mark position)
      | .ok result =>
        (.ok ⟨position, edge.operator, left.value, right.value, result⟩,
          g.splice position ⟨result, left.left, right.right⟩) := by
  obtain ⟨left', right', hleft, hright, heq⟩ := hbounds.contract_eq h.edge_eq
  cases h.left_eq.symm.trans hleft
  cases h.right_eq.symm.trans hright
  exact heq

/-- A mark elsewhere changes nothing about an edge and its operands. -/
theorem Redex.mark (h : g.Redex position edge left right) (hne : position ≠ other) :
    (g.mark other).Redex position edge left right := by
  refine ⟨?_, h.left_eq, h.right_eq⟩
  have hmark : (position == other) = false := by simpa using hne
  rw [getElem?_edges_mark, h.edge_eq, Option.map_some, hmark, Bool.or_false]

/-- Nor does a new node that is not tied to the edge. -/
theorem Redex.splice (h : g.Redex position edge left right) (hne : position ≠ other) {node : Node}
    (hleft : node.right ≠ some position) (hright : node.left ≠ some position) :
    (g.splice other node).Redex position edge left right := by
  have hold : ∀ {index : Nat} {stored : Node}, g.nodes[index]? = some stored →
      (g.splice other node).nodes[index]? = some stored := by
    intro index stored hnode
    have hlt := (Array.getElem?_eq_some_iff.1 hnode).1
    rw [nodes_splice, Array.getElem?_push, if_neg (by omega), hnode]
  refine ⟨?_, hold h.left_eq, hold h.right_eq⟩
  have hmark : (position == other) = false := by simpa using hne
  rw [getElem?_edges_splice, h.edge_eq, Option.map_some, Edge.respliced, if_neg hleft,
    if_neg hright, hmark, Bool.or_false]

end Redex

/-! ## What contractions write -/

theorem ext_of_getElem? {g g' : Graph} (hnodes : g.nodes = g'.nodes)
    (hedges : ∀ index : Nat, g.edges[index]? = g'.edges[index]?) : g = g' := by
  obtain ⟨nodes, edges⟩ := g
  obtain ⟨nodes', edges'⟩ := g'
  cases hnodes
  cases Array.ext_getElem? hedges
  rfl

theorem mark_comm (g : Graph) (p q : Nat) : (g.mark p).mark q = (g.mark q).mark p := by
  refine ext_of_getElem? rfl fun index => ?_
  simp only [getElem?_edges_mark, Option.map_map]
  congr 1
  funext edge
  simp only [Function.comp_apply, Bool.or_right_comm]

theorem splice_mark_comm (g : Graph) (p q : Nat) (node : Node) :
    (g.mark p).splice q node = (g.splice q node).mark p := by
  refine ext_of_getElem? (by simp) fun index => ?_
  simp only [getElem?_edges_mark, getElem?_edges_splice, Option.map_map, nodes_mark]
  congr 1
  funext edge
  simp only [Function.comp_apply, Edge.respliced, Bool.or_right_comm]

/-- What was stored first is stored last. -/
theorem push_push_eq_swapIfInBounds {α : Type} (xs : Array α) (a b : α) :
    (xs.push a).push b = ((xs.push b).push a).swapIfInBounds xs.size (xs.size + 1) := by
  have hsize : ((xs.push b).push a).size = xs.size + 2 := by simp only [Array.size_push]
  have hfirst : xs.size < ((xs.push b).push a).size := by omega
  have hlast : xs.size + 1 < ((xs.push b).push a).size := by omega
  rw [Array.swapIfInBounds, dif_pos hfirst, dif_pos hlast]
  refine Array.ext_getElem? fun i => ?_
  rw [Array.getElem?_swap]
  simp only [Array.getElem?_push, Array.getElem_push, Array.size_push]
  grind

/-- An end of an edge that is tied to one of two new nodes, the one stored first being `n`. -/
theorem ite_eq_swap {tied tied' : Prop} [Decidable tied] [Decidable tied'] (hnot : tied → ¬ tied')
    {n k : Nat} (hk : k < n) :
    (if tied' then n + 1 else if tied then n else k) =
      Equiv.swap n (n + 1) (if tied then n + 1 else if tied' then n else k) := by
  by_cases h : tied
  · rw [if_neg (hnot h), if_pos h, if_pos h, Equiv.swap_apply_right]
  · rw [if_neg h, if_neg h]
    split
    · rw [Equiv.swap_apply_left]
    · rw [Equiv.swap_apply_of_ne_of_ne (by omega) (by omega)]

/-- Two nodes that are not tied to the same end of an edge are tied to the same ends in whichever
order they come. -/
theorem splice_splice_eq_exchange {g : Graph} (hbounds : g.InBounds) (p q : Nat) {node node' : Node}
    (hleft : ∀ index, node.left = some index → node'.left ≠ some index)
    (hright : ∀ index, node.right = some index → node'.right ≠ some index) :
    (g.splice p node).splice q node' =
      ((g.splice q node').splice p node).exchange g.nodes.size (g.nodes.size + 1) := by
  refine ext_of_getElem? ?_ fun index => ?_
  · simp only [exchange, nodes_splice]
    exact push_push_eq_swapIfInBounds g.nodes node node'
  · rw [exchange, Array.getElem?_map]
    simp only [getElem?_edges_splice, nodes_splice, Array.size_push]
    cases hedge : g.edges[index]? with
    | none => rfl
    | some edge =>
      simp only [Option.map_some, Edge.respliced, Edge.exchange, Bool.or_right_comm,
        ite_eq_swap (hright index) (hbounds.left_lt hedge),
        ite_eq_swap (hleft index) (hbounds.right_lt hedge)]

/-! ## Contractions in either order -/

/-- The contractions at `p` and `q` have the same outcomes in either order, and leave the same
graph.  Only if both succeed, the two new nodes are stored in the order in which they come. -/
def Commute (g : Graph) (p q : Nat) : Prop :=
  ∃ outcome outcome' : Except ContractionError Step,
    (g.contractAll [p, q]).1 = [outcome, outcome'] ∧
    (g.contractAll [q, p]).1 = [outcome', outcome] ∧
    (g.contractAll [p, q]).2 =
      match outcome, outcome' with
      | .ok _, .ok _ => (g.contractAll [q, p]).2.exchange g.nodes.size (g.nodes.size + 1)
      | _, _ => (g.contractAll [q, p]).2

theorem contractAll_pair (g : Graph) (p q : Nat) :
    g.contractAll [p, q] =
      ([(g.contract p).1, ((g.contract p).2.contract q).1], ((g.contract p).2.contract q).2) := rfl

section Apart

variable {g : Graph} {p q : Nat} {x y : Edge} {left right left' right' : Node}

/-- **An edge and its operands outlast the contraction of another edge**, whatever its outcome, if
the edge is not beside the stretch that it makes. -/
theorem Redex.contract (hx : g.Redex p x left right) (hy : g.Redex q y left' right')
    (hbounds : g.InBounds) (hne : p ≠ q) (hleft : left'.left ≠ some p)
    (hright : right'.right ≠ some p) : (g.contract q).2.Redex p x left right := by
  rw [hy.contract_eq hbounds]
  cases y.operator.apply left'.value right'.value q with
  | error error => exact hx.mark hne
  | ok result => exact hx.splice hne hright hleft

/-- Contractions commute if neither edge is beside the stretch that the other one makes, and no edge
is beside both of these stretches on the same side. -/
theorem Redex.commute (hx : g.Redex p x left right) (hy : g.Redex q y left' right')
    (hbounds : g.InBounds) (hne : p ≠ q)
    (hleft : left'.left ≠ some p) (hright : right'.right ≠ some p)
    (hleft' : left.left ≠ some q) (hright' : right.right ≠ some q)
    (hbefore : ∀ index, left.left = some index → left'.left ≠ some index)
    (hafter : ∀ index, right.right = some index → right'.right ≠ some index) : g.Commute p q := by
  have hp := hx.contract_eq hbounds
  have hq := hy.contract_eq hbounds
  have hqp := (hx.contract hy hbounds hne hleft hright).contract_eq
    (hbounds.contract (Array.getElem?_eq_some_iff.1 hy.edge_eq).1).2.1
  have hpq := (hy.contract hx hbounds hne.symm hleft' hright').contract_eq
    (hbounds.contract (Array.getElem?_eq_some_iff.1 hx.edge_eq).1).2.1
  refine ⟨(g.contract p).1, (g.contract q).1, ?_⟩
  rw [contractAll_pair, contractAll_pair, hpq, hqp, hp, hq]
  cases x.operator.apply left.value right.value p with
  | error error =>
    cases y.operator.apply left'.value right'.value q with
    | error error' => exact ⟨rfl, rfl, mark_comm g p q⟩
    | ok result' => exact ⟨rfl, rfl, splice_mark_comm g p q _⟩
  | ok result =>
    cases y.operator.apply left'.value right'.value q with
    | error error' => exact ⟨rfl, rfl, (splice_mark_comm g q p _).symm⟩
    | ok result' => exact ⟨rfl, rfl, splice_splice_eq_exchange hbounds p q hbefore hafter⟩

end Apart

/-- **Edges that share no node are contracted in either order**, in whatever graph contractions have
left. -/
theorem Represents.commute {g : Graph} {operator : Nat → Operator} {done : List Nat}
    {holder : Nat → Nat} (h : g.Represents operator done holder) {p q : Nat} {x y : Edge}
    (hx : g.edges[p]? = some x) (hp : p ∉ done) (hy : g.edges[q]? = some y) (hq : q ∉ done)
    (hdisjoint : x.Disjoint y) : g.Commute p q := by
  have hltp := (Array.getElem?_eq_some_iff.1 hx).1
  have hltq := (Array.getElem?_eq_some_iff.1 hy).1
  -- the stretches on the left and on the right of each operator
  have hleft := stretch_of_not_mem hltp hp
  have hleft' := stretch_of_not_mem hltq hq
  obtain ⟨high, hright⟩ := exists_stretch_succ hltp hp
  obtain ⟨high', hright'⟩ := exists_stretch_succ hltq hq
  generalize stretchStart done p = low at hleft
  generalize stretchStart done q = low' at hleft'
  cases hx.symm.trans (h.edge hleft hltp)
  cases hy.symm.trans (h.edge hleft' hltq)
  obtain ⟨hll, hlr, hrl, hrr⟩ := hdisjoint
  have hredex : g.Redex p _ _ _ :=
    ⟨hx, h.getElem?_nodes_holder hleft, h.getElem?_nodes_holder hright⟩
  have hredex' : g.Redex q _ _ _ :=
    ⟨hy, h.getElem?_nodes_holder hleft', h.getElem?_nodes_holder hright'⟩
  -- where two stretches begin or end alike, they are the same and held by the same node
  refine hredex.commute hredex' h.inBounds ?_ ?_ ?_ ?_ ?_ ?_ ?_
  · rintro rfl
    exact hrr rfl
  · intro hbefore
    rw [operatorBefore_eq_some_iff.1 hbefore] at hrl
    exact hrl rfl
  · intro hafter
    obtain ⟨rfl, -⟩ := operatorAfter_eq_some_iff.1 hafter
    rw [hleft.eq_of_high hright'] at hlr
    exact hlr rfl
  · intro hbefore
    rw [operatorBefore_eq_some_iff.1 hbefore] at hlr
    exact hlr rfl
  · intro hafter
    obtain ⟨rfl, -⟩ := operatorAfter_eq_some_iff.1 hafter
    rw [hleft'.eq_of_high hright] at hrl
    exact hrl rfl
  · intro index hbefore hbefore'
    rw [operatorBefore_injective (hbefore.trans hbefore'.symm)] at hll
    exact hll rfl
  · intro index hafter hafter'
    obtain ⟨rfl, -⟩ := operatorAfter_eq_some_iff.1 hafter
    obtain ⟨rfl, -⟩ := operatorAfter_eq_some_iff.1 hafter'
    rw [hright.eq_of_high hright'] at hrr
    exact hrr rfl

/-- **Contractions of edges that share no node commute.**  Take the graph of any text, after
contractions at any different positions that have all succeeded, and in it two pending edges that
share no node.  In either order the two contractions have the same outcomes, be they steps or
errors, and leave the same graph, up to an exchange of the two new nodes if both succeed. -/
theorem contractAll_comm {text : List Char} {start g : Graph} (hstart : ofText text = .ok start)
    {order : List Nat} (hdistinct : order.Nodup)
    (hlt : ∀ position ∈ order, position < start.edges.size)
    (hok : ∀ outcome ∈ (start.contractAll order).1, ∃ step, outcome = .ok step)
    (hg : (start.contractAll order).2 = g) {p q : Nat} {x y : Edge} (hx : g.edges[p]? = some x)
    (hp : x.contracted = false) (hy : g.edges[q]? = some y) (hq : y.contracted = false)
    (hdisjoint : x.Disjoint y) : g.Commute p q := by
  obtain ⟨c, -, rfl⟩ := ofText_eq_ok_iff.1 hstart
  obtain ⟨holder, hfollows⟩ :=
    (follows_layout c).contractAll hdistinct hlt (fun _ _ => List.not_mem_nil) hok
  rw [hg] at hfollows
  have hrep := hfollows.represents
  exact hrep.commute hx (hrep.pending_iff.1 ⟨x, hx, hp⟩).2 hy (hrep.pending_iff.1 ⟨y, hy, hq⟩).2
    hdisjoint

/-- Two products commute on the two sides of a sum, of which each of them moves one end. -/
theorem contractAll_comm_products :
    ∃ start g, ofText "1 * 2 + 3 * 4 - 5".toList = .ok start ∧
      start.contractAll [3] = ([.ok ⟨3, .subtract, 4, 5, -1⟩], g) ∧
      g.edges = #[⟨.multiply, 0, 0, 1, false⟩, ⟨.add, 1, 1, 2, false⟩, ⟨.multiply, 2, 2, 5, false⟩,
        ⟨.subtract, 3, 3, 4, true⟩] ∧
      g.Commute 0 2 ∧
      (g.contractAll [0, 2]).1 = [.ok ⟨0, .multiply, 1, 2, 2⟩, .ok ⟨2, .multiply, 3, -1, -3⟩] ∧
      (g.contractAll [2, 0]).1 = [.ok ⟨2, .multiply, 3, -1, -3⟩, .ok ⟨0, .multiply, 1, 2, 2⟩] := by
  have hstart : ofText "1 * 2 + 3 * 4 - 5".toList =
      .ok (layout (((((Chain.single 1).snoc 0 .multiply 2).snoc 1 .add 3).snoc 2 .multiply 4).snoc
        3 .subtract 5) true) := rfl
  have hok : ∀ outcome ∈ [Except.ok (Step.mk 3 .subtract 4 5 (-1))],
      ∃ step, (outcome : Except ContractionError Step) = .ok step := by
    simp
  refine ⟨_, _, hstart, rfl, rfl, ?_, rfl, rfl⟩
  exact contractAll_comm hstart (List.nodup_singleton 3) (by decide) hok rfl rfl rfl rfl rfl
    ⟨by decide, by decide, by decide, by decide⟩

end Graph

end OperatorChain
