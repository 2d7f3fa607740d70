import OperatorChain.Graph.Contract

/-!
# What one contraction does to a graph

`Graph.contract` makes several small changes one after the other and may break off between any two
of them.  On a graph whose indices all lead somewhere it never does, and then the whole operation
is one of two things, which `contract_eq` states once and for all:

* the operator cannot be applied, and only the mark on its edge is new;
* the operator is applied, and the graph is `Graph.splice`: one node more, and the two edges beside
  the contracted one tied to it.

`getElem?_edges_splice` says what becomes of every single edge.  `InBounds` is the condition that
all indices lead somewhere, and `InBounds.contract` says that every contraction keeps it.
-/

namespace OperatorChain

/-- The edge stored at `index` after a contraction: tied to the new node `fresh` if the links of
that node name it, and marked if it is the one contracted. -/
def Edge.respliced (position fresh : Nat) (node : Node) (index : Nat) (edge : Edge) : Edge :=
  { edge with
    left := if node.right = some index then fresh else edge.left
    right := if node.left = some index then fresh else edge.right
    contracted := edge.contracted || index == position }

namespace Graph

/-- The graph after a contraction at `position` whose result is held by `node`. -/
def splice (g : Graph) (position : Nat) (node : Node) : Graph :=
  (((g.mark position).push node).tieRight node.left g.nodes.size).tieLeft node.right g.nodes.size

/-! ## Looking up nodes and edges -/

theorem getElem?_edges_mark (g : Graph) (position index : Nat) :
    (g.mark position).edges[index]? = g.edges[index]?.map fun edge =>
      { edge with contracted := edge.contracted || index == position } := by
  rw [mark, Array.getElem?_modify]
  by_cases h : position = index
  · rw [if_pos h]
    simp [h]
  · rw [if_neg h]
    have hne : (index == position) = false := by simpa using Ne.symm h
    simp [hne]

theorem getElem?_edges_tieRight (g : Graph) (edge? : Option Nat) (node index : Nat) :
    (g.tieRight edge? node).edges[index]? = g.edges[index]?.map fun edge =>
      { edge with right := if edge? = some index then node else edge.right } := by
  cases edge? with
  | none => simp [tieRight]
  | some position =>
    rw [tieRight, Array.getElem?_modify]
    by_cases h : position = index <;> simp [h]

theorem getElem?_edges_tieLeft (g : Graph) (edge? : Option Nat) (node index : Nat) :
    (g.tieLeft edge? node).edges[index]? = g.edges[index]?.map fun edge =>
      { edge with left := if edge? = some index then node else edge.left } := by
  cases edge? with
  | none => simp [tieLeft]
  | some position =>
    rw [tieLeft, Array.getElem?_modify]
    by_cases h : position = index <;> simp [h]

@[simp] theorem nodes_splice (g : Graph) (position : Nat) (node : Node) :
    (g.splice position node).nodes = g.nodes.push node := by
  simp [splice, push]

@[simp] theorem size_edges_splice (g : Graph) (position : Nat) (node : Node) :
    (g.splice position node).edges.size = g.edges.size := by
  simp [splice]

/-- What becomes of the edge at any index. -/
theorem getElem?_edges_splice (g : Graph) (position : Nat) (node : Node) (index : Nat) :
    (g.splice position node).edges[index]? =
      g.edges[index]?.map (Edge.respliced position g.nodes.size node index) := by
  rw [splice, getElem?_edges_tieLeft, getElem?_edges_tieRight, edges_push, getElem?_edges_mark]
  cases g.edges[index]? <;> rfl

/-! ## What a contraction that succeeds tells -/

theorem replaceOperands_ok {g g' : Graph} {node : Node} {told step : Step}
    (h : g.replaceOperands node told = (.ok step, g')) :
    told = step ∧ g'.nodes = g.nodes.push node := by
  unfold replaceOperands at h
  dsimp only at h
  split at h
  · split at h
    · cases h
      exact ⟨rfl, by simp [push]⟩
    · cases h
  · cases h

/-- On any graph, a contraction that succeeds tells its position, and appends the node with its
result. -/
theorem contract_ok {g g' : Graph} {position : Nat} {step : Step}
    (h : g.contract position = (.ok step, g')) :
    step.position = position ∧
      ∃ left right, g'.nodes = g.nodes.push ⟨step.result, left, right⟩ := by
  unfold contract at h
  dsimp only at h
  split at h
  · cases h
  · split at h
    · split at h
      · cases h
      · obtain ⟨rfl, hnodes⟩ := replaceOperands_ok h
        exact ⟨rfl, _, _, hnodes⟩
    · cases h

/-! ## Graphs whose indices lead somewhere -/

/-- Every index that an edge or a node holds leads to something stored. -/
structure InBounds (g : Graph) : Prop where
  left_lt : ∀ {index : Nat} {edge : Edge}, g.edges[index]? = some edge → edge.left < g.nodes.size
  right_lt : ∀ {index : Nat} {edge : Edge}, g.edges[index]? = some edge → edge.right < g.nodes.size
  before_lt : ∀ {index neighbour : Nat} {node : Node},
    g.nodes[index]? = some node → node.left = some neighbour → neighbour < g.edges.size
  after_lt : ∀ {index neighbour : Nat} {node : Node},
    g.nodes[index]? = some node → node.right = some neighbour → neighbour < g.edges.size

theorem hasNeighbour_of_lt {g : Graph} {edge? : Option Nat}
    (h : ∀ neighbour, edge? = some neighbour → neighbour < g.edges.size) :
    g.hasNeighbour edge? = true := by
  cases edge? with
  | none => rfl
  | some neighbour => exact decide_eq_true (h neighbour rfl)

/-- Where both neighbours exist, the operands give way to the new node without a fault. -/
theorem replaceOperands_mark (g : Graph) (position : Nat) (node : Node) (step : Step)
    (hleft : ∀ neighbour, node.left = some neighbour → neighbour < g.edges.size)
    (hright : ∀ neighbour, node.right = some neighbour → neighbour < g.edges.size) :
    (g.mark position).replaceOperands node step = (.ok step, g.splice position node) := by
  have hl : ((g.mark position).push node).hasNeighbour node.left = true :=
    hasNeighbour_of_lt (by simpa using hleft)
  have hr : (((g.mark position).push node).tieRight node.left g.nodes.size).hasNeighbour
      node.right = true :=
    hasNeighbour_of_lt (by simpa using hright)
  simp [replaceOperands, hl, hr, splice]

/-- **What a contraction is.**  On a graph in bounds, a stored edge has two stored operands; either
its operator fails on them and only the mark is new, or the result is spliced in. -/
theorem InBounds.contract_eq {g : Graph} (h : g.InBounds) {position : Nat} {edge : Edge}
    (hedge : g.edges[position]? = some edge) :
    ∃ left right : Node,
      g.nodes[edge.left]? = some left ∧ g.nodes[edge.right]? = some right ∧
      g.contract position =
        match edge.operator.apply left.value right.value position with
        | .error error => (.error error, g.mark position)
        | .ok result =>
          (.ok ⟨position, edge.operator, left.value, right.value, result⟩,
            g.splice position ⟨result, left.left, right.right⟩) := by
  obtain ⟨left, hl⟩ : ∃ left, g.nodes[edge.left]? = some left :=
    ⟨_, Array.getElem?_eq_getElem (h.left_lt hedge)⟩
  obtain ⟨right, hr⟩ : ∃ right, g.nodes[edge.right]? = some right :=
    ⟨_, Array.getElem?_eq_getElem (h.right_lt hedge)⟩
  refine ⟨left, right, hl, hr, ?_⟩
  have hmarked : (g.mark position).edges[position]? = some { edge with contracted := true } := by
    rw [getElem?_edges_mark, hedge]
    simp
  rw [contract, hmarked]
  simp only [nodes_mark, hl, hr]
  cases edge.operator.apply left.value right.value position with
  | error error => rfl
  | ok result =>
    exact replaceOperands_mark g position ⟨result, left.left, right.right⟩ _
      (fun _ hn => h.before_lt hl hn) (fun _ hn => h.after_lt hr hn)

theorem InBounds.mark {g : Graph} (h : g.InBounds) (position : Nat) :
    (g.mark position).InBounds := by
  have hedge : ∀ {index : Nat} {edge : Edge}, (g.mark position).edges[index]? = some edge →
      ∃ old, g.edges[index]? = some old ∧ edge.left = old.left ∧ edge.right = old.right := by
    intro index edge he
    rw [getElem?_edges_mark] at he
    obtain ⟨old, hold, rfl⟩ := Option.map_eq_some_iff.1 he
    exact ⟨old, hold, rfl, rfl⟩
  constructor
  · intro index edge he
    obtain ⟨old, hold, hl, -⟩ := hedge he
    rw [hl, nodes_mark]
    exact h.left_lt hold
  · intro index edge he
    obtain ⟨old, hold, -, hr⟩ := hedge he
    rw [hr, nodes_mark]
    exact h.right_lt hold
  · intro index neighbour node hn hl
    rw [size_edges_mark]
    exact h.before_lt hn hl
  · intro index neighbour node hn hr
    rw [size_edges_mark]
    exact h.after_lt hn hr

theorem InBounds.splice {g : Graph} (h : g.InBounds) (position : Nat) {node : Node}
    (hleft : ∀ neighbour, node.left = some neighbour → neighbour < g.edges.size)
    (hright : ∀ neighbour, node.right = some neighbour → neighbour < g.edges.size) :
    (g.splice position node).InBounds := by
  have hedge : ∀ {index : Nat} {edge : Edge}, (g.splice position node).edges[index]? = some edge →
      edge.left < g.nodes.size + 1 ∧ edge.right < g.nodes.size + 1 := by
    intro index edge he
    rw [getElem?_edges_splice] at he
    obtain ⟨old, hold, rfl⟩ := Option.map_eq_some_iff.1 he
    have hl := h.left_lt hold
    have hr := h.right_lt hold
    constructor
    · simp only [Edge.respliced]
      split <;> omega
    · simp only [Edge.respliced]
      split <;> omega
  have hnode : ∀ {index : Nat} {stored : Node}, (g.splice position node).nodes[index]? =
      some stored → g.nodes[index]? = some stored ∨ stored = node := by
    intro index stored hs
    rw [nodes_splice, Array.getElem?_push] at hs
    split at hs
    · exact Or.inr (Option.some.inj hs).symm
    · exact Or.inl hs
  constructor
  · intro index edge he
    simpa using (hedge he).1
  · intro index edge he
    simpa using (hedge he).2
  · intro index neighbour stored hs hl
    rw [size_edges_splice]
    rcases hnode hs with hold | rfl
    · exact h.before_lt hold hl
    · exact hleft neighbour hl
  · intro index neighbour stored hs hr
    rw [size_edges_splice]
    rcases hnode hs with hold | rfl
    · exact h.after_lt hold hr
    · exact hright neighbour hr

/-- **Contractions stay in bounds.**  Contracting a stored edge, with success or without, never
meets an index that leads nowhere and leaves none behind. -/
theorem InBounds.contract {g : Graph} (h : g.InBounds) {position : Nat}
    (hlt : position < g.edges.size) :
    (g.contract position).1 ≠ .error .danglingIndex ∧ (g.contract position).2.InBounds ∧
      (g.contract position).2.edges.size = g.edges.size := by
  obtain ⟨left, right, hl, hr, heq⟩ := h.contract_eq (Array.getElem?_eq_getElem hlt)
  rw [heq]
  cases happly : Operator.apply _ left.value right.value position with
  | error error =>
    refine ⟨?_, h.mark position, size_edges_mark g position⟩
    intro hcontra
    cases hcontra
    exact Operator.apply_ne_danglingIndex _ _ _ _ happly
  | ok result =>
    exact ⟨by simp, h.splice position (fun _ hn => h.before_lt hl hn)
      (fun _ hn => h.after_lt hr hn), size_edges_splice g position _⟩

end Graph

end OperatorChain
