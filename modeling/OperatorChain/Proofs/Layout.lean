import OperatorChain.Proofs.Chain
import OperatorChain.Proofs.Represents

/-!
# The graph of an expression before any contraction

A chain of values, laid out from left to right by the two ways in which a graph can grow.  Node `i`
holds literal `i` and is tied to the operators on its two sides; edge `q` is operator `q` between
the nodes `q` and `q + 1`.

* `Graph.layout` — the graph of a chain.
* `getElem?_nodes_layout`, `getElem?_edges_layout` — every node and every edge of it.
* `represents_layout` — it represents its chain with nothing done, each literal a stretch.
* `stretchChain_layout` — the chain of those stretches is the chain that was laid out.
-/

namespace OperatorChain

/-- A numbered chain is the chain of its own operands, each a stretch of its own. -/
theorem stretchChain_eq_of_numbered {α : Type} {holder : Nat → α} {operator : Nat → Operator}
    {c : Chain α} (hnum : c.Numbered) (hholder : ∀ i a, c.operands[i]? = some a → holder i = a)
    (hoperator : ∀ q op, c.operators[q]? = some op → operator q = op) :
    stretchChain holder operator [] c.size = c := by
  induction c with
  | single a =>
    simp [Chain.size, stretchChain, hholder 0 a rfl]
  | snoc front position op a ih =>
    obtain ⟨hfront, rfl⟩ := hnum
    have hrest := ih hfront
      (fun i b hb => hholder i b (by
        rw [Chain.operands, List.getElem?_append_left (List.getElem?_eq_some_iff.1 hb).1, hb]))
      (fun q op' hop => hoperator q op' (by
        rw [Chain.operators, List.getElem?_append_left (List.getElem?_eq_some_iff.1 hop).1, hop]))
    have ha := hholder (front.size + 1) a (by
      rw [Chain.operands, List.getElem?_append_right (by rw [Chain.length_operands])]
      simp [Chain.length_operands])
    have hop := hoperator front.size op (by
      rw [Chain.operators, List.getElem?_append_right (by rw [Chain.length_operators])]
      simp [Chain.length_operators])
    simp [Chain.size, stretchChain, List.not_mem_nil, hrest, ha, hop]

namespace Graph

/-- A chain laid out as a graph.  The last value is tied to an operator on its right unless it is
the last one of the expression. -/
def layout : Chain Int → (isLast : Bool) → Graph
  | .single value, isLast => empty.appendValue value isLast
  | .snoc front _ operator value, isLast =>
    ((layout front false).appendOperator operator).appendValue value isLast

/-- The operator at an index. -/
def operatorAt (g : Graph) (index : Nat) : Operator :=
  match g.edges[index]? with
  | some edge => edge.operator
  | none => default

/-! ## Nodes and edges -/

@[simp] theorem size_edges_layout (c : Chain Int) (isLast : Bool) :
    (layout c isLast).edges.size = c.size := by
  induction c generalizing isLast with
  | single => rfl
  | snoc front position operator value ih => simp [layout, ih, Chain.size]

@[simp] theorem size_nodes_layout (c : Chain Int) (isLast : Bool) :
    (layout c isLast).nodes.size = c.size + 1 := by
  induction c generalizing isLast with
  | single => rfl
  | snoc front position operator value ih => simp [layout, ih, Chain.size]

/-- The values stored are the operands. -/
theorem map_value_nodes_layout (c : Chain Int) (isLast : Bool) :
    (layout c isLast).nodes.toList.map Node.value = c.operands := by
  induction c generalizing isLast with
  | single => rfl
  | snoc front position operator value ih =>
    simp [layout, appendValue, appendOperator, Chain.operands, ← ih false]

/-- The operators stored are those of the chain. -/
theorem map_operator_edges_layout (c : Chain Int) (isLast : Bool) :
    (layout c isLast).edges.toList.map Edge.operator = c.operators := by
  induction c generalizing isLast with
  | single => rfl
  | snoc front position operator value ih =>
    simp [layout, appendValue, appendOperator, Chain.operators, ← ih false]

/-- Every node of a layout. -/
theorem getElem?_nodes_layout (c : Chain Int) (isLast : Bool) (i : Nat) :
    (layout c isLast).nodes[i]? = c.operands[i]?.map fun value =>
      ⟨value, operatorBefore i, if isLast then operatorAfter c.size i else some i⟩ := by
  induction c generalizing isLast i with
  | single value =>
    cases i with
    | zero => cases isLast <;> rfl
    | succ i => simp [layout, appendValue, empty, Chain.operands]
  | snoc front position operator value ih =>
    rw [layout, appendValue]
    simp only [nodes_appendOperator, size_edges_appendOperator, size_edges_layout]
    rw [Array.getElem?_push, size_nodes_layout]
    by_cases hi : i = front.size + 1
    · subst hi
      rw [if_pos rfl, Chain.operands, List.getElem?_append_right (by rw [Chain.length_operands])]
      cases isLast <;> simp [Chain.length_operands, Chain.size, operatorBefore]
    · rw [if_neg hi, ih]
      by_cases hlt : i < front.size + 1
      · rw [Chain.operands, List.getElem?_append_left (by rwa [Chain.length_operands])]
        have hafter : operatorAfter (front.size + 1) i = some i := operatorAfter_of_lt hlt
        cases isLast <;> simp [Chain.size, hafter]
      · have hnone : front.operands[i]? = none :=
          List.getElem?_eq_none (by rw [Chain.length_operands]; omega)
        have hnone' : (front.operands ++ [value])[i]? = none :=
          List.getElem?_eq_none (by simp [Chain.length_operands]; omega)
        rw [Chain.operands, hnone, hnone']
        rfl

/-- Every edge of a layout. -/
theorem getElem?_edges_layout (c : Chain Int) (isLast : Bool) (q : Nat) :
    (layout c isLast).edges[q]? = c.operators[q]?.map fun operator =>
      ⟨operator, q, q, q + 1, false⟩ := by
  induction c generalizing isLast with
  | single value => simp [layout, appendValue, empty, Chain.operators]
  | snoc front position operator value ih =>
    rw [layout, edges_appendValue, appendOperator]
    simp only [size_edges_layout]
    rw [Array.getElem?_push, size_edges_layout]
    by_cases hq : q = front.size
    · subst hq
      rw [if_pos rfl, Chain.operators, List.getElem?_append_right (by rw [Chain.length_operators])]
      simp [Chain.length_operators]
    · rw [if_neg hq, ih]
      by_cases hlt : q < front.size
      · rw [Chain.operators, List.getElem?_append_left (by rwa [Chain.length_operators])]
      · have hnone : front.operators[q]? = none :=
          List.getElem?_eq_none (by rw [Chain.length_operators]; omega)
        have hnone' : (front.operators ++ [operator])[q]? = none :=
          List.getElem?_eq_none (by simp [Chain.length_operators]; omega)
        simp [Chain.operators, hnone, hnone']

theorem operatorAt_layout {c : Chain Int} {isLast : Bool} {q : Nat} {op : Operator}
    (h : c.operators[q]? = some op) : (layout c isLast).operatorAt q = op := by
  rw [operatorAt, getElem?_edges_layout, h]
  rfl

/-- Nothing in a layout is contracted. -/
theorem contracted_eq_false_of_mem_layout {c : Chain Int} {isLast : Bool} {edge : Edge}
    (h : edge ∈ (layout c isLast).edges.toList) : edge.contracted = false := by
  obtain ⟨q, hedge⟩ := List.mem_iff_getElem?.1 h
  rw [Array.getElem?_toList, getElem?_edges_layout] at hedge
  obtain ⟨operator, -, rfl⟩ := Option.map_eq_some_iff.1 hedge
  rfl

theorem valueAt_layout {c : Chain Int} {isLast : Bool} {i : Nat} {value : Int}
    (h : c.operands[i]? = some value) : (layout c isLast).valueAt i = value := by
  rw [valueAt, getElem?_nodes_layout, h]
  rfl

/-! ## The invariant at the start -/

theorem exists_getElem?_nodes_layout {c : Chain Int} {i : Nat} (h : i ≤ c.size) :
    ∃ value, (layout c true).nodes[i]? =
      some ⟨value, operatorBefore i, operatorAfter c.size i⟩ := by
  have hlt : i < c.operands.length := by
    rw [Chain.length_operands]
    omega
  refine ⟨c.operands[i], ?_⟩
  rw [getElem?_nodes_layout, List.getElem?_eq_getElem hlt]
  rfl

theorem getElem?_edges_layout_of_lt {c : Chain Int} {q : Nat} (h : q < c.size) :
    (layout c true).edges[q]? = some ⟨(layout c true).operatorAt q, q, q, q + 1, false⟩ := by
  have hlt : q < c.operators.length := by rwa [Chain.length_operators]
  have hop := List.getElem?_eq_getElem hlt
  rw [getElem?_edges_layout, operatorAt_layout hop, hop]
  rfl

theorem inBounds_layout (c : Chain Int) : (layout c true).InBounds := by
  have hedge : ∀ {q : Nat} {edge : Edge}, (layout c true).edges[q]? = some edge →
      edge.left = q ∧ edge.right = q + 1 ∧ q < c.size := by
    intro q edge h
    rw [getElem?_edges_layout] at h
    obtain ⟨op, hop, rfl⟩ := Option.map_eq_some_iff.1 h
    have hlt := (List.getElem?_eq_some_iff.1 hop).1
    rw [Chain.length_operators] at hlt
    exact ⟨rfl, rfl, hlt⟩
  have hnode : ∀ {i : Nat} {node : Node}, (layout c true).nodes[i]? = some node →
      node.left = operatorBefore i ∧ node.right = operatorAfter c.size i ∧ i < c.size + 1 := by
    intro i node h
    have hlt := (Array.getElem?_eq_some_iff.1 h).1
    rw [size_nodes_layout] at hlt
    rw [getElem?_nodes_layout] at h
    obtain ⟨value, -, rfl⟩ := Option.map_eq_some_iff.1 h
    exact ⟨rfl, rfl, hlt⟩
  constructor
  · intro q edge h
    obtain ⟨hl, -, hlt⟩ := hedge h
    rw [hl, size_nodes_layout]
    omega
  · intro q edge h
    obtain ⟨-, hr, hlt⟩ := hedge h
    rw [hr, size_nodes_layout]
    omega
  · intro i neighbour node h hleft
    obtain ⟨hl, -, hlt⟩ := hnode h
    have := operatorBefore_eq_some_iff.1 (hl.symm.trans hleft)
    rw [size_edges_layout]
    omega
  · intro i neighbour node h hright
    obtain ⟨-, hr, -⟩ := hnode h
    rw [size_edges_layout]
    exact (operatorAfter_eq_some_iff.1 (hr.symm.trans hright)).2

/-- **The invariant at the start.**  A layout represents its chain with nothing done: each literal
is a stretch of its own, held by the node of the same index. -/
theorem represents_layout (c : Chain Int) :
    (layout c true).Represents (layout c true).operatorAt [] id := by
  constructor
  case inBounds => exact inBounds_layout c
  case contracted_iff =>
    intro q edge hedge
    rw [getElem?_edges_layout] at hedge
    obtain ⟨op, -, rfl⟩ := Option.map_eq_some_iff.1 hedge
    simp
  case node =>
    intro low high hs
    obtain ⟨rfl, hle⟩ := stretch_nil_iff.1 hs
    rw [size_edges_layout] at hle ⊢
    exact exists_getElem?_nodes_layout hle
  case edge =>
    intro low q hs hlt
    obtain ⟨rfl, -⟩ := stretch_nil_iff.1 hs
    rw [size_edges_layout] at hlt
    exact getElem?_edges_layout_of_lt hlt
  case holder_inj => exact fun _ _ h => h
  case superseded =>
    intro q edge low high _ hq
    exact absurd hq List.not_mem_nil
  case held =>
    intro index hindex
    rw [size_nodes_layout] at hindex
    refine Or.inl ⟨index, index, stretch_nil_iff.2 ⟨rfl, ?_⟩, rfl⟩
    rw [size_edges_layout]
    omega

/-- The values of the stretches of a layout, read off the graph, are the chain that was laid out. -/
theorem stretchChain_layout {c : Chain Int} (hnum : c.Numbered) :
    stretchChain (layout c true).valueAt (layout c true).operatorAt [] c.size = c :=
  stretchChain_eq_of_numbered hnum (fun _ _ h => valueAt_layout h)
    (fun _ _ h => operatorAt_layout h)

end Graph

end OperatorChain
