import OperatorChain.Proofs.AnyOrder
import OperatorChain.Proofs.Progress

/-!
# What a graph records

A contraction appends the node that holds its result and leaves its edge tied to the two operands.
So once all operators are done, in whatever order, the graph tells how: nothing in it is used twice,
nothing is left over but the last node, and below that node there is a tree in which the expression
stands from left to right.

* `Tree.inOrder` — the literals and the operators of a tree from left to right.
* `Graph.Gives` — an edge tied to two operands, and a node that holds what its operator gives for
  them.
* `Graph.Rooted` — the tree that the edges span from a node.
* `Graph.Records` — all that the graph tells when every operator is done.
* `Graph.Logs` — the invariant on the way there, which `Logs.join` keeps over one contraction.
* `Logs.records` — what it comes to at the end.
-/

namespace OperatorChain

/-! ## Reading a tree from left to right -/

/-- A literal or an operator of an expression. -/
inductive Part where
  | literal (index : Nat)
  | operator (position : Nat)
  deriving DecidableEq, Repr

/-- The parts of an expression from a literal on: the literal, and `count` operators, each with the
literal behind it. -/
def partsFrom (low count : Nat) : List Part :=
  .literal low :: (List.range' low count).flatMap fun q => [.operator q, .literal (q + 1)]

theorem partsFrom_append (low count count' : Nat) :
    partsFrom low count ++ .operator (low + count) :: partsFrom (low + count + 1) count' =
      partsFrom low (count + 1 + count') := by
  have hrange : List.range' low (count + 1 + count') =
      List.range' low count ++ (low + count) :: List.range' (low + count + 1) count' := by
    rw [← List.range'_append_1, List.range'_1_concat, List.append_assoc, Nat.add_assoc low count 1]
    rfl
  simp [partsFrom, hrange]

namespace Tree

/-- The literals and the operators of a tree, each operator between its operands. -/
def inOrder : Tree → List Part
  | .literal index => [.literal index]
  | .operation position left right => left.inOrder ++ .operator position :: right.inOrder

/-- **The tree of literals whose operators are all done is the expression**, read from left to
right. -/
theorem inOrder_ofHistory {history : List Nat} {low high : Nat} (hle : low ≤ high)
    (h : ∀ q, low ≤ q → q < high → q ∈ history) :
    (ofHistory history low high).inOrder = partsFrom low (high - low) := by
  refine ofHistory_induction
    (motive := fun low high tree => tree.inOrder = partsFrom low (high - low)) ?_ ?_ hle h
  · intro low
    simp [inOrder, partsFrom]
  · intro low position high left right hlow hhigh hleft hright
    obtain ⟨count, rfl⟩ := Nat.exists_eq_add_of_le hlow
    rw [inOrder, hleft, hright, Nat.add_sub_cancel_left, partsFrom_append]
    congr 1
    omega

end Tree

namespace Graph

/-! ## What edges and nodes tell -/

/-- The edge at `position` is contracted, and the node at `index` has the value that the operator
gives for the two operands that the edge is tied to. -/
def Gives (g : Graph) (operator : Operator) (position index : Nat) : Prop :=
  ∃ edge, g.edges[position]? = some edge ∧ edge.operator = operator ∧ edge.position = position ∧
    edge.contracted = true ∧
    operator.apply (g.valueAt edge.left) (g.valueAt edge.right) position = .ok (g.valueAt index)

/-- The tree that stands below a node: the first nodes are the literals, and each node behind them
comes from the edge whose turn it was, with the trees of its operands. -/
inductive Rooted (g : Graph) (literals : Nat) (order : List Nat) : Nat → Tree → Prop
  | literal {index : Nat} : index < literals → Rooted g literals order index (.literal index)
  | operation {k position : Nat} {edge : Edge} {left right : Tree} : order[k]? = some position →
      g.edges[position]? = some edge → Rooted g literals order edge.left left →
      Rooted g literals order edge.right right →
      Rooted g literals order (literals + k) (.operation position left right)

/-- There is one tree below a node. -/
theorem Rooted.unique {g : Graph} {literals : Nat} {order : List Nat} {index : Nat}
    {tree tree' : Tree} (h : g.Rooted literals order index tree)
    (h' : g.Rooted literals order index tree') :
    tree' = tree := by
  induction h generalizing tree' with
  | literal hlt =>
    cases h' with
    | literal => rfl
    | operation => omega
  | @operation k position edge left right hk hedge _ _ ihleft ihright =>
    generalize hindex : literals + k = index at h'
    cases h' with
    | literal => omega
    | @operation k' position' edge' left' right' hk' hedge' hleft hright =>
      obtain rfl : k = k' := by omega
      cases hk.symm.trans hk'
      cases hedge.symm.trans hedge'
      rw [ihleft hleft, ihright hright]

/-- The nodes that the edges are tied to, two for each edge. -/
def uses (g : Graph) : List Nat :=
  g.edges.toList.flatMap fun edge => [edge.left, edge.right]

/-- **What the graph tells when every operator is done.**  `start` is the graph before, with its
literals, and `order` says when which operator was done. -/
structure Records (start : Graph) (order : List Nat) (g : Graph) : Prop where
  /-- There is one node for each literal and for each result. -/
  size_nodes : g.nodes.size = 2 * start.edges.size + 1
  size_edges : g.edges.size = start.edges.size
  contracted : ∀ edge ∈ g.edges, edge.contracted = true
  /-- Each node but the last is used, and none is used twice. -/
  uses : g.uses.Perm (List.range (2 * start.edges.size))
  /-- The literals are as they were. -/
  literal : ∀ i ≤ start.edges.size, g.nodes[i]? = start.nodes[i]?
  /-- Every operator has its turn. -/
  turns : order.Perm (List.range start.edges.size)
  /-- The nodes behind the literals hold the results, turn by turn. -/
  result : ∀ {k position : Nat}, order[k]? = some position →
    g.Gives (start.operatorAt position) position (start.edges.size + 1 + k)
  /-- The tree below the last node is the expression. -/
  tree : ∃ tree, g.Rooted (start.edges.size + 1) order (2 * start.edges.size) tree ∧
    (∀ other, g.Rooted (start.edges.size + 1) order (2 * start.edges.size) other → other = tree) ∧
    tree.inOrder = .literal 0 :: (List.range start.edges.size).flatMap fun q =>
      [.operator q, .literal (q + 1)]

/-! ## The invariant -/

/-- `g` comes from `start` by contracting at the positions in `order`, and each of these
contractions can still be told. -/
structure Logs (start g : Graph) (order : List Nat) (holder : Nat → Nat) : Prop where
  follows : Follows start g order.reverse holder
  size_nodes : g.nodes.size = start.nodes.size + order.length
  literal : ∀ {i : Nat}, i < start.nodes.size → g.nodes[i]? = start.nodes[i]?
  result : ∀ {k position : Nat}, order[k]? = some position →
    g.Gives (start.operatorAt position) position (start.nodes.size + k)
  tree : ∀ {low high : Nat}, Stretch g.edges.size order.reverse low high →
    g.Rooted start.nodes.size order (holder low) (Tree.ofHistory order.reverse low high)

theorem logs_layout (c : Chain Int) : Logs (layout c true) (layout c true) [] id := by
  refine ⟨follows_layout c, rfl, fun _ => rfl, fun hk => ?_, fun hs => ?_⟩
  · cases hk
  · obtain ⟨rfl, hle⟩ := stretch_nil_iff.1 hs
    rw [size_edges_layout] at hle
    exact .literal (by rw [size_nodes_layout, id]; omega)

/-! ### One contraction -/

section Join

variable {start g : Graph} {order : List Nat} {holder : Nat → Nat} {position low high : Nat}
  {result : Int}

/-- What an edge and a node tell stays told. -/
theorem Gives.join {operator : Operator} {q index : Nat} (h : g.Gives operator q index)
    (hbounds : g.InBounds) (hindex : index < g.nodes.size)
    (hkeeps : g.Keeps (g.join position low high result)) :
    (g.join position low high result).Gives operator q index := by
  obtain ⟨edge, hedge, hoperator, hposition, hc, happly⟩ := h
  refine ⟨edge, hkeeps hedge hc, hoperator, hposition, hc, ?_⟩
  rw [Graph.join, valueAt_splice_of_lt (hbounds.left_lt hedge),
    valueAt_splice_of_lt (hbounds.right_lt hedge), valueAt_splice_of_lt hindex]
  exact happly

/-- A tree stays where it is, since its edges are contracted. -/
theorem Rooted.grow {g' : Graph} {literals index : Nat} {tree : Tree}
    (h : g.Rooted literals order index tree)
    (hdone : ∀ {q : Nat} {edge : Edge}, g.edges[q]? = some edge → q ∈ order →
      edge.contracted = true)
    (hkeeps : g.Keeps g') (position : Nat) :
    g'.Rooted literals (order ++ [position]) index tree := by
  induction h with
  | literal hlt => exact .literal hlt
  | @operation k q edge left right hk hedge _ _ ihleft ihright =>
    have hc := hdone hedge (List.mem_of_getElem? hk)
    refine .operation ?_ (hkeeps hedge hc) ihleft ihright
    rw [List.getElem?_append_left (List.getElem?_eq_some_iff.1 hk).1, hk]

theorem Logs.contracted_of_mem (h : Logs start g order holder) {q : Nat} {edge : Edge}
    (hedge : g.edges[q]? = some edge) (hq : q ∈ order) : edge.contracted = true :=
  (h.follows.represents.contracted_iff hedge).2 (List.mem_reverse.2 hq)

/-- The edge of the operator stays tied to the nodes that held the two stretches. -/
theorem Logs.getElem?_edges_join (h : Logs start g order holder)
    (hleft : Stretch g.edges.size order.reverse low position)
    (hright : Stretch g.edges.size order.reverse (position + 1) high) (result : Int) :
    (g.join position low high result).edges[position]? =
      some ⟨start.operatorAt position, position, holder low, holder (position + 1), true⟩ := by
  have hrep := h.follows.represents
  exact hrep.getElem?_edges_join_of_mem hleft hright result (List.mem_cons_self ..)
    (hrep.edge hleft hright.lt_size)

/-- The new node holds the new result, and the other results are where they were. -/
theorem Logs.gives_join (h : Logs start g order holder)
    (hleft : Stretch g.edges.size order.reverse low position)
    (hright : Stretch g.edges.size order.reverse (position + 1) high)
    (happly : (start.operatorAt position).apply (g.valueAt (holder low))
      (g.valueAt (holder (position + 1))) position = .ok result)
    {k q : Nat} (hk : (order ++ [position])[k]? = some q) :
    (g.join position low high result).Gives (start.operatorAt q) q (start.nodes.size + k) := by
  have hrep := h.follows.represents
  have hsize := h.size_nodes
  rcases Nat.lt_trichotomy k order.length with hold | hnew | hbeyond
  · rw [List.getElem?_append_left hold] at hk
    exact (h.result hk).join hrep.inBounds (by omega) (hrep.keeps_join hleft hright result)
  · subst hnew
    rw [List.getElem?_concat_length] at hk
    cases hk
    refine ⟨_, h.getElem?_edges_join hleft hright result, rfl, rfl, rfl, ?_⟩
    rw [← hsize, Graph.join, valueAt_splice_size, valueAt_splice_of_lt (hrep.holder_lt hleft),
      valueAt_splice_of_lt (hrep.holder_lt hright)]
    exact happly
  · rw [List.getElem?_eq_none (by simp; omega)] at hk
    cases hk

/-- The trees of the two stretches are the subtrees of the tree below the new node, and the other
trees are where they were. -/
theorem Logs.rooted_join (h : Logs start g order holder)
    (hleft : Stretch g.edges.size order.reverse low position)
    (hright : Stretch g.edges.size order.reverse (position + 1) high) (result : Int) {a b : Nat}
    (hs : Stretch g.edges.size (position :: order.reverse) a b) :
    (g.join position low high result).Rooted start.nodes.size (order ++ [position])
      (Function.update holder low g.nodes.size a)
      (Tree.ofHistory (position :: order.reverse) a b) := by
  have hgrow : ∀ {index : Nat} {tree : Tree}, g.Rooted start.nodes.size order index tree →
      (g.join position low high result).Rooted start.nodes.size (order ++ [position]) index tree :=
    fun htree => htree.grow h.contracted_of_mem
      (h.follows.represents.keeps_join hleft hright result) position
  have hle := hleft.le
  have hle' := hright.le
  rcases stretch_cons_cases hleft hright holder g.nodes.size hs with
    ⟨rfl, rfl, hfresh⟩ | ⟨hold, -, -, hsame⟩
  · rw [hfresh, h.size_nodes, Tree.ofHistory_cons_of_mem ⟨hle, by omega⟩]
    exact .operation List.getElem?_concat_length (h.getElem?_edges_join hleft hright result)
      (hgrow (h.tree hleft)) (hgrow (h.tree hright))
  · have hout : ¬ (a ≤ position ∧ position < b) := fun hin =>
      hleft.not_mem_after hright.lt_size (hold.mem position hin.1 hin.2)
    rw [hsame, Tree.ofHistory_cons_of_not_mem hout]
    exact hgrow (h.tree hold)

/-- **One more contraction** goes on the log behind the others. -/
theorem Logs.join (h : Logs start g order holder)
    (hleft : Stretch g.edges.size order.reverse low position)
    (hright : Stretch g.edges.size order.reverse (position + 1) high)
    (happly : (start.operatorAt position).apply (g.valueAt (holder low))
      (g.valueAt (holder (position + 1))) position = .ok result) :
    Logs start (g.join position low high result) (order ++ [position])
      (Function.update holder low g.nodes.size) := by
  have hreverse : (order ++ [position]).reverse = position :: order.reverse := List.reverse_concat
  have hsize := h.size_nodes
  constructor
  case follows =>
    rw [hreverse]
    exact h.follows.join hleft hright happly
  case size_nodes =>
    rw [Graph.join, nodes_splice, Array.size_push, List.length_append, hsize]
    rfl
  case literal =>
    intro i hi
    rw [getElem?_nodes_join_of_lt (by omega), h.literal hi]
  case result => exact h.gives_join hleft hright happly
  case tree =>
    intro a b hs
    rw [hreverse, size_edges_join] at hs
    rw [hreverse]
    exact h.rooted_join hleft hright result hs

end Join

/-- A contraction that succeeds is on the log. -/
theorem Logs.contract {start g g' : Graph} {order : List Nat} {holder : Nat → Nat} {position : Nat}
    {step : Step} (h : Logs start g order holder) (hlt : position < g.edges.size)
    (hnot : position ∉ order) (hc : g.contract position = (.ok step, g')) :
    ∃ holder', Logs start g' (order ++ [position]) holder' := by
  have hnot' : position ∉ order.reverse := by rwa [List.mem_reverse]
  obtain ⟨happly, -, ⟨high, hright, rfl⟩, -⟩ := h.follows.contract_ok hlt hnot' hc
  exact ⟨_, h.join (stretch_of_not_mem hlt hnot') hright happly⟩

/-! ## All operators done -/

/-- Each node but the last is used, so none is used twice: there are no more uses than that. -/
theorem Logs.uses_perm {start g : Graph} {order : List Nat} {holder : Nat → Nat}
    (h : Logs start g order holder) (hall : ∀ q, q < start.edges.size → q ∈ order.reverse)
    (hnodes : g.nodes.size = 2 * start.edges.size + 1) :
    g.uses.Perm (List.range (2 * start.edges.size)) := by
  obtain ⟨low, high, hs, hlast⟩ := h.follows.last_held
  have hsize := h.follows.size_edges
  rw [hsize] at hs
  obtain ⟨rfl, rfl⟩ := hs.eq_of_forall_mem hall
  have hsub : List.range (2 * start.edges.size) ⊆ g.uses := by
    intro index hmem
    have hindex := List.mem_range.1 hmem
    rcases h.follows.represents.held (show index < g.nodes.size by omega) with
      ⟨low, high, hs', rfl⟩ | ⟨q, edge, -, hedge, hends⟩
    · -- the only stretch is held by the last node
      rw [hsize] at hs'
      obtain ⟨rfl, rfl⟩ := hs'.eq_of_forall_mem hall
      omega
    · refine List.mem_flatMap.2 ⟨edge, Array.mem_toList_iff.2 (Array.mem_of_getElem? hedge), ?_⟩
      rcases hends with rfl | rfl <;> simp
  have hlength : g.uses.length = 2 * start.edges.size := by
    simp [uses, hsize, Nat.mul_comm]
  exact ((List.nodup_range.subperm hsub).perm_of_length_le (by simp [hlength])).symm

/-- **Once every operator is done, the graph tells all of it.** -/
theorem Logs.records {start g : Graph} {order : List Nat} {holder : Nat → Nat}
    (h : Logs start g order holder) (hnodes : start.nodes.size = start.edges.size + 1)
    (horder : order.Perm (List.range start.edges.size)) : Records start order g := by
  have hlength : order.length = start.edges.size := by simpa using horder.length_eq
  have hsize := h.follows.size_edges
  have hcount : g.nodes.size = 2 * start.edges.size + 1 := by
    have := h.size_nodes
    omega
  have hall : ∀ q, q < start.edges.size → q ∈ order.reverse :=
    fun q hq => List.mem_reverse.2 (horder.mem_iff.2 (List.mem_range.2 hq))
  constructor
  case size_nodes => exact hcount
  case size_edges => exact hsize
  case contracted =>
    intro edge hmem
    obtain ⟨q, hlt, hedge⟩ := Array.mem_iff_getElem.1 hmem
    refine (h.follows.represents.contracted_iff (Array.getElem?_eq_some_iff.2 ⟨hlt, hedge⟩)).2 ?_
    exact hall q (by omega)
  case uses => exact h.uses_perm hall hcount
  case literal => exact fun i hi => h.literal (by omega)
  case turns => exact horder
  case result =>
    intro k position hk
    rw [← hnodes]
    exact h.result hk
  case tree =>
    obtain ⟨low, high, hs, hlast⟩ := h.follows.last_held
    have hrooted := h.tree hs
    rw [hsize] at hs
    obtain ⟨rfl, rfl⟩ := hs.eq_of_forall_mem hall
    rw [hnodes, show holder 0 = 2 * start.edges.size by omega] at hrooted
    refine ⟨_, hrooted, fun other hother => hrooted.unique hother, ?_⟩
    rw [Tree.inOrder_ofHistory (Nat.zero_le _) hs.mem, partsFrom, Nat.sub_zero,
      List.range_eq_range']

end Graph

end OperatorChain
