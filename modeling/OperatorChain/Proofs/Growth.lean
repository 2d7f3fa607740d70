import OperatorChain.Graph.Edit
import OperatorChain.Proofs.Commutation

/-!
# How graphs grow

A graph may be changed in any order and with any arguments, and then it need not be the graph of an
expression: edges may name nodes that are not stored, nodes may name edges that are not, and an edge
may be its own neighbour.  On all of them a contraction is one of five things, by where it breaks
off if it does, and whichever it is, the graph only grows: nodes stay as they are, and edges keep
their places, their operators and their marks.

* `Graph.Leaves`, `leaves_contract` — all that a contraction of any graph can be.
* `Leaves.nodes`, `Leaves.edges` — what becomes of the nodes and the edges.
* `Graph.GrowsTo`, `growsTo_edit`, `growsTo_editAll` — one change, and a history of changes.
* `Graph.editAll_stable` — what can be relied on at any moment of any history.
-/

namespace OperatorChain

namespace Graph

/-! ## All that a contraction can be -/

/-- What a contraction of `g` at `position` can answer, and the graph that it leaves behind. -/
inductive Leaves (g : Graph) (position : Nat) : Except ContractionError Step → Graph → Prop
  /-- The edge or one of its operands is not stored. -/
  | unread : (∀ edge left right, ¬ g.Redex position edge left right) →
      Leaves g position (.error .danglingIndex) (g.mark position)
  /-- The operator cannot be applied. -/
  | failed {edge : Edge} {left right : Node} {error : ContractionError} :
      g.Redex position edge left right →
      edge.operator.apply left.value right.value position = .error error →
      Leaves g position (.error error) (g.mark position)
  /-- The result is stored, and the edge on its left is not. -/
  | untiedLeft {edge : Edge} {left right : Node} {result : Int} :
      g.Redex position edge left right →
      edge.operator.apply left.value right.value position = .ok result →
      g.hasNeighbour left.left = false →
      Leaves g position (.error .danglingIndex)
        ((g.mark position).push ⟨result, left.left, right.right⟩)
  /-- The result is stored and tied to on its left, and the edge on its right is not stored. -/
  | untiedRight {edge : Edge} {left right : Node} {result : Int} :
      g.Redex position edge left right →
      edge.operator.apply left.value right.value position = .ok result →
      g.hasNeighbour right.right = false →
      Leaves g position (.error .danglingIndex)
        (((g.mark position).push ⟨result, left.left, right.right⟩).tieRight left.left g.nodes.size)
  /-- The operands have given way to the result. -/
  | replaced {edge : Edge} {left right : Node} {result : Int} :
      g.Redex position edge left right →
      edge.operator.apply left.value right.value position = .ok result →
      Leaves g position (.ok ⟨position, edge.operator, left.value, right.value, result⟩)
        (g.splice position ⟨result, left.left, right.right⟩)

theorem hasNeighbour_congr {g g' : Graph} (h : g.edges.size = g'.edges.size) (edge? : Option Nat) :
    g.hasNeighbour edge? = g'.hasNeighbour edge? := by
  cases edge? with
  | none => rfl
  | some edge => simp [hasNeighbour, h]

/-- What storing the result can be: the edge on its left is looked for first. -/
theorem leaves_replaceOperands {g : Graph} {position : Nat} {edge : Edge} {left right : Node}
    {result : Int} (h : g.Redex position edge left right)
    (happly : edge.operator.apply left.value right.value position = .ok result) :
    let replaced := (g.mark position).replaceOperands ⟨result, left.left, right.right⟩
      ⟨position, edge.operator, left.value, right.value, result⟩
    g.Leaves position replaced.1 replaced.2 := by
  intro replaced
  have hleft : ((g.mark position).push ⟨result, left.left, right.right⟩).hasNeighbour left.left =
      g.hasNeighbour left.left := hasNeighbour_congr (by simp) _
  have hright : (((g.mark position).push ⟨result, left.left, right.right⟩).tieRight left.left
      g.nodes.size).hasNeighbour right.right = g.hasNeighbour right.right :=
    hasNeighbour_congr (by simp) _
  cases hl : g.hasNeighbour left.left with
  | false =>
    have hreplaced : replaced = (.error .danglingIndex,
        (g.mark position).push ⟨result, left.left, right.right⟩) := by
      simp [replaced, replaceOperands, hleft, hl]
    rw [hreplaced]
    exact .untiedLeft h happly hl
  | true =>
    cases hr : g.hasNeighbour right.right with
    | false =>
      have hreplaced : replaced = (.error .danglingIndex,
          ((g.mark position).push ⟨result, left.left, right.right⟩).tieRight left.left
            g.nodes.size) := by
        simp [replaced, replaceOperands, hleft, hl, hright, hr]
      rw [hreplaced]
      exact .untiedRight h happly hr
    | true =>
      have hreplaced : replaced = (.ok ⟨position, edge.operator, left.value, right.value, result⟩,
          g.splice position ⟨result, left.left, right.right⟩) := by
        simp [replaced, replaceOperands, hleft, hl, hright, hr, splice]
      rw [hreplaced]
      exact .replaced h happly

/-- **All that a contraction can be**, on any graph and at any position. -/
theorem leaves_contract (g : Graph) (position : Nat) :
    g.Leaves position (g.contract position).1 (g.contract position).2 := by
  have hunread : (∀ edge left right, ¬ g.Redex position edge left right) →
      g.contract position = (.error .danglingIndex, g.mark position) →
      g.Leaves position (g.contract position).1 (g.contract position).2 := by
    intro hnone heq
    rw [heq]
    exact .unread hnone
  have hmarked := getElem?_edges_mark g position position
  cases hedge : g.edges[position]? with
  | none =>
    rw [hedge, Option.map_none] at hmarked
    refine hunread (fun edge left right h => ?_) (by simp [contract, hmarked])
    cases h.edge_eq.symm.trans hedge
  | some edge =>
    rw [hedge, Option.map_some] at hmarked
    cases hleft : g.nodes[edge.left]? with
    | none =>
      refine hunread (fun edge' left right h => ?_) (by simp [contract, hmarked, hleft])
      cases h.edge_eq.symm.trans hedge
      cases h.left_eq.symm.trans hleft
    | some left =>
      cases hright : g.nodes[edge.right]? with
      | none =>
        refine hunread (fun edge' left' right h => ?_) (by simp [contract, hmarked, hright])
        cases h.edge_eq.symm.trans hedge
        cases h.right_eq.symm.trans hright
      | some right =>
        have h : g.Redex position edge left right := ⟨hedge, hleft, hright⟩
        cases happly : edge.operator.apply left.value right.value position with
        | error error =>
          have heq : g.contract position = (.error error, g.mark position) := by
            simp [contract, hmarked, hleft, hright, happly]
          rw [heq]
          exact .failed h happly
        | ok result =>
          have heq : g.contract position =
              (g.mark position).replaceOperands ⟨result, left.left, right.right⟩
                ⟨position, edge.operator, left.value, right.value, result⟩ := by
            simp [contract, hmarked, hleft, hright, happly]
          rw [heq]
          exact leaves_replaceOperands h happly

section Leaves

variable {g g' : Graph} {position : Nat} {outcome : Except ContractionError Step}

/-- However a contraction ends, at most one node is new. -/
theorem Leaves.nodes (h : g.Leaves position outcome g') :
    g'.nodes = g.nodes ∨ ∃ node, g'.nodes = g.nodes.push node := by
  cases h with
  | unread _ | failed _ _ => exact .inl rfl
  | untiedLeft _ _ _ => exact .inr ⟨_, rfl⟩
  | untiedRight _ _ _ => exact .inr ⟨_, nodes_tieRight ..⟩
  | replaced _ _ => exact .inr ⟨_, nodes_splice ..⟩

theorem getElem?_edges_mark_eq_respliced (g : Graph) (position index : Nat) :
    (g.mark position).edges[index]? =
      g.edges[index]?.map (Edge.respliced position g.nodes.size ⟨0, none, none⟩ index) := by
  rw [getElem?_edges_mark]
  rfl

/-- However a contraction ends, no edge is new, and each is changed only where it is tied to the new
node or marked. -/
theorem Leaves.edges (h : g.Leaves position outcome g') :
    ∃ node : Node, ∀ index : Nat, g'.edges[index]? =
      g.edges[index]?.map (Edge.respliced position g.nodes.size node index) := by
  cases h with
  | unread _ | failed _ _ => exact ⟨_, getElem?_edges_mark_eq_respliced g position⟩
  | untiedLeft _ _ _ => exact ⟨_, getElem?_edges_mark_eq_respliced g position⟩
  | @untiedRight _ left _ _ _ _ _ =>
    refine ⟨⟨0, left.left, none⟩, fun index => ?_⟩
    rw [getElem?_edges_tieRight, edges_push, getElem?_edges_mark, Option.map_map]
    rfl
  | replaced _ _ => exact ⟨_, getElem?_edges_splice g position _⟩

end Leaves

/-! ## Growth -/

/-- What is stored in `g` is stored in `g'` at the same place: the nodes as they were, and each edge
with its operator and its position, and contracted if it was. -/
structure GrowsTo (g g' : Graph) : Prop where
  nodes : g.nodes.toList <+: g'.nodes.toList
  edge : ∀ {index : Nat} {edge : Edge}, g.edges[index]? = some edge →
    ∃ edge', g'.edges[index]? = some edge' ∧ edge'.operator = edge.operator ∧
      edge'.position = edge.position ∧ (edge.contracted = true → edge'.contracted = true)

/-- Every edge stands at its position. -/
def Numbered (g : Graph) : Prop :=
  ∀ {index : Nat} {edge : Edge}, g.edges[index]? = some edge → edge.position = index

variable {g g' g'' : Graph}

theorem GrowsTo.refl (g : Graph) : g.GrowsTo g :=
  ⟨List.prefix_refl _, fun hedge => ⟨_, hedge, rfl, rfl, id⟩⟩

theorem GrowsTo.trans (h : g.GrowsTo g') (h' : g'.GrowsTo g'') : g.GrowsTo g'' := by
  refine ⟨h.nodes.trans h'.nodes, fun hedge => ?_⟩
  obtain ⟨edge', hedge', hoperator, hposition, hmark⟩ := h.edge hedge
  obtain ⟨edge'', hedge'', hoperator', hposition', hmark'⟩ := h'.edge hedge'
  exact ⟨edge'', hedge'', hoperator'.trans hoperator, hposition'.trans hposition, hmark' ∘ hmark⟩

theorem growsTo_appendValue (g : Graph) (value : Int) (isLast : Bool) :
    g.GrowsTo (g.appendValue value isLast) := by
  refine ⟨?_, (GrowsTo.refl g).edge⟩
  simp [appendValue]

theorem growsTo_appendOperator (g : Graph) (operator : Operator) :
    g.GrowsTo (g.appendOperator operator) := by
  refine ⟨List.prefix_refl _, fun {index edge} hedge => ⟨edge, ?_, rfl, rfl, id⟩⟩
  have hlt := (Array.getElem?_eq_some_iff.1 hedge).1
  rw [appendOperator, Array.getElem?_push, if_neg (by omega), hedge]

theorem Leaves.growsTo {position : Nat} {outcome : Except ContractionError Step}
    (h : g.Leaves position outcome g') : g.GrowsTo g' := by
  constructor
  · rcases h.nodes with hsame | ⟨node, hpush⟩
    · simp [hsame]
    · simp [hpush]
  · intro index edge hedge
    obtain ⟨node, hedges⟩ := h.edges
    refine ⟨_, (hedges index).trans (congrArg _ hedge), rfl, rfl, fun hmark => ?_⟩
    simp [Edge.respliced, hmark]

/-- **One change only adds to a graph.** -/
theorem growsTo_edit (g : Graph) (change : Edit) : g.GrowsTo (g.edit change).2 := by
  cases change with
  | appendValue value isLast => exact growsTo_appendValue g value isLast
  | appendOperator operator => exact growsTo_appendOperator g operator
  | contract position => exact (leaves_contract g position).growsTo

/-- So a history of changes only adds to it. -/
theorem growsTo_editAll (g : Graph) (history : List Edit) : g.GrowsTo (g.editAll history) := by
  induction history generalizing g with
  | nil => exact .refl g
  | cons change rest ih => exact (growsTo_edit g change).trans (ih _)

theorem numbered_empty : empty.Numbered := by
  intro index edge hedge
  simp [empty] at hedge

/-- One change leaves every edge at its position, and a new one is put there. -/
theorem Numbered.edit (h : g.Numbered) (change : Edit) : (g.edit change).2.Numbered := by
  intro index edge hedge
  cases change with
  | appendValue value isLast => exact h hedge
  | appendOperator operator =>
    simp only [Graph.edit, appendOperator] at hedge
    rw [Array.getElem?_push] at hedge
    split at hedge
    · next hlast =>
      cases hedge
      exact hlast.symm
    · exact h hedge
  | contract position =>
    obtain ⟨node, hedges⟩ := (leaves_contract g position).edges
    obtain ⟨old, hold, rfl⟩ := Option.map_eq_some_iff.1 ((hedges index).symm.trans hedge)
    show old.position = index
    exact h hold

theorem Numbered.editAll (h : g.Numbered) (history : List Edit) :
    (g.editAll history).Numbered := by
  induction history generalizing g with
  | nil => exact h
  | cons change rest ih => exact ih (h.edit change)

theorem editAll_append (g : Graph) (earlier later : List Edit) :
    g.editAll (earlier ++ later) = (g.editAll earlier).editAll later :=
  List.foldl_append

/-- **Graphs only grow**, whatever is done to them.  Take any history of changes, and any moment of
it.  The nodes that are stored at that moment stay where they are and as they are to the end.  Each
edge stands at its position, stays there, keeps its operator, and stays contracted if it is.  A
contraction at that moment that cannot apply its operator changes nothing but the mark of its edge.
One that succeeds appends one node with the result, ties at most one edge on its left and at most
one on its right to it, and changes nothing else but the mark. -/
theorem editAll_stable (earlier later : List Edit) (position : Nat) :
    let g := empty.editAll earlier
    let final := empty.editAll (earlier ++ later)
    g.nodes.toList <+: final.nodes.toList ∧
      (∀ (index : Nat) (edge : Edge), g.edges[index]? = some edge → edge.position = index ∧
        ∃ edge' : Edge, final.edges[index]? = some edge' ∧ edge'.position = index ∧
          edge'.operator = edge.operator ∧ (edge.contracted = true → edge'.contracted = true)) ∧
      (∀ error g', g.contract position = (.error error, g') → error ≠ .danglingIndex →
        position < g.edges.size ∧ g'.nodes = g.nodes ∧
          ∀ index : Nat, g'.edges[index]? = g.edges[index]?.map fun edge =>
            { edge with contracted := edge.contracted || index == position }) ∧
      ∀ step g', g.contract position = (.ok step, g') →
        ∃ node : Node, g'.nodes = g.nodes.push node ∧ node.value = step.result ∧
          ∃ before? behind? : Option Nat,
            ∀ index : Nat, g'.edges[index]? = g.edges[index]?.map fun edge =>
              { edge with
                left := if behind? = some index then g.nodes.size else edge.left
                right := if before? = some index then g.nodes.size else edge.right
                contracted := edge.contracted || index == position } := by
  intro g final
  have hfinal : final = g.editAll later := editAll_append empty earlier later
  have hgrows : g.GrowsTo final := hfinal ▸ growsTo_editAll g later
  have hleaves := leaves_contract g position
  refine ⟨hgrows.nodes, fun index edge hedge => ?_, fun error g' heq herror => ?_,
    fun step g' heq => ?_⟩
  · have hposition := numbered_empty.editAll earlier hedge
    obtain ⟨edge', hedge', hoperator, hsame, hmark⟩ := hgrows.edge hedge
    exact ⟨hposition, edge', hedge', hsame.trans hposition, hoperator, hmark⟩
  · rw [heq] at hleaves
    cases hleaves with
    | failed h _ =>
      exact ⟨(Array.getElem?_eq_some_iff.1 h.edge_eq).1, rfl, getElem?_edges_mark g position⟩
    | unread _ | untiedLeft _ _ _ | untiedRight _ _ _ => exact absurd rfl herror
  · rw [heq] at hleaves
    cases hleaves with
    | replaced _ _ =>
      exact ⟨_, nodes_splice .., rfl, _, _, getElem?_edges_splice g position _⟩

/-- An edge that stands before its first operand becomes its own neighbour when its contraction
breaks off behind the result.  It is contracted again, and then the edge behind it divides by zero.
-/
theorem editAll_stable_own_neighbour :
    let g := empty.editAll [.appendOperator .add, .appendValue 1 false, .appendValue (-1) false,
      .contract 0, .appendOperator .divide]
    let g' := (g.contract 0).2
    (g.contract 0).1 = .ok ⟨0, .add, 1, 0, 1⟩ ∧
      (∃ node : Node, g'.nodes = g.nodes.push node ∧ node.value = 1) ∧
      (g'.contract 1).1 = .error (.divisionByZero 1) ∧
      (g'.contract 1).2.nodes = g'.nodes ∧
      g.nodes.toList <+: (g'.contract 1).2.nodes.toList := by
  intro g g'
  have hadd : g.contract 0 = (.ok ⟨0, .add, 1, 0, 1⟩, g') := by decide +kernel
  have hdivide : g'.contract 1 = (.error (.divisionByZero 1), (g'.contract 1).2) := by
    decide +kernel
  obtain ⟨hgrows, -, -, hreplaced⟩ := editAll_stable [.appendOperator .add, .appendValue 1 false,
    .appendValue (-1) false, .contract 0, .appendOperator .divide] [.contract 0, .contract 1] 0
  obtain ⟨-, -, hfailed, -⟩ := editAll_stable [.appendOperator .add, .appendValue 1 false,
    .appendValue (-1) false, .contract 0, .appendOperator .divide, .contract 0] [] 1
  obtain ⟨node, hnodes, hvalue, -⟩ := hreplaced _ _ hadd
  obtain ⟨-, hsame, -⟩ := hfailed _ _ hdivide (by decide)
  exact ⟨by rw [hadd], ⟨node, hnodes, hvalue⟩, by rw [hdivide], hsame, hgrows⟩

end Graph

end OperatorChain
