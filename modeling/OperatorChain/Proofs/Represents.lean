import Mathlib.Logic.Function.Basic
import OperatorChain.Proofs.Contraction
import OperatorChain.Proofs.Stretch

/-!
# How a graph represents the stretches of its expression

`Graph.Represents` is the invariant of contraction.  Some operators of an expression are done, in
any order; each stretch of the others' operands is held by one node, which the operators on either
side of the stretch are tied to, and which is tied to them.  The nodes that operators already done
had as operands hold no stretch, and every other node holds one.

* `Represents.contract_eq` — contracting an operator that is not done applies it to the values of
  the two stretches beside it.
* `Represents.join` — a contraction that succeeds keeps the invariant: the new node holds what the
  two stretches have become.
-/

namespace OperatorChain

namespace Graph

/-- The value that the node at an index holds, and zero where no node is stored. -/
def valueAt (g : Graph) (index : Nat) : Int :=
  match g.nodes[index]? with
  | some node => node.value
  | none => 0

theorem valueAt_of_getElem? {g : Graph} {index : Nat} {node : Node}
    (h : g.nodes[index]? = some node) : g.valueAt index = node.value := by
  simp [valueAt, h]

theorem valueAt_splice_of_lt {g : Graph} {position index : Nat} {node : Node}
    (h : index < g.nodes.size) : (g.splice position node).valueAt index = g.valueAt index := by
  rw [valueAt, valueAt, nodes_splice, Array.getElem?_push, if_neg (by omega)]

theorem valueAt_splice_size (g : Graph) (position : Nat) (node : Node) :
    (g.splice position node).valueAt g.nodes.size = node.value := by
  rw [valueAt, nodes_splice, Array.getElem?_push, if_pos rfl]

/-- The graph after the operator at `position` has joined the stretches on its two sides, which
reach from literal `low` to literal `high`, with the given result. -/
def join (g : Graph) (position low high : Nat) (result : Int) : Graph :=
  g.splice position ⟨result, operatorBefore low, operatorAfter g.edges.size high⟩

@[simp] theorem size_edges_join (g : Graph) (position low high : Nat) (result : Int) :
    (g.join position low high result).edges.size = g.edges.size :=
  size_edges_splice g position _

theorem getElem?_nodes_join_of_lt {g : Graph} {position low high index : Nat} {result : Int}
    (h : index < g.nodes.size) :
    (g.join position low high result).nodes[index]? = g.nodes[index]? := by
  rw [join, nodes_splice, Array.getElem?_push, if_neg (by omega)]

theorem getElem?_nodes_join_size (g : Graph) (position low high : Nat) (result : Int) :
    (g.join position low high result).nodes[g.nodes.size]? =
      some ⟨result, operatorBefore low, operatorAfter g.edges.size high⟩ := by
  rw [join, nodes_splice, Array.getElem?_push, if_pos rfl]

/-- The operators in `done` are done in the graph, and the stretch that begins at literal `low` is
held by the node at `holder low`. -/
structure Represents (g : Graph) (operator : Nat → Operator) (done : List Nat)
    (holder : Nat → Nat) : Prop where
  inBounds : g.InBounds
  contracted_iff : ∀ {q : Nat} {edge : Edge}, g.edges[q]? = some edge →
    (edge.contracted = true ↔ q ∈ done)
  /-- The node that holds a stretch names the operators on either side of it. -/
  node : ∀ {low high : Nat}, Stretch g.edges.size done low high → ∃ value,
    g.nodes[holder low]? = some ⟨value, operatorBefore low, operatorAfter g.edges.size high⟩
  /-- The operator after a stretch names the nodes that hold the stretches on either side of it. -/
  edge : ∀ {low q : Nat}, Stretch g.edges.size done low q → q < g.edges.size →
    g.edges[q]? = some ⟨operator q, q, holder low, holder (q + 1), false⟩
  holder_inj : ∀ {low high low' high' : Nat}, Stretch g.edges.size done low high →
    Stretch g.edges.size done low' high' → holder low = holder low' → low = low'
  /-- The operands of an operator that is done hold no stretch. -/
  superseded : ∀ {q : Nat} {edge : Edge} {low high : Nat}, g.edges[q]? = some edge → q ∈ done →
    Stretch g.edges.size done low high → edge.left ≠ holder low ∧ edge.right ≠ holder low
  /-- A node that is no such operand holds a stretch. -/
  held : ∀ {index : Nat}, index < g.nodes.size →
    (∃ low high, Stretch g.edges.size done low high ∧ index = holder low) ∨
      ∃ q edge, q ∈ done ∧ g.edges[q]? = some edge ∧ (edge.left = index ∨ edge.right = index)

namespace Represents

variable {g : Graph} {operator : Nat → Operator} {done : List Nat} {holder : Nat → Nat}

theorem holder_lt (h : g.Represents operator done holder) {low high : Nat}
    (hs : Stretch g.edges.size done low high) : holder low < g.nodes.size := by
  obtain ⟨value, hnode⟩ := h.node hs
  exact (Array.getElem?_eq_some_iff.1 hnode).1

/-- The node of a stretch, with its value read off the graph. -/
theorem getElem?_nodes_holder (h : g.Represents operator done holder) {low high : Nat}
    (hs : Stretch g.edges.size done low high) :
    g.nodes[holder low]? = some
      ⟨g.valueAt (holder low), operatorBefore low, operatorAfter g.edges.size high⟩ := by
  obtain ⟨value, hnode⟩ := h.node hs
  rw [valueAt_of_getElem? hnode, hnode]

/-! ## One contraction -/

section Contract

variable {position low high : Nat}

/-- **What contracting the next operator answers.**  It is applied to the values of the stretches
on its two sides; a failure only marks it, and a success splices in a node that has the outer
neighbours of the two. -/
theorem contract_eq (h : g.Represents operator done holder)
    (hleft : Stretch g.edges.size done low position)
    (hright : Stretch g.edges.size done (position + 1) high) :
    g.contract position =
      match (operator position).apply (g.valueAt (holder low)) (g.valueAt (holder (position + 1)))
        position with
      | .error error => (.error error, g.mark position)
      | .ok result =>
        (.ok ⟨position, operator position, g.valueAt (holder low),
            g.valueAt (holder (position + 1)), result⟩,
          g.join position low high result) := by
  have hlt : position < g.edges.size := hright.lt_size
  obtain ⟨left, right, hl, hr, heq⟩ := h.inBounds.contract_eq (h.edge hleft hlt)
  rw [h.getElem?_nodes_holder hleft] at hl
  rw [h.getElem?_nodes_holder hright] at hr
  cases hl
  cases hr
  exact heq

/-- The edges of operators that are done after a contraction are those from before, marked. -/
theorem getElem?_edges_join_of_mem (h : g.Represents operator done holder)
    (hleft : Stretch g.edges.size done low position)
    (hright : Stretch g.edges.size done (position + 1) high) (result : Int) {q : Nat} {edge : Edge}
    (hq : q ∈ position :: done) (hedge : g.edges[q]? = some edge) :
    (g.join position low high result).edges[q]? = some { edge with contracted := true } := by
  have hjoin := hleft.join hright
  have hafter : operatorAfter g.edges.size high ≠ some q := by
    intro heq
    obtain ⟨rfl, hlt⟩ := operatorAfter_eq_some_iff.1 heq
    exact hjoin.not_mem_after hlt hq
  have hbefore : operatorBefore low ≠ some q := by
    intro heq
    exact hjoin.not_mem_before q (operatorBefore_eq_some_iff.1 heq) hq
  have hmark : (edge.contracted || q == position) = true := by
    rcases List.mem_cons.1 hq with rfl | hmem
    · simp
    · simp [(h.contracted_iff hedge).2 hmem]
  rw [join, getElem?_edges_splice, hedge, Option.map_some, Edge.respliced, hmark, if_neg hafter,
    if_neg hbefore]

/-- The edges of the other operators are tied to the new node on the side where they border on the
joined stretch. -/
theorem getElem?_edges_join_of_not_mem (h : g.Represents operator done holder) {a q : Nat}
    (hs : Stretch g.edges.size done a q) (hlt : q < g.edges.size) (hne : q ≠ position)
    (result : Int) :
    (g.join position low high result).edges[q]? =
      some ⟨operator q, q, if high = q then g.nodes.size else holder a,
        if low = q + 1 then g.nodes.size else holder (q + 1), false⟩ := by
  have hmark : (q == position) = false := by simpa using hne
  rw [join, getElem?_edges_splice, h.edge hs hlt, Option.map_some, Edge.respliced]
  simp only [operatorBefore_eq_some_iff, operatorAfter_eq_some_iff, hmark, hlt, and_true,
    Bool.or_false]

/-- The node that holds a stretch after the contraction. -/
theorem node_join (h : g.Represents operator done holder)
    (hleft : Stretch g.edges.size done low position)
    (hright : Stretch g.edges.size done (position + 1) high) (result : Int) {a b : Nat}
    (hs : Stretch g.edges.size (position :: done) a b) :
    ∃ value, (g.join position low high result).nodes[
        Function.update holder low g.nodes.size a]? =
      some ⟨value, operatorBefore a, operatorAfter g.edges.size b⟩ := by
  rcases stretch_cons_cases hleft hright holder g.nodes.size hs with
    ⟨rfl, rfl, hnew⟩ | ⟨hold, -, -, hsame⟩
  · rw [hnew]
    exact ⟨result, getElem?_nodes_join_size g position a b result⟩
  · rw [hsame, getElem?_nodes_join_of_lt (h.holder_lt hold)]
    exact h.node hold

/-- The edge after a stretch once the contraction is done. -/
theorem edge_join (h : g.Represents operator done holder)
    (hleft : Stretch g.edges.size done low position)
    (hright : Stretch g.edges.size done (position + 1) high) (result : Int) {a q : Nat}
    (hs : Stretch g.edges.size (position :: done) a q) (hlt : q < g.edges.size) :
    (g.join position low high result).edges[q]? =
      some ⟨operator q, q, Function.update holder low g.nodes.size a,
        Function.update holder low g.nodes.size (q + 1), false⟩ := by
  have hne : q ≠ position := fun heq => hs.not_mem_after hlt (heq ▸ List.mem_cons_self ..)
  have hsucc : (if low = q + 1 then g.nodes.size else holder (q + 1)) =
      Function.update holder low g.nodes.size (q + 1) := by
    by_cases hq : low = q + 1
    · rw [if_pos hq, ← hq, Function.update_self]
    · simp [hq, Function.update_of_ne (Ne.symm hq)]
  rcases stretch_cons_cases hleft hright holder g.nodes.size hs with
    ⟨rfl, rfl, hnew⟩ | ⟨hold, -, hne', hsame⟩
  · rw [h.getElem?_edges_join_of_not_mem hright hlt hne, if_pos rfl, hsucc, hnew]
  · have hhigh : high ≠ q := fun heq => hne' (hold.eq_of_high (heq ▸ hright))
    simp [h.getElem?_edges_join_of_not_mem hold hlt hne, hhigh, hsucc, hsame]

/-- Different stretches have different nodes after the contraction. -/
theorem holder_inj_join (h : g.Represents operator done holder)
    (hleft : Stretch g.edges.size done low position)
    (hright : Stretch g.edges.size done (position + 1) high) {a b a' b' : Nat}
    (hs : Stretch g.edges.size (position :: done) a b)
    (hs' : Stretch g.edges.size (position :: done) a' b')
    (heq : Function.update holder low g.nodes.size a =
      Function.update holder low g.nodes.size a') : a = a' := by
  rcases stretch_cons_cases hleft hright holder g.nodes.size hs with
    ⟨rfl, -, hnew⟩ | ⟨hold, -, -, hsame⟩
  · rcases stretch_cons_cases hleft hright holder g.nodes.size hs' with
      ⟨rfl, -, -⟩ | ⟨hold', -, -, hsame'⟩
    · rfl
    · rw [hnew, hsame'] at heq
      have := h.holder_lt hold'
      omega
  · rcases stretch_cons_cases hleft hright holder g.nodes.size hs' with
      ⟨rfl, -, hnew'⟩ | ⟨hold', -, -, hsame'⟩
    · rw [hsame, hnew'] at heq
      have := h.holder_lt hold
      omega
    · rw [hsame, hsame'] at heq
      exact h.holder_inj hold hold' heq

/-- The operands of operators that are done hold nothing after the contraction, either. -/
theorem superseded_join (h : g.Represents operator done holder)
    (hleft : Stretch g.edges.size done low position)
    (hright : Stretch g.edges.size done (position + 1) high) (result : Int) {q : Nat} {edge : Edge}
    {a b : Nat} (hedge : (g.join position low high result).edges[q]? = some edge)
    (hq : q ∈ position :: done) (hs : Stretch g.edges.size (position :: done) a b) :
    edge.left ≠ Function.update holder low g.nodes.size a ∧
      edge.right ≠ Function.update holder low g.nodes.size a := by
  have hlt : q < g.edges.size := by
    have := (Array.getElem?_eq_some_iff.1 hedge).1
    rwa [size_edges_join] at this
  obtain ⟨old, hold⟩ : ∃ old, g.edges[q]? = some old := ⟨_, Array.getElem?_eq_getElem hlt⟩
  rw [h.getElem?_edges_join_of_mem hleft hright result hq hold] at hedge
  cases hedge
  rcases List.mem_cons.1 hq with rfl | hdone
  · -- the operands of the operator itself are the nodes that held the joined stretches
    rw [h.edge hleft hlt] at hold
    cases hold
    rcases stretch_cons_cases hleft hright holder g.nodes.size hs with
      ⟨rfl, -, hnew⟩ | ⟨hs', hne, hne', hsame⟩
    · rw [hnew]
      exact ⟨Nat.ne_of_lt (h.holder_lt hleft), Nat.ne_of_lt (h.holder_lt hright)⟩
    · rw [hsame]
      exact ⟨fun heq => hne (h.holder_inj hleft hs' heq).symm,
        fun heq => hne' (h.holder_inj hright hs' heq).symm⟩
  · rcases stretch_cons_cases hleft hright holder g.nodes.size hs with
      ⟨rfl, -, hnew⟩ | ⟨hs', -, -, hsame⟩
    · have hl : old.left < g.nodes.size := h.inBounds.left_lt hold
      have hr : old.right < g.nodes.size := h.inBounds.right_lt hold
      rw [hnew]
      exact ⟨Nat.ne_of_lt hl, Nat.ne_of_lt hr⟩
    · have hends := h.superseded hold hdone hs'
      rw [hsame]
      exact hends

/-- Every node is an operand of an operator that is done after the contraction, or holds a
stretch. -/
theorem held_join (h : g.Represents operator done holder)
    (hleft : Stretch g.edges.size done low position)
    (hright : Stretch g.edges.size done (position + 1) high) (result : Int) {index : Nat}
    (hindex : index < g.nodes.size + 1) :
    (∃ a b, Stretch g.edges.size (position :: done) a b ∧
        index = Function.update holder low g.nodes.size a) ∨
      ∃ q edge, q ∈ position :: done ∧
        (g.join position low high result).edges[q]? = some edge ∧
        (edge.left = index ∨ edge.right = index) := by
  have hmem : position ∈ position :: done := List.mem_cons_self ..
  have hlt : position < g.edges.size := hright.lt_size
  have hnew := h.getElem?_edges_join_of_mem hleft hright result hmem (h.edge hleft hlt)
  by_cases hfresh : index = g.nodes.size
  · exact Or.inl ⟨low, high, hleft.join hright, by rw [Function.update_self, hfresh]⟩
  · rcases h.held (show index < g.nodes.size by omega) with
      ⟨a, b, hs, rfl⟩ | ⟨q, edge, hq, hedge, hends⟩
    · by_cases ha : a = low
      · exact Or.inr ⟨position, _, hmem, hnew, Or.inl (by rw [ha])⟩
      · by_cases ha' : a = position + 1
        · exact Or.inr ⟨position, _, hmem, hnew, Or.inr (by rw [ha'])⟩
        · refine Or.inl ⟨a, b, (stretch_cons_iff hleft hright).2 (Or.inr ⟨hs, ha, ha'⟩), ?_⟩
          rw [Function.update_of_ne ha]
    · have hq' : q ∈ position :: done := List.mem_cons_of_mem _ hq
      exact Or.inr ⟨q, _, hq', h.getElem?_edges_join_of_mem hleft hright result hq' hedge, hends⟩

/-- **A contraction that succeeds keeps the invariant.**  The two stretches beside the operator
become one, held by the new node. -/
theorem join (h : g.Represents operator done holder)
    (hleft : Stretch g.edges.size done low position)
    (hright : Stretch g.edges.size done (position + 1) high) (result : Int) :
    (g.join position low high result).Represents operator (position :: done)
      (Function.update holder low g.nodes.size) := by
  have hle := hleft.le
  have hle' := hright.le
  have hsize := hright.le_size
  constructor
  case inBounds =>
    refine h.inBounds.splice position ?_ ?_
    · intro neighbour hn
      have := operatorBefore_eq_some_iff.1 hn
      omega
    · intro neighbour hn
      exact (operatorAfter_eq_some_iff.1 hn).2
  case contracted_iff =>
    intro q edge hedge
    rw [Graph.join, getElem?_edges_splice] at hedge
    obtain ⟨old, hold, rfl⟩ := Option.map_eq_some_iff.1 hedge
    simp [Edge.respliced, h.contracted_iff hold, or_comm]
  case node =>
    intro a b hs
    rw [size_edges_join] at hs ⊢
    exact h.node_join hleft hright result hs
  case edge =>
    intro a q hs hlt
    rw [size_edges_join] at hs hlt
    exact h.edge_join hleft hright result hs hlt
  case holder_inj =>
    intro a b a' b' hs hs'
    rw [size_edges_join] at hs hs'
    exact h.holder_inj_join hleft hright hs hs'
  case superseded =>
    intro q edge a b hedge hq hs
    rw [size_edges_join] at hs
    exact h.superseded_join hleft hright result hedge hq hs
  case held =>
    intro index hindex
    rw [Graph.join, nodes_splice, Array.size_push] at hindex
    rw [size_edges_join]
    exact h.held_join hleft hright result hindex

end Contract

end Represents

end Graph

end OperatorChain
