import Mathlib.Data.List.Nodup
import Mathlib.Data.List.Sort
import Mathlib.Order.Nat
import OperatorChain.Proofs.Chain
import OperatorChain.Proofs.Represents

/-!
# The live chain of a graph

The nodes of a graph that have not been used up, and the operators that have not been done, are one
chain: each operator names the nodes on its two sides, each node names the operators on its two
sides, and the two ends name nothing.

* `Graph.Live` — the nodes that no operator done had as an operand.
* `Graph.IsLiveChain` — a chain of nodes that is linked in the graph both ways, made up of live
  nodes and of exactly the pending operators.
* `Represents.isLiveChain` — a graph that represents stretches has such a chain: the one of the
  nodes that hold them.
* `Represents.eq_of_isLiveChain` — and it has no other.
-/

namespace OperatorChain

namespace Graph

/-- The node is stored, and no operator that is done had it as an operand. -/
def Live (g : Graph) (index : Nat) : Prop :=
  index < g.nodes.size ∧ ∀ {q : Nat} {edge : Edge}, g.edges[q]? = some edge →
    edge.contracted = true → edge.left ≠ index ∧ edge.right ≠ index

/-- The nodes of the chain and the pending operators between them name each other; the first node
has no operator on its left, and the last one has `right` on its right. -/
def Linked (g : Graph) : Chain Nat → (right : Option Nat) → Prop
  | .single x, right => ∃ value, g.nodes[x]? = some ⟨value, none, right⟩
  | .snoc front q operator x, right =>
    g.Linked front (some q) ∧ g.edges[q]? = some ⟨operator, q, front.last, x, false⟩ ∧
      ∃ value, g.nodes[x]? = some ⟨value, some q, right⟩

/-- A chain of distinct live nodes, linked both ways, with exactly the pending operators between
them in increasing order. -/
structure IsLiveChain (g : Graph) (c : Chain Nat) : Prop where
  linked : g.Linked c none
  nodup : c.operands.Nodup
  live : ∀ {x : Nat}, x ∈ c.operands → g.Live x
  increasing : c.positions.Pairwise (· < ·)
  mem_positions : ∀ {q : Nat}, q ∈ c.positions ↔
    ∃ edge, g.edges[q]? = some edge ∧ edge.contracted = false

/-! ## Links determine the chain -/

theorem Linked.getElem?_last {g : Graph} {c : Chain Nat} {right : Option Nat}
    (h : g.Linked c right) : ∃ value left, g.nodes[c.last]? = some ⟨value, left, right⟩ := by
  cases c with
  | single x =>
    obtain ⟨value, hx⟩ := h
    exact ⟨value, none, hx⟩
  | snoc front q operator x =>
    obtain ⟨-, -, value, hx⟩ := h
    exact ⟨value, some q, hx⟩

/-- Two linked chains with the same operators and the same last node are one. -/
theorem Linked.eq_of_positions {g : Graph} {c c' : Chain Nat} {right right' : Option Nat}
    (h : g.Linked c right) (h' : g.Linked c' right') (hpos : c.positions = c'.positions)
    (hlast : c.last = c'.last) : c = c' := by
  induction c generalizing c' right right' with
  | single x =>
    cases c' with
    | single x' => exact congrArg Chain.single hlast
    | snoc front' q' operator' x' => simp [Chain.positions] at hpos
  | snoc front q operator x ih =>
    cases c' with
    | single x' => simp [Chain.positions] at hpos
    | snoc front' q' operator' x' =>
      obtain ⟨hfront, hq⟩ := List.append_inj' hpos rfl
      cases hq
      obtain ⟨hl, hedge, -⟩ := h
      obtain ⟨hl', hedge', -⟩ := h'
      rw [hedge] at hedge'
      obtain ⟨rfl, -, hfrontLast, rfl, -⟩ := Edge.mk.inj (Option.some.inj hedge')
      rw [ih hl hl' hfront hfrontLast]

/-! ## Pending operators are tied to the chain -/

theorem Linked.mem_operands {g : Graph} {c : Chain Nat} {next : Option Nat} (h : g.Linked c next)
    {q : Nat} (hq : q ∈ c.positions) {edge : Edge} (hedge : g.edges[q]? = some edge) :
    edge.left ∈ c.operands ∧ edge.right ∈ c.operands := by
  induction c generalizing next with
  | single x => exact absurd hq (by simp [Chain.positions])
  | snoc front p operator x ih =>
    obtain ⟨hfront, hp, -⟩ := h
    simp only [Chain.operands, List.mem_append, List.mem_singleton]
    rcases List.mem_append.1 hq with hq | hq
    · obtain ⟨hl, hr⟩ := ih hfront hq
      exact ⟨Or.inl hl, Or.inl hr⟩
    · rw [← List.mem_singleton.1 hq, hedge] at hp
      cases hp
      exact ⟨Or.inl front.last_mem_operands, Or.inr rfl⟩

/-- Pending operators have live operands. -/
theorem IsLiveChain.live_of_pending {g : Graph} {c : Chain Nat} (h : g.IsLiveChain c) {q : Nat}
    {edge : Edge} (hedge : g.edges[q]? = some edge) (hc : edge.contracted = false) :
    g.Live edge.left ∧ g.Live edge.right := by
  have hq := h.mem_positions.2 ⟨edge, hedge, hc⟩
  obtain ⟨hl, hr⟩ := h.linked.mem_operands hq hedge
  exact ⟨h.live hl, h.live hr⟩

/-! ## The chain of the stretches -/

namespace Represents

variable {g : Graph} {operator : Nat → Operator} {done : List Nat} {holder : Nat → Nat}

/-- The node that holds a stretch is live. -/
theorem live_holder (h : g.Represents operator done holder) {low high : Nat}
    (hs : Stretch g.edges.size done low high) : g.Live (holder low) :=
  ⟨h.holder_lt hs, fun hedge hc => h.superseded hedge ((h.contracted_iff hedge).1 hc) hs⟩

/-- A live node holds a stretch. -/
theorem exists_stretch_of_live (h : g.Represents operator done holder) {x : Nat} (hx : g.Live x) :
    ∃ low high, Stretch g.edges.size done low high ∧ x = holder low := by
  rcases h.held hx.1 with hheld | ⟨q, edge, hq, hedge, hends⟩
  · exact hheld
  · obtain ⟨hl, hr⟩ := hx.2 hedge ((h.contracted_iff hedge).2 hq)
    rcases hends with heq | heq
    · exact absurd heq hl
    · exact absurd heq hr

/-- The operators that are not done are the pending ones of the graph. -/
theorem pending_iff (h : g.Represents operator done holder) {q : Nat} :
    (∃ edge, g.edges[q]? = some edge ∧ edge.contracted = false) ↔
      q < g.edges.size ∧ q ∉ done := by
  constructor
  · rintro ⟨edge, hedge, hc⟩
    refine ⟨(Array.getElem?_eq_some_iff.1 hedge).1, fun hq => ?_⟩
    rw [(h.contracted_iff hedge).2 hq] at hc
    cases hc
  · rintro ⟨hlt, hq⟩
    exact ⟨_, h.edge (stretch_of_not_mem hlt hq) hlt, rfl⟩

/-- The nodes that hold the stretches up to a literal are linked. -/
theorem linked_stretchChain (h : g.Represents operator done holder) {literal high : Nat}
    (hs : Stretch g.edges.size done (stretchStart done literal) high) (hle : literal ≤ high) :
    g.Linked (stretchChain holder operator done literal) (operatorAfter g.edges.size high) := by
  -- the induction is on the literal; the last node is tied to where the literal's stretch ends
  induction literal generalizing high with
  | zero => exact h.node hs
  | succ q ih =>
    have hsize := hs.le_size
    by_cases hq : q ∈ done
    · rw [stretchStart, if_pos hq] at hs
      rw [stretchChain, if_pos hq]
      exact ih hs (by omega)
    · have hlt : q < g.edges.size := by omega
      have hbefore := stretch_of_not_mem hlt hq
      rw [stretchStart, if_neg hq] at hs
      rw [stretchChain, if_neg hq]
      refine ⟨?_, ?_, h.node hs⟩
      · rw [← operatorAfter_of_lt hlt]
        exact ih hbefore (Nat.le_refl q)
      · rw [last_stretchChain]
        exact h.edge hbefore hlt

/-- Each node of the chain holds a stretch that begins no later than the chain ends. -/
theorem exists_stretch_of_operand {literal x : Nat} (hle : literal ≤ g.edges.size)
    (hx : x ∈ (stretchChain holder operator done literal).operands) :
    ∃ low high, low ≤ literal ∧ Stretch g.edges.size done low high ∧ x = holder low := by
  obtain ⟨low, hlow, hstart, rfl⟩ := exists_of_mem_operands_stretchChain hx
  obtain ⟨high, hs⟩ := exists_stretch_from (Nat.le_trans hlow hle) hstart
  exact ⟨low, high, hlow, hs, rfl⟩

theorem nodup_operands_stretchChain (h : g.Represents operator done holder) {literal : Nat}
    (hle : literal ≤ g.edges.size) :
    (stretchChain holder operator done literal).operands.Nodup := by
  induction literal with
  | zero => exact List.nodup_singleton _
  | succ q ih =>
    have hqle : q ≤ g.edges.size := by omega
    have hfront := ih hqle
    by_cases hq : q ∈ done
    · rwa [stretchChain, if_pos hq]
    · rw [stretchChain, if_neg hq, Chain.operands]
      refine hfront.append (List.nodup_singleton _) ?_
      intro x hx hx'
      obtain ⟨low, high, hlow, hs, rfl⟩ := exists_stretch_of_operand hqle hx
      obtain ⟨high', hs'⟩ := exists_stretch_succ hle hq
      have := h.holder_inj hs hs' (List.mem_singleton.1 hx')
      omega

/-- **A graph that represents stretches has a live chain.** -/
theorem isLiveChain (h : g.Represents operator done holder) :
    g.IsLiveChain (stretchChain holder operator done g.edges.size) := by
  constructor
  case linked =>
    have hlinked := h.linked_stretchChain (stretch_size g.edges.size done) (Nat.le_refl _)
    rwa [operatorAfter_self] at hlinked
  case nodup => exact h.nodup_operands_stretchChain (Nat.le_refl _)
  case live =>
    intro x hx
    obtain ⟨low, high, -, hs, rfl⟩ := exists_stretch_of_operand (Nat.le_refl _) hx
    exact h.live_holder hs
  case increasing =>
    rw [positions_stretchChain]
    exact List.pairwise_lt_range.filter _
  case mem_positions =>
    intro q
    rw [h.pending_iff, positions_stretchChain]
    simp

/-- **A graph that represents stretches has only one live chain.**  The operators of a live chain
are the pending ones, and its last node is the live one with nothing on its right. -/
theorem eq_of_isLiveChain (h : g.Represents operator done holder) {c : Chain Nat}
    (hc : g.IsLiveChain c) : c = stretchChain holder operator done g.edges.size := by
  have hown := h.isLiveChain
  refine hc.linked.eq_of_positions hown.linked ?_ ?_
  · refine hc.increasing.eq_of_mem_iff hown.increasing ?_
    intro q
    simp [hc.mem_positions, hown.mem_positions]
  · obtain ⟨low, high, hs, hlast⟩ := h.exists_stretch_of_live (hc.live c.last_mem_operands)
    obtain ⟨value, left, hnode⟩ := hc.linked.getElem?_last
    rw [hlast, h.getElem?_nodes_holder hs] at hnode
    have hright : operatorAfter g.edges.size high = none :=
      (Node.mk.inj (Option.some.inj hnode)).2.2
    have hhigh : high = g.edges.size := by
      have hle := hs.le_size
      unfold operatorAfter at hright
      split at hright
      · cases hright
      · omega
    subst hhigh
    simp [hlast, last_stretchChain, hs.eq_of_high (stretch_size g.edges.size done)]

end Represents

end Graph

end OperatorChain
