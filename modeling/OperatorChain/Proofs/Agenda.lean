import OperatorChain.Proofs.Heap
import OperatorChain.Proofs.LiveChain
import OperatorChain.Run

/-!
# Which operator an agenda calls for

Both agendas call for the same operator: among those that are pending, the one that comes first by
priority.  The one looks for it in the graph, the other takes it out of its heap, which always holds
exactly what is pending.

* `Chain.First` — an operator of a chain, with its operands, that no other one comes before.
* `Represents.pending_eq` — what is pending in a graph, read off the chain of its stretches.
* `Agenda.Holds` — the agenda knows what is pending.
* `Agenda.Holds.next?_eq` — what it calls for, and that it stays right once that is done.
-/

namespace OperatorChain

/-! ## The first operator of a chain -/

namespace Chain

variable {α β : Type} {c : Chain α} {position : Nat} {left right : α} {operator : Operator}

/-- The operator at `position` comes before all others of the chain, and stands between `left` and
`right`. -/
structure First (c : Chain α) (position : Nat) (left : α) (operator : Operator) (right : α) :
    Prop where
  around : c.around? position = some (left, operator, right)
  le : ∀ other ∈ c.priorities, ⟨operator.weight, position⟩ ≤ other

theorem First.map (h : c.First position left operator right) (f : α → β) :
    (c.map f).First position (f left) operator (f right) := by
  constructor
  · simp [around?_map, h.around]
  · simpa using h.le

theorem First.mem_priorities (h : c.First position left operator right) :
    ⟨operator.weight, position⟩ ∈ c.priorities :=
  (perm_priorities_splice h.around left).mem_iff.2 (List.mem_cons_self ..)

/-- A chain with operators has a first one. -/
theorem exists_first (hnodup : c.positions.Nodup) (h : c.priorities ≠ []) :
    ∃ position left operator right, c.First position left operator right := by
  obtain ⟨first, hfirst⟩ := Option.isSome_iff_exists.1 (List.isSome_min?_iff.2 h)
  obtain ⟨hmem, hle⟩ := List.min?_eq_some_iff.1 hfirst
  obtain ⟨left, operator, right, haround, heq⟩ := exists_around?_of_mem_priorities hnodup hmem
  refine ⟨first.position, left, operator, right, haround, ?_⟩
  rwa [← heq]

end Chain

namespace Graph

/-! ## What is pending -/

/-- What is pending among the first edges of a graph is what the chain up to there has. -/
theorem Represents.pending_take {g : Graph} {operator : Nat → Operator} {done : List Nat}
    {holder : Nat → Nat} (h : g.Represents operator done holder) {literal : Nat}
    (hle : literal ≤ g.edges.size) :
    ((g.edges.toList.take literal).filter fun edge => !edge.contracted).map Edge.priority =
      (stretchChain holder operator done literal).priorities := by
  induction literal with
  | zero => rfl
  | succ q ih =>
    have hlt : q < g.edges.size := hle
    rw [List.take_add_one, List.filter_append, List.map_append, ih (by omega),
      Array.getElem?_toList]
    by_cases hq : q ∈ done
    · have hedge := Array.getElem?_eq_getElem hlt
      have hc := (h.contracted_iff hedge).2 hq
      simp [stretchChain, hq, hedge, hc]
    · have hedge := h.edge (stretch_of_not_mem hlt hq) hlt
      simp [stretchChain, hq, hedge, Chain.priorities, Edge.priority, Edge.weight]

/-- **What is pending in a graph are the operators of its chain.** -/
theorem Represents.pending_eq {g : Graph} {operator : Nat → Operator} {done : List Nat}
    {holder : Nat → Nat} (h : g.Represents operator done holder) :
    g.pending = (stretchChain holder operator done g.edges.size).priorities := by
  rw [← h.pending_take (Nat.le_refl _), pending, ← Array.length_toList, List.take_length]

end Graph

/-! ## Agendas -/

namespace Agenda

/-- The agenda knows what is pending in the graph. -/
def Holds (g : Graph) : Agenda → Prop
  | .rescan => True
  | .queued heap => heap.Ordered ∧ heap.toList.Perm g.pending

/-- A run begins with an agenda that knows what is pending. -/
theorem holds_start (strategy : Strategy) (g : Graph) : (start strategy g).Holds g := by
  cases strategy with
  | scan => trivial
  | queue => exact ⟨Heap.ordered_ofList g.pending, Heap.toList_ofList g.pending⟩

theorem Holds.next?_eq_none {agenda : Agenda} {g : Graph} (h : agenda.Holds g)
    (hpending : g.pending = []) : agenda.next? g = none := by
  cases agenda with
  | rescan => simp [next?, hpending]
  | queued heap =>
    have hempty := h.2
    rw [hpending, List.perm_nil] at hempty
    simp [next?, Heap.popMin?_eq_none_iff.2 hempty]

/-- **What an agenda calls for** is the pending operator that comes first.  Once that one is no
longer pending, what is left of the agenda knows what is. -/
theorem Holds.next?_eq {agenda : Agenda} {g : Graph} {first : Priority} (h : agenda.Holds g)
    (hmem : first ∈ g.pending) (hle : ∀ other ∈ g.pending, first ≤ other) :
    ∃ agenda', agenda.next? g = some (first.position, agenda') ∧
      ∀ g' : Graph, g.pending.Perm (first :: g'.pending) → agenda'.Holds g' := by
  cases agenda with
  | rescan =>
    have hmin : g.pending.min? = some first := List.min?_eq_some_iff.2 ⟨hmem, hle⟩
    refine ⟨.rescan, ?_, fun _ _ => trivial⟩
    simp [next?, hmin]
  | queued heap =>
    obtain ⟨hordered, hperm⟩ := h
    cases hpop : heap.popMin? with
    | none =>
      rw [Heap.popMin?_eq_none_iff.1 hpop] at hperm
      rw [List.nil_perm.1 hperm] at hmem
      exact absurd hmem List.not_mem_nil
    | some popped =>
      obtain ⟨least, rest⟩ := popped
      obtain ⟨hrest, hleast, hordered'⟩ := hordered.popMin? hpop
      -- both are least among the same operators, so they are one
      have heq : least = first := by
        refine Priority.le_antisymm (hleast first (hperm.mem_iff.2 hmem)) (hle least ?_)
        exact hperm.mem_iff.1 (hrest.mem_iff.2 (List.mem_cons_self ..))
      subst heq
      refine ⟨.queued rest, ?_, ?_⟩
      · simp [next?, hpop]
      · intro g' hg'
        exact ⟨hordered', (hrest.symm.trans (hperm.trans hg')).cons_inv⟩

end Agenda

end OperatorChain
