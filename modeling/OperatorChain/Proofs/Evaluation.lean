import OperatorChain.Proofs.Progress
import OperatorChain.Proofs.TwoPass

/-!
# What an evaluation answers

A run contracts operator by operator, in place, and never sees a term.  Its answer is that of the
two passes all the same: at every turn, the answer for the chain that is left is the answer for the
whole.

* `Shows.value_eq` — carrying a run to its end answers for the chain that it shows.
* `Shows.steps_eq` — and its steps are the operations of the two passes.
* `evaluateText_eq_reference` — what the value of a text is.
-/

namespace OperatorChain

namespace Run

/-- **A run answers for its chain**, if it may have as many turns as the chain has operators. -/
theorem Shows.value_eq {run : Run} {c : Chain Nat} {total : Int} {limit : Nat} (h : run.Shows c)
    (hlimit : c.size ≤ limit)
    (htotal : c.size = 0 → (c.map run.graph.valueAt).reference = .ok total) :
    run.value total limit = (c.map run.graph.valueAt).reference := by
  induction limit generalizing run c total with
  | zero => exact (htotal (by omega)).symm
  | succ limit ih =>
    have hinc := h.graph.isLiveChain.increasing
    rw [← Chain.positions_map run.graph.valueAt c] at hinc
    rw [value]
    rcases h.next_cases with ⟨hempty, hnext⟩ | ⟨position, left, operator, right, hfirst,
      ⟨error, agenda, happly, hnext⟩ | ⟨result, run', happly, hnext, hshows, hvalues, -⟩⟩
    · rw [hnext]
      exact (htotal (Chain.priorities_eq_nil_iff.1 hempty)).symm
    · simp [hnext, Chain.reference_of_first hinc (hfirst.map _), happly]
    · have hsize := Chain.size_splice hfirst.around run.graph.nodes.size
      rw [hnext, Chain.reference_of_first hinc (hfirst.map _), happly]
      show run'.value result limit = ((c.map run.graph.valueAt).splice position result).reference
      rw [← hvalues]
      refine ih hshows (by omega) fun hzero => ?_
      -- the last operator was spliced, and its result is all that is left
      rw [Chain.splice_eq_single hfirst.around hzero] at hvalues ⊢
      rw [hvalues, Chain.splice_eq_single (hfirst.map _).around (by rw [← hvalues]; rfl)]
      rfl

/-- **The steps of a run are the operations of its chain**, if all of them can be done. -/
theorem Shows.steps_eq {run : Run} {c : Chain Nat} {limit : Nat} (h : run.Shows c)
    (hlimit : c.size ≤ limit) : run.steps limit = (c.map run.graph.valueAt).referenceSteps := by
  have hnone : ∀ {run : Run} {c : Chain Nat}, c.size = 0 →
      .ok [] = (c.map run.graph.valueAt).referenceSteps := by
    intro run c hsize
    cases c with
    | single x => rfl
    | snoc front q operator x => cases hsize
  induction limit generalizing run c with
  | zero => exact hnone (by omega)
  | succ limit ih =>
    have hinc := h.graph.isLiveChain.increasing
    rw [← Chain.positions_map run.graph.valueAt c] at hinc
    unfold steps
    rcases h.next_cases with ⟨hempty, hnext⟩ | ⟨position, left, operator, right, hfirst,
      ⟨error, agenda, happly, hnext⟩ | ⟨result, run', happly, hnext, hshows, hvalues, -⟩⟩
    · rw [hnext]
      exact hnone (Chain.priorities_eq_nil_iff.1 hempty)
    · simp [hnext, Chain.referenceSteps_of_first hinc (hfirst.map _), happly]
    · have hsize := Chain.size_splice hfirst.around run.graph.nodes.size
      rw [hnext, Chain.referenceSteps_of_first hinc (hfirst.map _), happly]
      show (run'.steps limit).map _ =
        ((c.map run.graph.valueAt).splice position result).referenceSteps.map _
      rw [ih hshows (by omega), hvalues]

end Run

namespace Calculation

/-- **The value of a calculation** is the answer of the two passes. -/
theorem value_eq_reference {strategy : Strategy} {text : List Char} {e : Chain Int}
    (he : Chain.ofText? text = some e) : value ⟨.layout e true, strategy⟩ = e.reference := by
  obtain ⟨c, hc, hvalues⟩ := exists_shows_start strategy he
  have hsize : c.size = e.size := by rw [← hvalues, Chain.size_map]
  have hlimit : c.size ≤ limit ⟨.layout e true, strategy⟩ := by
    simp [hsize, limit]
  rw [value, hc.value_eq hlimit, start, Run.start, hvalues]
  -- a single literal is its own value
  intro hzero
  rw [start, Run.start, hvalues]
  cases e with
  | single a => rfl
  | snoc front q operator a =>
    rw [hzero] at hsize
    cases hsize

/-- **The steps of a calculation** are the steps of the two passes. -/
theorem steps_eq_referenceSteps {strategy : Strategy} {text : List Char} {e : Chain Int}
    (he : Chain.ofText? text = some e) : steps ⟨.layout e true, strategy⟩ = e.referenceSteps := by
  obtain ⟨c, hc, hvalues⟩ := exists_shows_start strategy he
  have hlimit : c.size ≤ limit ⟨.layout e true, strategy⟩ := by
    rw [← Chain.size_map (Graph.layout e true).valueAt c, hvalues, limit, Graph.size_edges_layout]
  rw [steps, hc.steps_eq hlimit, start, Run.start, hvalues]

end Calculation

/-- The value of a text that reads as an expression is the answer of the two passes. -/
theorem evaluateText_of_ofText? {text : List Char} {e : Chain Int}
    (he : Chain.ofText? text = some e) (strategy : Strategy) :
    evaluateText strategy text = e.reference.mapError .contraction := by
  rw [evaluateText, Calculation.ofText_eq_ok_iff.2 ⟨e, he, rfl⟩]
  dsimp only
  rw [Calculation.value_eq_reference he]
  cases e.reference <;> rfl

/-- **What the value of a text is.**  If a graph can be built of the text, then its literals and
operators make up an expression, numbered from left to right, and the value of the text is what the
two passes over this expression answer, with either strategy. -/
theorem evaluateText_eq_reference {text : List Char} {g : Graph} (h : Graph.ofText text = .ok g)
    (strategy : Strategy) :
    ∃ e : Chain Int, e.Numbered ∧ e.operands = g.nodes.toList.map Node.value ∧
      e.operators = g.edges.toList.map Edge.operator ∧
      evaluateText strategy text = e.reference.mapError .contraction := by
  obtain ⟨e, he, rfl⟩ := Graph.ofText_eq_ok_iff.1 h
  exact ⟨e, Chain.numbered_of_ofText? he, (Graph.map_value_nodes_layout e true).symm,
    (Graph.map_operator_edges_layout e true).symm, evaluateText_of_ofText? he strategy⟩

/-- The product is done before the difference that it is taken away in. -/
theorem evaluateText_eq_reference_product :
    ∃ g, Graph.ofText "8 - 4 * 2".toList = .ok g ∧
      evaluateText .queue "8 - 4 * 2".toList = .ok 0 ∧
      ∃ e : Chain Int, e.Numbered ∧ e.operands = g.nodes.toList.map Node.value ∧
        e.operators = g.edges.toList.map Edge.operator ∧
        evaluateText .queue "8 - 4 * 2".toList = e.reference.mapError .contraction := by
  have hg : Graph.ofText "8 - 4 * 2".toList =
      .ok (.layout (((Chain.single 8).snoc 0 .subtract 4).snoc 1 .multiply 2) true) := rfl
  exact ⟨_, hg, rfl, evaluateText_eq_reference hg .queue⟩

end OperatorChain
