import OperatorChain.Proofs.Evaluation
import OperatorChain.Proofs.Record

/-!
# Runs carried to their end

A run contracts what is pending in the order of priority, so the operators have their turns in the
order that is known from the start.  If the evaluation succeeds, then after as many turns as there
are operators nothing is pending, no later turn does anything, and the graph that is left is the
record of the whole evaluation.

* `Graph.remaining` — the pending operators in the order in which their turns come.
* `Shows.next_contracts` — a turn that succeeds contracts the first of them.
* `Shows.reaches_logs` — turns that succeed follow this order, and all of them are on the log.
* `Run.after`, `Shows.exists_reaches_after` — a run whose evaluation succeeds, carried to its end.
* `Run.value_eq_map_steps` — the value is the result of the last step.
* `Calculation.after_records` — the graph that is left.
-/

namespace OperatorChain

/-! ## What is still to come -/

theorem Priority.pairwise_mergeSort (priorities : List Priority) :
    (priorities.mergeSort fun a b => decide (a ≤ b)).Pairwise (· ≤ ·) := by
  have htrans : ∀ a b c : Priority, decide (a ≤ b) = true → decide (b ≤ c) = true →
      decide (a ≤ c) = true := by
    simp only [decide_eq_true_eq]
    exact fun _ _ _ => Priority.le_trans
  have htotal : ∀ a b : Priority, (decide (a ≤ b) || decide (b ≤ a)) = true := by
    simp only [Bool.or_eq_true, decide_eq_true_eq]
    exact Priority.le_total
  exact (List.pairwise_mergeSort htrans htotal priorities).imp of_decide_eq_true

/-- The one that comes before all others comes first when they are sorted. -/
theorem Priority.mergeSort_eq_cons {first : Priority} {all others : List Priority}
    (hperm : all.Perm (first :: others)) (hle : ∀ other ∈ all, first ≤ other) :
    (all.mergeSort fun a b => decide (a ≤ b)) =
      first :: others.mergeSort fun a b => decide (a ≤ b) := by
  have hothers : (others.mergeSort fun a b => decide (a ≤ b)).Perm others := List.mergeSort_perm ..
  have hsorted : (first :: others.mergeSort fun a b => decide (a ≤ b)).Pairwise (· ≤ ·) := by
    refine List.pairwise_cons.2 ⟨fun other hmem => hle other ?_, Priority.pairwise_mergeSort others⟩
    exact hperm.mem_iff.2 (List.mem_cons_of_mem _ (hothers.mem_iff.1 hmem))
  refine List.Perm.eq_of_pairwise (fun a b _ _ => Priority.le_antisymm)
    (Priority.pairwise_mergeSort all) hsorted ?_
  exact ((List.mergeSort_perm ..).trans hperm).trans (hothers.symm.cons first)

/-- The positions of the pending operators in the order in which they will be contracted. -/
def Graph.remaining (g : Graph) : List Nat :=
  (g.pending.mergeSort fun a b => decide (a ≤ b)).map Priority.position

/-- At the start, everything is still to come. -/
theorem Graph.remaining_layout (c : Chain Int) :
    (layout c true).remaining = (layout c true).order := by
  have hpending : ∀ edge ∈ (layout c true).edges.toList, (!edge.contracted) = true := by
    intro edge hmem
    rw [contracted_eq_false_of_mem_layout hmem]
    rfl
  rw [remaining, pending, order, List.filter_eq_self.2 hpending]

/-- The priority of the operator at a position. -/
def Graph.priorityAt (g : Graph) (position : Nat) : Priority :=
  ⟨(g.operatorAt position).weight, position⟩

theorem Graph.map_priority_layout (c : Chain Int) :
    (layout c true).edges.toList.map Edge.priority =
      (List.range (layout c true).edges.size).map (layout c true).priorityAt := by
  refine List.ext_getElem? fun q => ?_
  rw [List.getElem?_map, List.getElem?_map, Array.getElem?_toList, size_edges_layout]
  by_cases hq : q < c.size
  · rw [getElem?_edges_layout_of_lt hq, List.getElem?_range hq]
    rfl
  · rw [Array.getElem?_eq_none (by simpa using hq), List.getElem?_eq_none (by simpa using hq)]
    rfl

/-- Every operator of a layout has its turn once. -/
theorem Graph.perm_order_layout (c : Chain Int) :
    (layout c true).order.Perm (List.range (layout c true).edges.size) := by
  have hperm := (List.mergeSort_perm ((layout c true).edges.toList.map Edge.priority)
    fun a b => decide (a ≤ b)).map Priority.position
  rw [map_priority_layout, List.map_map] at hperm
  rw [order, map_priority_layout]
  exact hperm.trans (.of_eq (List.map_id' _))

/-- A single node is the first one and the last one. -/
theorem Graph.firstValue_eq_last {g : Graph} (h : g.nodes.size = 1) :
    g.firstValue = g.valueAt (g.nodes.size - 1) := by
  rw [h]
  rfl

/-! ## Turns that succeed -/

namespace Run

/-- A turn that succeeds is a contraction that succeeds. -/
theorem contract_of_next {run run' : Run} {step : Step}
    (h : run.next = (some (.ok step), run')) :
    run.graph.contract step.position = (.ok step, run'.graph) := by
  unfold next at h
  split at h
  · cases h
  · split at h
    · cases h
    · split at h
      · next hcontract =>
        cases h
        rw [(Graph.contract_ok hcontract).1, hcontract]
      · cases h

/-- **A turn that succeeds contracts the first of what is still to come.** -/
theorem Shows.next_contracts {run run' : Run} {c : Chain Nat} {step : Step} (h : run.Shows c)
    (hnext : run.next = (some (.ok step), run')) :
    (∃ c', run'.Shows c') ∧
      (∃ edge, run.graph.edges[step.position]? = some edge ∧ edge.contracted = false) ∧
      run.graph.remaining = step.position :: run'.graph.remaining := by
  obtain ⟨left, operator, right, hfirst, -, hshows, -⟩ := h.next_ok hnext
  refine ⟨⟨_, hshows⟩, ?_, ?_⟩
  · exact h.graph.isLiveChain.mem_positions.1 (Chain.mem_positions_of_around? hfirst.around)
  · have hperm := Chain.perm_priorities_splice hfirst.around run.graph.nodes.size
    have hle := hfirst.le
    rw [← h.graph.pending_eq, ← hshows.graph.pending_eq] at hperm
    rw [← h.graph.pending_eq] at hle
    rw [Graph.remaining, Priority.mergeSort_eq_cons hperm hle]
    rfl

/-- **Turns that succeed follow the order of priority, and all of them are on the log.** -/
theorem Shows.reaches_logs {start : Graph} {run run' : Run} {c : Chain Nat} {steps : List Step}
    {holder : Nat → Nat} (h : run.Shows c) (hlogs : start.Logs run.graph [] holder)
    (hr : run.Reaches steps run') :
    (∃ c', run'.Shows c') ∧
      (∃ holder', start.Logs run'.graph (steps.map Step.position) holder') ∧
      steps.map Step.position ++ run'.graph.remaining = run.graph.remaining := by
  induction hr with
  | refl => exact ⟨⟨c, h⟩, ⟨holder, hlogs⟩, rfl⟩
  | @next steps run₁ run₂ step _ hnext ih =>
    obtain ⟨⟨c₁, h₁⟩, ⟨holder₁, hlogs₁⟩, hremaining⟩ := ih
    obtain ⟨hshows, ⟨edge, hedge, hpending⟩, hfirst⟩ := h₁.next_contracts hnext
    obtain ⟨hlt, hnot⟩ := hlogs₁.follows.represents.pending_iff.1 ⟨edge, hedge, hpending⟩
    rw [List.mem_reverse] at hnot
    rw [List.map_append, List.map_singleton]
    refine ⟨hshows, hlogs₁.contract hlt hnot (contract_of_next hnext), ?_⟩
    rw [List.append_assoc, List.singleton_append, ← hfirst, hremaining]

/-- Where a turn does nothing, nothing is to come. -/
theorem Shows.remaining_eq_nil {run : Run} {c : Chain Nat} (h : run.Shows c)
    (hnext : run.next = (none, run)) : run.graph.remaining = [] := by
  rcases h.next_cases with ⟨hempty, -⟩ | ⟨position, left, operator, right, -,
    ⟨error, agenda, -, heq⟩ | ⟨result, run', -, heq, -⟩⟩
  · simp [Graph.remaining, h.graph.pending_eq, hempty]
  · rw [heq] at hnext
    cases hnext
  · rw [heq] at hnext
    cases hnext

/-! ## Runs to the end -/

/-- The run after so many turns. -/
def after : (count : Nat) → Run → Run
  | 0, run => run
  | count + 1, run => after count run.next.2

theorem after_add (count more : Nat) (run : Run) :
    run.after (count + more) = (run.after count).after more := by
  induction count generalizing run with
  | zero => rw [Nat.zero_add, after]
  | succ count ih => rw [Nat.add_right_comm, after, after, ih]

/-- Where nothing happens any more, nothing happens ever after. -/
theorem after_eq_self {run : Run} (h : run.next = (none, run)) (count : Nat) :
    run.after count = run := by
  induction count with
  | zero => rfl
  | succ count ih => rw [after, h, ih]

/-- The result of the last step, and `total` if there is none. -/
def lastResult (total : Int) (steps : List Step) : Int :=
  (steps.getLast?.map Step.result).getD total

theorem lastResult_cons (total : Int) (step : Step) (steps : List Step) :
    lastResult total (step :: steps) = lastResult step.result steps := by
  cases steps with
  | nil => rfl
  | cons next rest => simp [lastResult, List.getLast?_cons]

/-- **The value is the result of the last step**, and fails where the steps do. -/
theorem value_eq_map_steps (total : Int) (limit : Nat) (run : Run) :
    run.value total limit = (run.steps limit).map (lastResult total) := by
  induction limit generalizing run total with
  | zero => rfl
  | succ limit ih =>
    rw [value, steps]
    rcases run.next with ⟨_ | _ | step, run'⟩
    · rfl
    · rfl
    · dsimp only
      rw [ih]
      cases run'.steps limit with
      | error error => rfl
      | ok steps => exact congrArg Except.ok (lastResult_cons total step steps).symm

/-- What is reached after a turn that succeeds is reached from before it. -/
theorem Reaches.cons {run run₁ run₂ : Run} {step : Step} {steps : List Step}
    (hnext : run.next = (some (.ok step), run₁)) (hr : run₁.Reaches steps run₂) :
    run.Reaches (step :: steps) run₂ := by
  induction hr with
  | refl => exact .next .refl hnext
  | next _ hlast ih => exact .next ih hlast

/-- **A run whose evaluation succeeds reaches its end** by turns that succeed, if it may have as
many as its chain has operators.  The value is the result of the last one. -/
theorem Shows.exists_reaches_after {run : Run} {c : Chain Nat} {total v : Int} {limit : Nat}
    (h : run.Shows c) (hlimit : c.size ≤ limit) (hv : run.value total limit = .ok v) :
    (∃ steps, run.Reaches steps (run.after limit) ∧ v = lastResult total steps) ∧
      (run.after limit).next = (none, run.after limit) := by
  induction limit generalizing run c total with
  | zero =>
    cases hv
    refine ⟨⟨[], .refl, rfl⟩, ?_⟩
    rcases h.next_cases with ⟨-, hnext⟩ | ⟨position, left, operator, right, hfirst, -⟩
    · exact hnext
    · have hsize := Chain.size_splice hfirst.around run.graph.nodes.size
      omega
  | succ limit ih =>
    rw [value] at hv
    rcases h.next_cases with ⟨-, hnext⟩ | ⟨position, left, operator, right, hfirst,
      ⟨error, agenda, -, hnext⟩ | ⟨result, run', -, hnext, hshows, -⟩⟩
    · rw [hnext] at hv
      cases hv
      rw [after_eq_self hnext]
      exact ⟨⟨[], .refl, rfl⟩, hnext⟩
    · rw [hnext] at hv
      cases hv
    · rw [hnext] at hv
      have hsize := Chain.size_splice hfirst.around run.graph.nodes.size
      obtain ⟨⟨steps, hr, heq⟩, hend⟩ := ih hshows (by omega) hv
      rw [after, hnext]
      exact ⟨⟨_, .cons hnext hr, by rw [heq, lastResult_cons]⟩, hend⟩

/-- The last result is in the node stored last. -/
theorem Reaches.lastResult_eq {run run' : Run} {steps : List Step} (hr : run.Reaches steps run')
    {total : Int} (htotal : steps = [] → total = run.graph.valueAt (run.graph.nodes.size - 1)) :
    lastResult total steps = run'.graph.valueAt (run'.graph.nodes.size - 1) := by
  cases hr with
  | refl => exact htotal rfl
  | next _ hnext =>
    obtain ⟨-, left, right, hnodes⟩ := Graph.contract_ok (contract_of_next hnext)
    simp [lastResult, Graph.valueAt, hnodes]

end Run

namespace Calculation

/-- **The graph that is left is the record of the evaluation.**  If a text has a value, then a run
with either strategy, after at least as many turns as there are operators, does nothing any more,
and its graph tells everything: two nodes for each operator and one more, all operators contracted,
each node but the last used once, each result from the operands that its edge is tied to, in the
order known from the start, and the expression itself in the tree below the last node, which holds
the value. -/
theorem after_records {strategy : Strategy} {text : List Char} {calculation : Calculation}
    (h : ofText strategy text = .ok calculation) {v : Int} (hv : calculation.value = .ok v)
    {count : Nat} (hcount : calculation.limit ≤ count) :
    let run := calculation.start.after count
    run.next = (none, run) ∧
      calculation.graph.Records calculation.order run.graph ∧
      run.graph.valueAt (2 * calculation.limit) = v := by
  obtain ⟨e, he, rfl⟩ := ofText_eq_ok_iff.1 h
  obtain ⟨c, hc, hvalues⟩ := exists_shows_start strategy he
  have hsize : c.size ≤ limit ⟨.layout e true, strategy⟩ := by
    rw [← Chain.size_map (Graph.layout e true).valueAt c, hvalues, limit, Graph.size_edges_layout]
  obtain ⟨⟨steps, hr, hlast⟩, hend⟩ := hc.exists_reaches_after hsize hv
  obtain ⟨more, rfl⟩ := Nat.exists_eq_add_of_le hcount
  rw [Run.after_add, Run.after_eq_self hend]
  generalize Run.after _ (start ⟨.layout e true, strategy⟩) = run at hr hend ⊢
  obtain ⟨⟨c', hc'⟩, ⟨holder, hlogs⟩, horder⟩ := hc.reaches_logs (Graph.logs_layout e) hr
  rw [hc'.remaining_eq_nil hend, List.append_nil] at horder
  have hremaining : steps.map Step.position = (Graph.layout e true).order := by
    rw [horder, ← Graph.remaining_layout]
    rfl
  rw [hremaining] at hlogs
  have hrecords := hlogs.records (by simp) (Graph.perm_order_layout e)
  refine ⟨hend, hrecords, ?_⟩
  have hfirst : steps = [] → (Graph.layout e true).firstValue =
      (Graph.layout e true).valueAt ((Graph.layout e true).nodes.size - 1) := by
    rintro rfl
    have hlength := (Graph.perm_order_layout e).length_eq
    rw [← hremaining] at hlength
    exact Graph.firstValue_eq_last (by simpa using hlength.symm)
  rw [hlast, hr.lastResult_eq hfirst, hrecords.size_nodes]
  rfl

/-- The product is done before the difference that it is taken away in. -/
theorem after_records_product :
    ∃ calculation, ofText .queue "8 - 4 * 2".toList = .ok calculation ∧
      calculation.value = .ok 0 ∧ calculation.limit ≤ 2 ∧ calculation.order = [1, 0] ∧
      (calculation.start.after 2).next.1 = none ∧
      calculation.graph.Records [1, 0] (calculation.start.after 2).graph ∧
      (calculation.start.after 2).graph.uses = [0, 3, 1, 2] ∧
      (calculation.start.after 2).graph.valueAt 4 = 0 := by
  have hg : ofText .queue "8 - 4 * 2".toList =
      .ok ⟨.layout (((Chain.single 8).snoc 0 .subtract 4).snoc 1 .multiply 2) true, .queue⟩ := rfl
  have hv :
      value ⟨.layout (((Chain.single 8).snoc 0 .subtract 4).snoc 1 .multiply 2) true, .queue⟩ =
        .ok 0 := rfl
  have hsorted := @Priority.mergeSort_eq_cons ⟨2, 1⟩ [⟨1, 0⟩, ⟨2, 1⟩] [⟨1, 0⟩] (by decide)
    (by decide)
  rw [List.mergeSort_singleton] at hsorted
  have horder : order ⟨.layout (((Chain.single 8).snoc 0 .subtract 4).snoc 1 .multiply 2) true,
      .queue⟩ = [1, 0] := congrArg (List.map Priority.position) hsorted
  obtain ⟨hend, hrecords, hvalue⟩ := after_records hg hv (Nat.le_refl 2)
  rw [horder] at hrecords
  exact ⟨_, hg, hv, Nat.le_refl 2, horder, by rw [hend], hrecords, rfl, hvalue⟩

end Calculation

end OperatorChain
