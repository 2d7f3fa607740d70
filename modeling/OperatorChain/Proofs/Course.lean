import OperatorChain.Proofs.Completion
import OperatorChain.Proofs.Renumbering

/-!
# The course of a run

In which order the operators have their turns is known before the first one: `Graph.byWeight` says
it outright, without sorting.  A run has its turns in this order, one answer for each, until all
operators have had theirs or one fails.  Then it stops for good: with a failure it goes no further,
whichever strategy looks for the next operator.

* `Graph.order_layout_eq` — the products and quotients from left to right, and then the sums and
  differences.
* `Run.Stops` — how a run goes no further, and `Shows.exists_stops`: every run gets there.
* `Stops.after` — where it stops, it stops for good.
* `Calculation.Course` — the answers of a run, one after the other, and the graph behind each of
  them.
* `Calculation.exists_course` — every run of a calculation has a course.
-/

namespace OperatorChain

/-! ## Failures -/

/-- An operation that fails, and how. -/
structure Failure where
  fault : Fault
  position : Nat
  deriving DecidableEq, Repr

/-- The error of a failure. -/
def Failure.error (failure : Failure) : ContractionError :=
  failure.fault.at failure.position

/-- The error of the failure if there is one, and else the value. -/
def Failure.outcome {α : Type} (failure? : Option Failure) (value : α) :
    Except ContractionError α :=
  match failure? with
  | none => .ok value
  | some failure => .error failure.error

/-- An operator that cannot be applied fails at its position. -/
theorem Operator.exists_failure_of_apply {op : Operator} {left right : Int} {position : Nat}
    {error : ContractionError} (h : op.apply left right position = .error error) :
    ∃ failure : Failure, failure.position = position ∧ error = failure.error := by
  rw [Operator.apply_eq] at h
  cases hfailure : (Step.exact position op left right).failure? with
  | none =>
    rw [hfailure] at h
    cases h
  | some cause =>
    rw [hfailure] at h
    cases h
    obtain ⟨fault, rfl⟩ := Step.exists_fault_of_failure? hfailure
    exact ⟨⟨fault, position⟩, rfl, rfl⟩

/-! ## The order in which operators have their turns -/

namespace Graph

/-- What comes no later than what: products and quotients before sums and differences, and among
those of one kind the left one before the right one. -/
theorem priorityAt_le_iff {g : Graph} {p q : Nat} :
    g.priorityAt p ≤ g.priorityAt q ↔
      (g.operatorAt p).isSum = false ∧ (g.operatorAt q).isSum = true ∨
        (g.operatorAt p).isSum = (g.operatorAt q).isSum ∧ p ≤ q := by
  rw [priorityAt, priorityAt, Priority.le_def, Operator.weight_eq, Operator.weight_eq]
  cases (g.operatorAt p).isSum <;> cases (g.operatorAt q).isSum <;> simp

/-- The products and quotients from left to right, and then the sums and differences from left to
right. -/
def byWeight (g : Graph) : List Nat :=
  ((List.range g.edges.size).filter fun q => !(g.operatorAt q).isSum) ++
    (List.range g.edges.size).filter fun q => (g.operatorAt q).isSum

theorem perm_byWeight (g : Graph) : g.byWeight.Perm (List.range g.edges.size) :=
  List.perm_append_comm.trans (List.filter_append_perm _ _)

theorem pairwise_byWeight (g : Graph) :
    g.byWeight.Pairwise fun p q => g.priorityAt p ≤ g.priorityAt q := by
  refine List.pairwise_append.2 ⟨?_, ?_, ?_⟩
  · refine (List.pairwise_lt_range.filter _).imp_of_mem fun {p q} hp hq hlt => ?_
    simp only [List.mem_filter, Bool.not_eq_true'] at hp hq
    exact priorityAt_le_iff.2 (.inr ⟨hp.2.trans hq.2.symm, Nat.le_of_lt hlt⟩)
  · refine (List.pairwise_lt_range.filter _).imp_of_mem fun {p q} hp hq hlt => ?_
    simp only [List.mem_filter] at hp hq
    exact priorityAt_le_iff.2 (.inr ⟨hp.2.trans hq.2.symm, Nat.le_of_lt hlt⟩)
  · intro p hp q hq
    simp only [List.mem_filter, Bool.not_eq_true'] at hp hq
    exact priorityAt_le_iff.2 (.inl ⟨hp.2, hq.2⟩)

/-- **The order, said outright.** -/
theorem order_layout_eq (c : Chain Int) : (layout c true).order = (layout c true).byWeight := by
  have hpriorities : ((layout c true).edges.toList.map Edge.priority).mergeSort
      (fun a b => decide (a ≤ b)) = (layout c true).byWeight.map (layout c true).priorityAt := by
    refine List.Perm.eq_of_pairwise (fun a b _ _ => Priority.le_antisymm)
      (Priority.pairwise_mergeSort _) (List.pairwise_map.2 (pairwise_byWeight _)) ?_
    rw [map_priority_layout]
    exact (List.mergeSort_perm ..).trans ((perm_byWeight _).symm.map _)
  rw [order, hpriorities, List.map_map]
  exact List.map_id' _

/-- What has its turn earlier comes no later by priority. -/
theorem priorityAt_le_of_order {c : Chain Int} {before after : List Nat}
    (h : before ++ after = (layout c true).order) {p q : Nat} (hp : p ∈ before) (hq : q ∈ after) :
    (layout c true).priorityAt p ≤ (layout c true).priorityAt q := by
  have hsorted := pairwise_byWeight (layout c true)
  rw [← order_layout_eq, ← h] at hsorted
  exact (List.pairwise_append.1 hsorted).2.2 p hp q hq

end Graph

/-! ## Where a run stops -/

namespace Graph

variable {g : Graph} {c : Chain Nat} {position left right : Nat} {operator : Operator}

/-- An operator of the chain is stored with its operands. -/
theorem Shows.getElem?_edges (h : g.Shows c)
    (haround : c.around? position = some (left, operator, right)) :
    g.edges[position]? = some ⟨operator, position, left, right, false⟩ := by
  obtain ⟨op, done, holder, hrep, rfl⟩ := h
  have hmem := Chain.mem_positions_of_around? haround
  simp only [positions_stretchChain, List.mem_filter, List.mem_range, decide_eq_true_eq] at hmem
  obtain ⟨hlt, hnot⟩ := hmem
  rw [around?_stretchChain hlt hnot] at haround
  cases haround
  exact hrep.edge (stretch_of_not_mem hlt hnot) hlt

/-- The first operator of the chain is the first of what is still to come. -/
theorem Shows.exists_remaining_eq_cons (h : g.Shows c)
    (hfirst : c.First position left operator right) :
    ∃ rest, g.remaining = position :: rest := by
  have hperm := Chain.perm_priorities_splice hfirst.around left
  have hle := hfirst.le
  rw [← h.pending_eq] at hperm hle
  rw [remaining, Priority.mergeSort_eq_cons hperm hle]
  exact ⟨_, rfl⟩

end Graph

namespace Run

/-- How a run goes no further: nothing is left to do, or what comes next fails. -/
inductive Stops (run : Run) : Option Failure → Prop
  | done : run.next = (none, run) → run.graph.remaining = [] → Stops run none
  | failed {failure : Failure} {edge : Edge} {rest : List Nat} {agenda : Agenda} :
    run.graph.edges[failure.position]? = some edge → edge.contracted = false →
    edge.operator.apply (run.graph.valueAt edge.left) (run.graph.valueAt edge.right)
      failure.position = .error failure.error →
    run.graph.remaining = failure.position :: rest →
    run.next = (some (.error failure.error), ⟨run.graph.mark failure.position, agenda, true⟩) →
    Stops run (some failure)

/-- **Every run comes to a stop** behind turns that succeed. -/
theorem Shows.exists_stops {run : Run} {c : Chain Nat} (h : run.Shows c) :
    ∃ steps failure? run', run.Reaches steps run' ∧ run'.Stops failure? := by
  -- every turn that succeeds takes away an operator of the chain
  induction hsize : c.size using Nat.strong_induction_on generalizing run c with
  | h size ih =>
    rcases h.next_cases with ⟨-, hnext⟩ | ⟨position, left, operator, right, hfirst,
      ⟨error, agenda, happly, hnext⟩ | ⟨result, run', -, hnext, hshows, -⟩⟩
    · exact ⟨[], none, run, .refl, .done hnext (h.remaining_eq_nil hnext)⟩
    · obtain ⟨failure, rfl, rfl⟩ := Operator.exists_failure_of_apply happly
      obtain ⟨rest, hrest⟩ := h.graph.exists_remaining_eq_cons hfirst
      exact ⟨[], some failure, run, .refl,
        .failed (h.graph.getElem?_edges hfirst.around) rfl happly hrest hnext⟩
    · have hsplice := Chain.size_splice hfirst.around run.graph.nodes.size
      obtain ⟨steps, failure?, run'', hr, hstops⟩ := ih _ (by omega) hshows rfl
      exact ⟨_, failure?, run'', .cons hnext hr, hstops⟩

/-! ## Turns on the way -/

theorem after_succ (count : Nat) (run : Run) : run.after (count + 1) = (run.after count).next.2 :=
  after_add count 1 run

section Reaches

variable {run run' : Run} {steps : List Step}

/-- What is reached is what is left after so many turns. -/
theorem Reaches.eq_after (h : run.Reaches steps run') : run' = run.after steps.length := by
  induction h with
  | refl => rfl
  | next _ hnext ih => rw [List.length_append, List.length_singleton, after_succ, ← ih, hnext]

/-- The first of these turns succeed, too. -/
theorem Reaches.take (h : run.Reaches steps run') {count : Nat} (hle : count ≤ steps.length) :
    run.Reaches (steps.take count) (run.after count) := by
  induction h with
  | refl =>
    obtain rfl : count = 0 := Nat.le_zero.1 hle
    exact .refl
  | @next steps run₁ run₂ step hr hnext ih =>
    rw [List.length_append, List.length_singleton] at hle
    by_cases hlast : count = steps.length + 1
    · have hall := Reaches.next hr hnext
      have hafter := hall.eq_after
      rw [List.length_append, List.length_singleton] at hafter
      rw [hlast, ← hafter, List.take_of_length_le (by simp)]
      exact hall
    · rw [List.take_append_of_le_length (by omega)]
      exact ih (by omega)

/-- The steps are what these turns answer. -/
theorem Reaches.next_after (h : run.Reaches steps run') {count : Nat} {step : Step}
    (hstep : steps[count]? = some step) : (run.after count).next.1 = some (.ok step) := by
  induction h with
  | refl => cases hstep
  | @next steps run₁ run₂ last hr hnext ih =>
    rw [List.getElem?_append] at hstep
    split at hstep
    · exact ih hstep
    · have hcount : count = steps.length := by
        have := (List.getElem?_eq_some_iff.1 hstep).1
        rw [List.length_singleton] at this
        omega
      subst hcount
      rw [← hr.eq_after, hnext]
      simpa using hstep

/-- All steps of a run are those of its first turns and those of the run that is reached by them. -/
theorem Reaches.steps_eq (h : run.Reaches steps run') (more : Nat) :
    run.steps (steps.length + more) = (run'.steps more).map (steps ++ ·) := by
  induction h generalizing more with
  | refl =>
    rw [List.length_nil, Nat.zero_add]
    cases run.steps more <;> rfl
  | @next steps run₁ run₂ step _ hnext ih =>
    rw [List.length_append, List.length_singleton, Nat.add_assoc, ih, Nat.add_comm 1 more,
      Run.steps, hnext]
    cases hrest : run₂.steps more <;> simp [hrest, Except.map]

end Reaches

/-! ## The stop and all turns behind it -/

section Stops

variable {run : Run} {failure? : Option Failure}

/-- The graph in which a run ends: a failure is marked. -/
def endGraph (run : Run) (failure? : Option Failure) : Graph :=
  match failure? with
  | none => run.graph
  | some failure => run.graph.mark failure.position

theorem Stops.next_eq (h : run.Stops failure?) :
    run.next.1 = failure?.map fun failure => .error failure.error := by
  cases h with
  | done hnext _ => rw [hnext]; rfl
  | failed _ _ _ _ hnext => rw [hnext]; rfl

/-- **Where a run stops, it stops for good**: once the failure has been told, if there is one,
nothing happens any more. -/
theorem Stops.after (h : run.Stops failure?) {count : Nat}
    (hcount : failure?.toList.length ≤ count) :
    (run.after count).next = (none, run.after count) ∧
      (run.after count).graph = run.endGraph failure? := by
  cases h with
  | done hnext _ =>
    rw [after_eq_self hnext]
    exact ⟨hnext, rfl⟩
  | @failed failure edge rest agenda _ _ _ _ hnext =>
    obtain ⟨more, rfl⟩ := Nat.exists_eq_add_of_le' hcount
    have hend : Run.next ⟨run.graph.mark failure.position, agenda, true⟩ =
        (none, ⟨run.graph.mark failure.position, agenda, true⟩) := rfl
    rw [Option.toList_some, List.length_singleton, Run.after, hnext, after_eq_self hend]
    exact ⟨hend, rfl⟩

/-- From a stop on there are no steps, and if there is an error, it is told. -/
theorem Stops.steps_eq (h : run.Stops failure?) {count : Nat}
    (hcount : failure?.toList.length ≤ count) :
    run.steps count = Failure.outcome failure? [] := by
  cases h with
  | done hnext _ =>
    cases count with
    | zero => rfl
    | succ count =>
      rw [steps, hnext]
      rfl
  | failed _ _ _ _ hnext =>
    obtain ⟨more, rfl⟩ := Nat.exists_eq_add_of_le' hcount
    rw [Option.toList_some, List.length_singleton, steps, hnext]
    rfl

/-- The positions that have had their turns when the run has ended are the first of the order, and
all of them unless there is a failure. -/
theorem Stops.exists_remaining_eq (h : run.Stops failure?) :
    ∃ rest, run.graph.remaining = failure?.toList.map Failure.position ++ rest ∧
      (failure? = none → rest = []) := by
  cases h with
  | done _ hremaining => exact ⟨[], hremaining, fun _ => rfl⟩
  | failed _ _ _ hremaining _ => exact ⟨_, hremaining, fun hnone => by cases hnone⟩

end Stops

end Run

theorem Graph.hasPending_eq_false_iff {g : Graph} :
    g.hasPending = false ↔
      ∀ {q : Nat} {edge : Edge}, g.edges[q]? = some edge → edge.contracted = true := by
  rw [hasPending, Array.any_eq_false]
  constructor
  · intro h q edge hedge
    obtain ⟨hlt, rfl⟩ := Array.getElem?_eq_some_iff.1 hedge
    simpa using h q hlt
  · intro h q hlt
    simpa using h (Array.getElem?_eq_getElem hlt)

/-- Among different numbers, the last one is the one behind which there is nothing. -/
theorem getLast?_append_cons_eq_some_iff {front rest : List Nat} {p : Nat}
    (hnodup : (front ++ p :: rest).Nodup) :
    (front ++ p :: rest).getLast? = some p ↔ rest = [] := by
  rcases List.eq_nil_or_concat rest with rfl | ⟨init, last, rfl⟩
  · simp
  · have hne : p ≠ last := by
      rintro rfl
      exact (List.nodup_cons.1 (List.nodup_append.1 hnodup).2.1).1 (by simp)
    simp [List.getLast?_append, List.getLast?_cons, Ne.symm hne]

namespace Calculation

/-! ## The course of a run -/

/-- The positions whose turn it was in a run with these steps, and this failure if there is one. -/
def turns (steps : List Step) (failure? : Option Failure) : List Nat :=
  steps.map Step.position ++ failure?.toList.map Failure.position

/-- **The course of every run of a calculation**: its first turns answer `steps`, and if there is a
failure, the turn behind them answers that. -/
structure Course (calculation : Calculation) (steps : List Step) (failure? : Option Failure) :
    Prop where
  length_le : steps.length ≤ calculation.limit
  step : ∀ {j : Nat} {step : Step}, steps[j]? = some step →
    (calculation.start.after j).next.1 = some (.ok step)
  stop : (calculation.start.after steps.length).next.1 =
    failure?.map fun failure => .error failure.error
  isSome_failure? : failure?.isSome = true ↔ steps.length < calculation.limit
  /-- Behind these turns, nothing happens any more. -/
  ended : ∀ {j : Nat}, (turns steps failure?).length ≤ j →
    (calculation.start.after j).next = (none, calculation.start.after j)
  /-- The operators have their turns in the order that is known from the start. -/
  in_order : turns steps failure? <+: calculation.order
  /-- What is contracted, as long as all turns succeed. -/
  contracted : ∀ {j : Nat}, j ≤ steps.length → ∀ {q : Nat} {edge : Edge},
    (calculation.start.after j).graph.edges[q]? = some edge →
      (edge.contracted = true ↔ q ∈ calculation.order.take j)
  size_nodes : ∀ {j : Nat}, j ≤ steps.length →
    (calculation.start.after j).graph.nodes.size = calculation.limit + 1 + j
  size_edges : ∀ {j : Nat}, j ≤ steps.length →
    (calculation.start.after j).graph.edges.size = calculation.limit
  /-- A failure marks its edge, which was pending, and changes nothing else. -/
  failure : ∀ {failure : Failure}, failure? = some failure →
    (∃ edge, (calculation.start.after steps.length).graph.edges[failure.position]? = some edge ∧
      edge.contracted = false) ∧
    (calculation.start.after (steps.length + 1)).graph =
      (calculation.start.after steps.length).graph.mark failure.position
  /-- Nothing is pending in the end if nothing failed, or only what would have come last. -/
  pending : ∀ {j : Nat}, (turns steps failure?).length ≤ j →
    ((calculation.start.after j).graph.hasPending = false ↔
      ∀ failure, failure? = some failure → calculation.order.getLast? = some failure.position)
  steps_eq : calculation.steps = Failure.outcome failure? steps
  value_eq : calculation.value =
    Failure.outcome failure? (Run.lastResult calculation.graph.firstValue steps)

section Course

variable {strategy : Strategy} {text : List Char} {e : Chain Int} {steps : List Step} {run : Run}
  {failure? : Option Failure}

/-- Turns that succeed follow the order of the calculation, and all of them are on the log. -/
theorem reaches_logs (he : Chain.ofText? text = some e)
    (hr : (start ⟨.layout e true, strategy⟩).Reaches steps run) :
    (∃ c, run.Shows c) ∧
      (∃ holder, (Graph.layout e true).Logs run.graph (steps.map Step.position) holder) ∧
      steps.map Step.position ++ run.graph.remaining = (Graph.layout e true).order := by
  obtain ⟨c, hc, -⟩ := exists_shows_start strategy he
  rw [← Graph.remaining_layout]
  exact hc.reaches_logs (Graph.logs_layout e) hr

/-- What has had its turn when a run stops is where the order begins, and all of it if nothing
fails. -/
theorem exists_turns_append (he : Chain.ofText? text = some e)
    (hr : (start ⟨.layout e true, strategy⟩).Reaches steps run) (hstops : run.Stops failure?) :
    ∃ rest, turns steps failure? ++ rest = (Graph.layout e true).order ∧
      (failure? = none → rest = []) := by
  obtain ⟨-, -, horder⟩ := reaches_logs he hr
  obtain ⟨rest, hremaining, hrest⟩ := hstops.exists_remaining_eq
  refine ⟨rest, ?_, hrest⟩
  rw [turns, List.append_assoc, ← hremaining, horder]

/-- What is contracted in the end is what has had its turn. -/
theorem contracted_endGraph_iff (he : Chain.ofText? text = some e)
    (hr : (start ⟨.layout e true, strategy⟩).Reaches steps run) {q : Nat} {edge : Edge}
    (hedge : (run.endGraph failure?).edges[q]? = some edge) :
    edge.contracted = true ↔ q ∈ turns steps failure? := by
  obtain ⟨-, ⟨holder, hlogs⟩, -⟩ := reaches_logs he hr
  have hdone := @hlogs.follows.represents.contracted_iff
  simp only [List.mem_reverse] at hdone
  cases failure? with
  | none =>
    rw [turns, Option.toList_none, List.map_nil, List.append_nil]
    exact hdone hedge
  | some failure =>
    rw [Run.endGraph, Graph.getElem?_edges_mark] at hedge
    obtain ⟨old, hold, rfl⟩ := Option.map_eq_some_iff.1 hedge
    simp [turns, hdone hold]

/-- In the end nothing is pending if every operator has had its turn. -/
theorem hasPending_endGraph_eq_false_iff (he : Chain.ofText? text = some e)
    (hr : (start ⟨.layout e true, strategy⟩).Reaches steps run) {rest : List Nat}
    (horder : turns steps failure? ++ rest = (Graph.layout e true).order) :
    (run.endGraph failure?).hasPending = false ↔ rest = [] := by
  obtain ⟨-, ⟨holder, hlogs⟩, -⟩ := reaches_logs he hr
  have hsize : (run.endGraph failure?).edges.size = (Graph.layout e true).edges.size := by
    rw [← hlogs.follows.size_edges]
    cases failure? with
    | none => rfl
    | some failure => exact Graph.size_edges_mark _ _
  have hperm := Graph.perm_order_layout e
  rw [← horder] at hperm
  rw [Graph.hasPending_eq_false_iff]
  constructor
  · intro hall
    rw [List.eq_nil_iff_forall_not_mem]
    intro q hq
    have hlt : q < (run.endGraph failure?).edges.size := by
      rw [hsize]
      exact List.mem_range.1 (hperm.mem_iff.1 (List.mem_append_right _ hq))
    have hedge := Array.getElem?_eq_getElem hlt
    have hturn := (contracted_endGraph_iff he hr hedge).1 (hall hedge)
    exact (List.nodup_append.1 (hperm.nodup_iff.2 List.nodup_range)).2.2 q hturn q hq rfl
  · rintro rfl q edge hedge
    have hlt := (Array.getElem?_eq_some_iff.1 hedge).1
    rw [hsize] at hlt
    rw [List.append_nil] at hperm
    exact (contracted_endGraph_iff he hr hedge).2 (hperm.mem_iff.2 (List.mem_range.2 hlt))

/-- In the end nothing is pending if nothing failed, or if the failure came last. -/
theorem hasPending_endGraph_iff (he : Chain.ofText? text = some e)
    (hr : (start ⟨.layout e true, strategy⟩).Reaches steps run) (hstops : run.Stops failure?) :
    (run.endGraph failure?).hasPending = false ↔
      ∀ failure, failure? = some failure →
        (Graph.layout e true).order.getLast? = some failure.position := by
  obtain ⟨rest, horder, hrest⟩ := exists_turns_append he hr hstops
  rw [hasPending_endGraph_eq_false_iff he hr horder]
  cases failure? with
  | none => simp [hrest rfl]
  | some failure =>
    rw [turns, Option.toList_some, List.map_singleton, List.append_assoc, List.singleton_append]
      at horder
    have hnodup := (Graph.perm_order_layout e).nodup_iff.2 List.nodup_range
    rw [← horder] at hnodup
    rw [← horder, ← getLast?_append_cons_eq_some_iff hnodup]
    simp

/-- A failure leaves at least one operator without its turn. -/
theorem length_turns (he : Chain.ofText? text = some e)
    (hr : (start ⟨.layout e true, strategy⟩).Reaches steps run) (hstops : run.Stops failure?) :
    steps.length + failure?.toList.length ≤ (Graph.layout e true).edges.size ∧
      (failure? = none → steps.length = (Graph.layout e true).edges.size) := by
  obtain ⟨rest, horder, hrest⟩ := exists_turns_append he hr hstops
  have hlength := (Graph.perm_order_layout e).length_eq
  rw [← horder] at hlength
  simp only [turns, List.length_append, List.length_map, List.length_range] at hlength
  refine ⟨by omega, ?_⟩
  rintro rfl
  simpa [hrest rfl] using hlength

/-- All steps are told, unless one failed. -/
theorem steps_eq_outcome (he : Chain.ofText? text = some e)
    (hr : (start ⟨.layout e true, strategy⟩).Reaches steps run) (hstops : run.Stops failure?) :
    Calculation.steps ⟨.layout e true, strategy⟩ = Failure.outcome failure? steps := by
  have hlength := (length_turns he hr hstops).1
  obtain ⟨more, hmore⟩ := Nat.exists_eq_add_of_le (Nat.le_of_add_right_le hlength)
  rw [Calculation.steps, limit, hmore, hr.steps_eq, hstops.steps_eq (by omega)]
  cases failure? with
  | none => simp [Failure.outcome, Except.map]
  | some failure => rfl

/-- The last result is the value, unless a step failed. -/
theorem value_eq_outcome (he : Chain.ofText? text = some e)
    (hr : (start ⟨.layout e true, strategy⟩).Reaches steps run) (hstops : run.Stops failure?) :
    Calculation.value ⟨.layout e true, strategy⟩ =
      Failure.outcome failure? (Run.lastResult (Graph.layout e true).firstValue steps) := by
  have hsteps := steps_eq_outcome he hr hstops
  rw [Calculation.steps] at hsteps
  rw [value, Run.value_eq_map_steps, hsteps]
  cases failure? <;> rfl

/-- A run has a course: it comes to a stop by turns that succeed, and stops there for good. -/
theorem exists_course_layout (he : Chain.ofText? text = some e) (strategy : Strategy) :
    ∃ steps failure?, Course ⟨.layout e true, strategy⟩ steps failure? := by
  obtain ⟨c, hc, -⟩ := exists_shows_start strategy he
  obtain ⟨steps, failure?, run, hr, hstops⟩ := hc.exists_stops
  obtain rfl := hr.eq_after
  obtain ⟨rest, horder, -⟩ := exists_turns_append he hr hstops
  obtain ⟨hlength, hall⟩ := length_turns he hr hstops
  have hprefix : ∀ {j : Nat}, j ≤ steps.length →
      (Graph.layout e true).order.take j = (steps.take j).map Step.position := by
    intro j hj
    rw [← horder, turns, List.append_assoc, List.take_append_of_le_length (by simpa using hj),
      List.map_take]
  have hend : ∀ {j : Nat}, steps.length + failure?.toList.length ≤ j →
      (start ⟨.layout e true, strategy⟩ |>.after j).next =
          (none, start ⟨.layout e true, strategy⟩ |>.after j) ∧
        (start ⟨.layout e true, strategy⟩ |>.after j).graph =
          ((start ⟨.layout e true, strategy⟩).after steps.length).endGraph failure? := by
    intro j hj
    obtain ⟨more, rfl⟩ := Nat.exists_eq_add_of_le (Nat.le_of_add_right_le hj)
    rw [Run.after_add]
    exact hstops.after (by omega)
  refine ⟨steps, failure?, ?_⟩
  constructor
  case length_le => exact Nat.le_of_add_right_le hlength
  case step => exact fun hstep => hr.next_after hstep
  case stop => exact hstops.next_eq
  case isSome_failure? =>
    rw [limit]
    cases failure? with
    | none => simp [hall rfl]
    | some failure => exact iff_of_true rfl hlength
  case ended =>
    intro j hj
    exact (hend (by simpa [turns] using hj)).1
  case in_order => exact ⟨rest, horder⟩
  case contracted =>
    intro j hj q edge hedge
    obtain ⟨-, ⟨holder, hlogs⟩, -⟩ := reaches_logs he (hr.take hj)
    rw [order, hprefix hj, hlogs.follows.represents.contracted_iff hedge, List.mem_reverse]
  case size_nodes =>
    intro j hj
    obtain ⟨-, ⟨holder, hlogs⟩, -⟩ := reaches_logs he (hr.take hj)
    rw [hlogs.size_nodes]
    simp [hj, limit]
  case size_edges =>
    intro j hj
    obtain ⟨-, ⟨holder, hlogs⟩, -⟩ := reaches_logs he (hr.take hj)
    exact hlogs.follows.size_edges
  case failure =>
    rintro failure rfl
    refine ⟨?_, (hend (Nat.le_refl _)).2⟩
    cases hstops with
    | failed hedge hpending _ _ _ => exact ⟨_, hedge, hpending⟩
  case pending =>
    intro j hj
    rw [(hend (by simpa [turns] using hj)).2]
    exact hasPending_endGraph_iff he hr hstops
  case steps_eq => exact steps_eq_outcome he hr hstops
  case value_eq => exact value_eq_outcome he hr hstops

end Course

/-- **The order is known from the start, and every run of a calculation keeps to it** up to the end
or up to its first failure, behind which nothing happens any more. -/
theorem exists_course {strategy : Strategy} {text : List Char} {calculation : Calculation}
    (h : ofText strategy text = .ok calculation) :
    calculation.order = calculation.graph.byWeight ∧
      calculation.order.Perm (List.range calculation.limit) ∧
      ∃ steps failure?, Course calculation steps failure? := by
  obtain ⟨e, he, rfl⟩ := ofText_eq_ok_iff.1 h
  exact ⟨Graph.order_layout_eq e, Graph.perm_order_layout e, exists_course_layout he strategy⟩

/-- The product has its turn, the quotient fails, and the sum and the difference have none. -/
theorem exists_course_quotient :
    ∃ calculation, ofText .queue "1 + 2 * 3 / 0 - 5".toList = .ok calculation ∧
      calculation.order = [1, 2, 0, 3] ∧
      ∃ steps, Course calculation steps (some ⟨.divisionByZero, 2⟩) ∧
        steps.map Step.position = [1] := by
  have hfront : ∀ {front rest : List Nat}, front ++ [2] ++ rest = [1, 2, 0, 3] → front = [1] := by
    intro front rest h
    rcases front with _ | ⟨p, _ | ⟨q, _ | ⟨r, _ | ⟨s, more⟩⟩⟩⟩ <;> simp_all
  have hg : ofText .queue "1 + 2 * 3 / 0 - 5".toList = .ok ⟨.layout (((((Chain.single 1).snoc 0 .add
      2).snoc 1 .multiply 3).snoc 2 .divide 0).snoc 3 .subtract 5) true, .queue⟩ := rfl
  obtain ⟨horder, -, steps, failure?, hcourse⟩ := exists_course hg
  have horder' := horder.trans (show Graph.byWeight _ = [1, 2, 0, 3] from rfl)
  have hsteps := hcourse.steps_eq.symm.trans
    (show Calculation.steps _ = .error (.divisionByZero 2) from rfl)
  obtain _ | ⟨fault, position⟩ := failure?
  · cases hsteps
  · obtain ⟨rfl, rfl⟩ := Fault.at_inj.1
      (show fault.at position = Fault.divisionByZero.at 2 from Except.error.inj hsteps)
    obtain ⟨rest, hturns⟩ := hcourse.in_order
    exact ⟨_, hg, horder', steps, hcourse, hfront (hturns.trans horder')⟩

end Calculation

end OperatorChain
