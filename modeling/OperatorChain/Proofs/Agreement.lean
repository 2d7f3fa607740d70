import OperatorChain.Proofs.Evaluation

/-!
# Runs that differ in their agenda only

How a run finds its next operator cannot be seen from outside.  Two runs on one graph whose agendas
both know what is pending make the same turns: the same answers, the same graphs after them, also on
the turn that fails and on all turns after it.

* `Run.history` — what can be seen of a run.
* `Run.Alike` — two runs that differ in their agenda only, both of which know what is pending.
* `Alike.next` — one turn keeps two runs alike and answers the same for both.
* `Alike.history_eq` — so do any number of turns.
* `Calculation.strategies_agree` — the two strategies cannot be told apart.
-/

namespace OperatorChain

namespace Agenda

/-- Agendas that know what is pending call for the same operator. -/
theorem Holds.position_eq {agenda agenda' : Agenda} {g : Graph} (h : agenda.Holds g)
    (h' : agenda'.Holds g) : (agenda.next? g).map Prod.fst = (agenda'.next? g).map Prod.fst := by
  cases hmin : g.pending.min? with
  | none =>
    have hempty := List.min?_eq_none_iff.1 hmin
    rw [h.next?_eq_none hempty, h'.next?_eq_none hempty]
  | some first =>
    obtain ⟨hmem, hle⟩ := List.min?_eq_some_iff.1 hmin
    obtain ⟨rest, hnext, -⟩ := h.next?_eq hmem hle
    obtain ⟨rest', hnext', -⟩ := h'.next?_eq hmem hle
    rw [hnext, hnext']
    rfl

end Agenda

namespace Run

/-- What can be seen of the first `count` turns of a run: each answer, and the graph after it. -/
def history (count : Nat) (run : Run) : List (Option (Except ContractionError Step) × Graph) :=
  (run.answers count).map fun (answer, run) => (answer, run.graph)

theorem history_succ (count : Nat) (run : Run) :
    run.history (count + 1) = (run.next.1, run.next.2.graph) :: run.next.2.history count := rfl

/-! ## One turn -/

/-- A turn is decided by the graph, by whether the run has failed, and by the position that the
agenda calls for; the rest of the agenda plays no part in it. -/
theorem next_congr {run run' : Run} (hgraph : run.graph = run'.graph)
    (hfailed : run.failed = run'.failed)
    (hposition : (run.agenda.next? run.graph).map Prod.fst =
      (run'.agenda.next? run'.graph).map Prod.fst) :
    run.next.1 = run'.next.1 ∧ run.next.2.graph = run'.next.2.graph ∧
      run.next.2.failed = run'.next.2.failed := by
  obtain ⟨graph, agenda, failed⟩ := run
  obtain ⟨graph', agenda', failed'⟩ := run'
  dsimp only at hgraph hfailed hposition
  subst hgraph hfailed
  unfold next
  dsimp only
  split
  · exact ⟨rfl, rfl, rfl⟩
  · cases hnext : agenda.next? graph with
    | none =>
      rw [hnext] at hposition
      rw [Option.map_eq_none_iff.1 hposition.symm]
      exact ⟨rfl, rfl, rfl⟩
    | some called =>
      rw [hnext] at hposition
      obtain ⟨⟨position, rest'⟩, hnext', hsame⟩ := Option.map_eq_some_iff.1 hposition.symm
      obtain ⟨position, rest⟩ := called
      cases hsame
      rw [hnext']
      dsimp only
      cases graph.contract position with
      | mk outcome g => cases outcome <;> exact ⟨rfl, rfl, rfl⟩

/-- A run that has not failed after a turn shows a chain. -/
theorem Shows.exists_shows_next {run : Run} {c : Chain Nat} (h : run.Shows c)
    (hgoing : run.next.2.failed = false) : ∃ c', run.next.2.Shows c' := by
  rcases h.next_cases with ⟨-, hnext⟩ | ⟨position, left, operator, right, -,
    ⟨error, agenda, -, hnext⟩ | ⟨result, run', -, hnext, hshows, -⟩⟩
  · rw [hnext]
    exact ⟨c, h⟩
  · rw [hnext] at hgoing
    cases hgoing
  · rw [hnext]
    exact ⟨_, hshows⟩

/-- The runs differ in their agendas only.  As long as they go on, they show the same chain, and
both agendas know what is pending. -/
structure Alike (run run' : Run) : Prop where
  graph : run.graph = run'.graph
  failed : run.failed = run'.failed
  going : run.failed = false → ∃ c, run.Shows c ∧ run'.Shows c

/-- **One turn.**  Runs that are alike answer the same, and are alike afterwards. -/
theorem Alike.next {run run' : Run} (h : run.Alike run') :
    run.next.1 = run'.next.1 ∧ run.next.2.Alike run'.next.2 := by
  by_cases hfailed : run.failed = true
  · have hfailed' : run'.failed = true := h.failed ▸ hfailed
    rw [Run.next, if_pos hfailed, Run.next, if_pos hfailed']
    exact ⟨rfl, h⟩
  · obtain ⟨c, hc, hc'⟩ := h.going (by simpa using hfailed)
    have hposition : (run.agenda.next? run.graph).map Prod.fst =
        (run'.agenda.next? run'.graph).map Prod.fst := by
      rw [← h.graph]
      exact hc.agenda.position_eq (h.graph ▸ hc'.agenda)
    obtain ⟨hanswer, hgraph, hstate⟩ := next_congr h.graph h.failed hposition
    refine ⟨hanswer, hgraph, hstate, fun hgoing => ?_⟩
    obtain ⟨d, hd⟩ := hc.exists_shows_next hgoing
    obtain ⟨d', hd'⟩ := hc'.exists_shows_next (hstate ▸ hgoing)
    -- a graph has one live chain, so the two runs show the same one
    have hsame : d' = d := hd.graph.eq_of_isLiveChain (hgraph ▸ hd'.graph.isLiveChain)
    exact ⟨d, hd, hsame ▸ hd'⟩

/-! ## Any number of turns -/

/-- **Runs that are alike cannot be told apart.** -/
theorem Alike.history_eq {run run' : Run} (h : run.Alike run') (count : Nat) :
    run.history count = run'.history count := by
  induction count generalizing run run' with
  | zero => rfl
  | succ count ih =>
    obtain ⟨hanswer, hnext⟩ := h.next
    rw [history_succ, history_succ, hanswer, hnext.graph, ih hnext]

/-- Runs on one graph are alike from the start, whichever agendas tell them what is pending. -/
theorem alike_of_holds {g : Graph} {c : Chain Nat} (hc : g.Shows c) {agenda agenda' : Agenda}
    (h : agenda.Holds g) (h' : agenda'.Holds g) : Alike ⟨g, agenda, false⟩ ⟨g, agenda', false⟩ :=
  ⟨rfl, rfl, fun _ => ⟨c, ⟨rfl, hc, h⟩, ⟨rfl, hc, h'⟩⟩⟩

end Run

namespace Calculation

/-- **The strategies cannot be told apart.**  On the graph of a text, any number of turns has the
same answers and leaves the same graphs whether the next operator is looked for in the graph or
taken from a heap, and it does not matter which ordered heap of the pending operators this is.  So
the steps and the value are the same, too. -/
theorem strategies_agree {text : List Char} {g : Graph} (h : Graph.ofText text = .ok g) :
    (∀ strategy, ofText strategy text = .ok ⟨g, strategy⟩) ∧
      (∀ count, (start ⟨g, .scan⟩).history count = (start ⟨g, .queue⟩).history count) ∧
      (∀ heap : Heap Priority, heap.Ordered → heap.toList.Perm g.pending → ∀ count,
        (start ⟨g, .scan⟩).history count = Run.history count ⟨g, .queued heap, false⟩) ∧
      steps ⟨g, .scan⟩ = steps ⟨g, .queue⟩ ∧ value ⟨g, .scan⟩ = value ⟨g, .queue⟩ := by
  obtain ⟨e, he, rfl⟩ := Graph.ofText_eq_ok_iff.1 h
  obtain ⟨c, hc, -⟩ := Graph.exists_shows_layout (Chain.numbered_of_ofText? he)
  have halike : ∀ {agenda : Agenda}, agenda.Holds (.layout e true) →
      (start ⟨.layout e true, .scan⟩).Alike ⟨.layout e true, agenda, false⟩ :=
    fun hholds => Run.alike_of_holds hc (Agenda.holds_start .scan _) hholds
  refine ⟨fun strategy => ofText_eq_ok_iff.2 ⟨e, he, rfl⟩, ?_, ?_, ?_, ?_⟩
  · exact (halike (Agenda.holds_start .queue _)).history_eq
  · intro heap hordered hperm
    have hholds : (Agenda.queued heap).Holds (.layout e true) := ⟨hordered, hperm⟩
    exact (halike hholds).history_eq
  · rw [steps_eq_referenceSteps he, steps_eq_referenceSteps he]
  · rw [value_eq_reference he, value_eq_reference he]

/-- A run that fails on its second turn, and the turns after that. -/
theorem strategies_agree_quotient :
    ∃ g, Graph.ofText "1 + 2 * 3 / 0 - 5".toList = .ok g ∧
      ((start ⟨g, .scan⟩).history 4).map Prod.fst =
        [some (.ok ⟨1, .multiply, 2, 3, 6⟩), some (.error (.divisionByZero 2)), none, none] ∧
      (start ⟨g, .scan⟩).history 4 = (start ⟨g, .queue⟩).history 4 ∧
      value ⟨g, .scan⟩ = value ⟨g, .queue⟩ := by
  have hg : Graph.ofText "1 + 2 * 3 / 0 - 5".toList = .ok (.layout
      ((((Chain.single 1).snoc 0 .add 2).snoc 1 .multiply 3).snoc 2 .divide 0 |>.snoc 3 .subtract 5)
      true) := rfl
  obtain ⟨-, hhistory, -, -, hvalue⟩ := strategies_agree hg
  exact ⟨_, hg, rfl, hhistory 4, hvalue⟩

end Calculation

end OperatorChain
