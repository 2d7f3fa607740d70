import OperatorChain.Proofs.Evaluation
import OperatorChain.Proofs.Renumbering

/-!
# What is left means the same

At any point of a run, what is left of the expression can be written down: the values of the live
nodes and the pending operators between them.  That text is an expression again.  It has the value
of the whole, or the same error, with the number that the operator has in the shorter text.

* `Graph.pendingBefore` — that number.
* `Shows.reaches_reference` — turns that succeed do not change the answer for the chain.
* `Calculation.evaluateText_rest` — the answer for the text of what is left.
* `Calculation.reaches_rest` — all of it about a run of the calculation of a text.
-/

namespace OperatorChain

/-- The number of pending operators whose position is smaller. -/
def Graph.pendingBefore (g : Graph) (position : Nat) : Nat :=
  g.pending.countP fun other => other.position < position

/-- The pending operators of a live chain are counted by their positions. -/
theorem Graph.Shows.pendingBefore_eq {g : Graph} {c : Chain Nat} (h : g.Shows c) (position : Nat) :
    g.pendingBefore position = c.positions.countP (· < position) := by
  rw [pendingBefore, h.pending_eq, ← Chain.map_position_priorities, List.countP_map]
  rfl

theorem Graph.Shows.map_position_pending {g : Graph} {c : Chain Nat} (h : g.Shows c) :
    g.pending.map Priority.position = c.positions := by
  simp [h.pending_eq, Chain.map_position_priorities]

namespace Run

/-- **Turns that succeed do not change the answer.**  They also keep the values of the chain in
range. -/
theorem Shows.reaches_reference {run run' : Run} {c : Chain Nat} {steps : List Step}
    (h : run.Shows c) (hrange : ∀ a ∈ (c.map run.graph.valueAt).operands, InRange a)
    (hr : run.Reaches steps run') :
    ∃ c', run'.Shows c' ∧ (∀ a ∈ (c'.map run'.graph.valueAt).operands, InRange a) ∧
      (c'.map run'.graph.valueAt).reference = (c.map run.graph.valueAt).reference := by
  induction hr with
  | refl => exact ⟨c, h, hrange, rfl⟩
  | @next steps run₁ run₂ step _ hnext ih =>
    obtain ⟨c₁, h₁, hrange₁, hreference⟩ := ih
    obtain ⟨left, operator, right, hfirst, happly, hshows, hvalues⟩ := h₁.next_ok hnext
    refine ⟨_, hshows, ?_, ?_⟩
    · intro a ha
      rw [hvalues] at ha
      rcases Chain.mem_operands_splice ha with rfl | ha
      · exact Operator.inRange_of_apply happly
      · exact hrange₁ a ha
    · have hinc := h₁.graph.isLiveChain.increasing
      rw [← Chain.positions_map run₁.graph.valueAt c₁] at hinc
      rw [hvalues, ← hreference, Chain.reference_of_first hinc (hfirst.map _), happly]

end Run

namespace Calculation

/-- **What is left is answered like the whole**, only with the numbers that its operators have in
their own text. -/
theorem evaluateText_rest {strategy : Strategy} {text : List Char} {calculation : Calculation}
    (h : ofText strategy text = .ok calculation) {steps : List Step} {run : Run}
    (hr : calculation.start.Reaches steps run) :
    ∃ c, run.Shows c ∧
      Chain.ofText? (c.map run.graph.valueAt).text = some (c.map run.graph.valueAt).renumber ∧
      ∀ other,
        evaluateText other text = (c.map run.graph.valueAt).reference.mapError .contraction ∧
        evaluateText other (c.map run.graph.valueAt).text =
          ((c.map run.graph.valueAt).reference.mapError
            (ContractionError.mapPosition run.graph.pendingBefore)).mapError .contraction := by
  obtain ⟨e, he, rfl⟩ := ofText_eq_ok_iff.1 h
  obtain ⟨c₀, hstart, hvalues⟩ := exists_shows_start strategy he
  have hrange : ∀ a ∈ (c₀.map (start ⟨.layout e true, strategy⟩).graph.valueAt).operands,
      InRange a := by
    rw [start, Run.start, hvalues]
    exact Chain.inRange_of_ofText? he
  obtain ⟨c, hc, hrange', hreference⟩ := hstart.reaches_reference hrange hr
  have hread := Chain.ofText?_text hrange'
  refine ⟨c, hc, hread, fun other => ⟨?_, ?_⟩⟩
  · simp [evaluateText_of_ofText? he, hreference, start, Run.start, hvalues]
  · have hinc := hc.graph.isLiveChain.increasing
    rw [← Chain.positions_map run.graph.valueAt c] at hinc
    have hcount : run.graph.pendingBefore =
        fun p => (c.map run.graph.valueAt).positions.countP (· < p) := by
      funext p
      simp [hc.graph.pendingBefore_eq]
    rw [evaluateText_of_ofText? hread, Chain.renumber_eq_mapPositions hinc,
      Chain.reference_mapPositions, hcount]

/-- **What is left means the same.**  After any number of turns that succeed there is one live
chain; its text, the values of its nodes with the pending operators between them, is an expression.
It has a value exactly when the whole has, and then the same one.  The whole has an error exactly
when its operator is pending and what is left has the same error at the number of pending operators
before that one; and what is left has no other errors. -/
theorem reaches_rest {strategy : Strategy} {text : List Char} {calculation : Calculation}
    (h : ofText strategy text = .ok calculation) {steps : List Step} {run : Run}
    (hr : calculation.start.Reaches steps run) (other : Strategy) :
    ∃ c, run.graph.IsLiveChain c ∧ (∀ c', run.graph.IsLiveChain c' → c' = c) ∧
      (∃ g, Graph.ofText (c.map run.graph.valueAt).text = .ok g) ∧
      (∀ v, evaluateText other (c.map run.graph.valueAt).text = .ok v ↔
        evaluateText other text = .ok v) ∧
      (∀ (fault : Fault) (p : Nat),
        evaluateText other text = .error (.contraction (fault.at p)) ↔
          p ∈ run.graph.pending.map Priority.position ∧
            evaluateText other (c.map run.graph.valueAt).text =
              .error (.contraction (fault.at (run.graph.pendingBefore p)))) ∧
      ∀ (fault : Fault) (j : Nat),
        evaluateText other (c.map run.graph.valueAt).text =
            .error (.contraction (fault.at j)) ↔
          ∃ p, evaluateText other text = .error (.contraction (fault.at p)) ∧
            j = run.graph.pendingBefore p := by
  obtain ⟨c, hc, hread, hanswers⟩ := evaluateText_rest h hr
  obtain ⟨hwhole, hrest⟩ := hanswers other
  refine ⟨c, hc.graph.isLiveChain, fun c' => hc.graph.eq_of_isLiveChain,
    ⟨_, Graph.ofText_eq_ok_iff.2 ⟨_, hread, rfl⟩⟩, ?_⟩
  rw [hwhole, hrest, hc.graph.map_position_pending]
  cases hanswer : (c.map run.graph.valueAt).reference with
  | ok value => simp [Except.mapError]
  | error error =>
    obtain ⟨fault', p', hp', rfl⟩ := Chain.exists_fault_of_reference hanswer
    rw [Chain.positions_map] at hp'
    have hinj : ∀ p ∈ c.positions, run.graph.pendingBefore p' = run.graph.pendingBefore p →
        p' = p := by
      intro p hp heq
      rw [hc.graph.pendingBefore_eq, hc.graph.pendingBefore_eq] at heq
      exact Chain.countP_positions_inj hc.graph.isLiveChain.increasing hp' hp heq
    simp only [Except.mapError, ContractionError.mapPosition_at, Except.error.injEq,
      EvaluationError.contraction.injEq, Fault.at_inj]
    refine ⟨by simp, ?_, ?_⟩
    · intro fault p
      constructor
      · rintro ⟨hfault, rfl⟩
        exact ⟨hp', hfault, rfl⟩
      · rintro ⟨hp, hfault, heq⟩
        exact ⟨hfault, hinj p hp heq⟩
    · intro fault j
      constructor
      · rintro ⟨hfault, rfl⟩
        exact ⟨p', ⟨hfault, rfl⟩, rfl⟩
      · rintro ⟨p, ⟨hfault, rfl⟩, rfl⟩
        exact ⟨hfault, rfl⟩

/-- A quotient by zero is operator `2` of the whole and operator `1` of what is left after the
product. -/
theorem reaches_rest_quotient :
    ∃ calculation run c, ofText .queue "9 - 4 * 2 / 0".toList = .ok calculation ∧
      calculation.start.Reaches [⟨1, .multiply, 4, 2, 8⟩] run ∧ run.graph.IsLiveChain c ∧
      evaluateText .scan "9 - 4 * 2 / 0".toList =
        .error (.contraction (Fault.divisionByZero.at 2)) ∧
      evaluateText .scan (c.map run.graph.valueAt).text =
        .error (.contraction (Fault.divisionByZero.at 1)) := by
  have hg : ofText .queue "9 - 4 * 2 / 0".toList =
      .ok ⟨.layout ((((Chain.single 9).snoc 0 .subtract 4).snoc 1 .multiply 2).snoc 2 .divide 0)
        true, .queue⟩ := rfl
  have hr : (start ⟨.layout ((((Chain.single 9).snoc 0 .subtract 4).snoc 1 .multiply 2).snoc 2
      .divide 0) true, .queue⟩).Reaches [⟨1, .multiply, 4, 2, 8⟩] _ := Run.Reaches.next .refl rfl
  have hwhole : evaluateText .scan "9 - 4 * 2 / 0".toList =
      .error (.contraction (Fault.divisionByZero.at 2)) := rfl
  obtain ⟨c, hc, -, -, -, herrors, -⟩ := reaches_rest hg hr .scan
  exact ⟨_, _, c, hg, hr, hc, hwhole, ((herrors .divisionByZero 2).1 hwhole).2⟩

/-- Only pending operators can be counted so.  Once the first quotient of `4 / 2 / 0` is contracted,
what is left is `2 / 0`, and that fails at `0`.  No pending operator comes before the first
quotient, so its number is `0`, too; but the whole does not fail at it. -/
theorem reaches_rest_contracted :
    ∃ calculation run c, ofText .scan "4 / 2 / 0".toList = .ok calculation ∧
      calculation.start.Reaches [⟨0, .divide, 4, 2, 2⟩] run ∧ run.graph.IsLiveChain c ∧
      (c.map run.graph.valueAt).text = "2 / 0".toList ∧ run.graph.pendingBefore 0 = 0 ∧
      evaluateText .scan "4 / 2 / 0".toList =
        .error (.contraction (Fault.divisionByZero.at 1)) ∧
      ¬ (evaluateText .scan "4 / 2 / 0".toList =
          .error (.contraction (Fault.divisionByZero.at 0)) ↔
        evaluateText .scan (c.map run.graph.valueAt).text =
          .error (.contraction (Fault.divisionByZero.at (run.graph.pendingBefore 0)))) := by
  have hg : ofText .scan "4 / 2 / 0".toList =
      .ok ⟨.layout (((Chain.single 4).snoc 0 .divide 2).snoc 1 .divide 0) true, .scan⟩ := rfl
  have hwhole : evaluateText .scan "4 / 2 / 0".toList =
      .error (.contraction (Fault.divisionByZero.at 1)) := rfl
  have hrest : evaluateText .scan "2 / 0".toList =
      .error (.contraction (Fault.divisionByZero.at 0)) := rfl
  obtain ⟨run, hnext⟩ : ∃ run, (start ⟨.layout (((Chain.single 4).snoc 0 .divide 2).snoc 1
      .divide 0) true, .scan⟩).next = (some (.ok ⟨0, .divide, 4, 2, 2⟩), run) := ⟨_, rfl⟩
  obtain ⟨c, hstart, hvalues⟩ := exists_shows_start .scan
    (show Chain.ofText? "4 / 2 / 0".toList =
      some (((Chain.single 4).snoc 0 .divide 2).snoc 1 .divide 0) from rfl)
  obtain ⟨-, -, -, -, -, hshows, hsplice⟩ := hstart.next_ok hnext
  have htext := congrArg Chain.text (hsplice.trans (congrArg (Chain.splice 0 2) hvalues))
  have hnone : run.graph.pendingBefore 0 = 0 := by
    simp [Graph.pendingBefore]
  refine ⟨_, run, _, hg, .next .refl hnext, hshows.graph.isLiveChain, htext, hnone, hwhole, ?_⟩
  rw [htext, hnone]
  intro hiff
  cases hwhole.symm.trans (hiff.2 hrest)

end Calculation

end OperatorChain
