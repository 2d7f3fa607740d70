import OperatorChain.Proofs.Course
import OperatorChain.Proofs.ReportLines

/-!
# Explained and plain reports

Without its steps an expression is carried to its value turn by turn, and with them the value is
read off the last one.  Both are one evaluation: `evaluateText` says whether there is a value, which
one, and what is printed instead, and the steps only come in front of what is printed anyway.

* `Calculation.map_position_of_steps` — all steps that are told, one for each operator, in order.
* `report_explained` — the two reports side by side.
-/

namespace OperatorChain

namespace Calculation

/-- **The steps that are told are those of all operators**, in the order that is known from the
start. -/
theorem map_position_of_steps {strategy : Strategy} {text : List Char} {calculation : Calculation}
    {steps : List Step} (h : ofText strategy text = .ok calculation)
    (hsteps : calculation.steps = .ok steps) :
    steps.map Step.position = calculation.order ∧ steps.length = calculation.limit := by
  obtain ⟨e, he, rfl⟩ := ofText_eq_ok_iff.1 h
  obtain ⟨steps', failure?, hcourse⟩ := exists_course_layout he strategy
  have heq := hcourse.steps_eq.symm.trans hsteps
  cases failure? with
  | some failure => cases heq
  | none =>
    obtain rfl : steps' = steps := Except.ok.inj heq
    have hlength : steps'.length = limit ⟨.layout e true, strategy⟩ := by
      have hle := hcourse.length_le
      have hall := hcourse.isSome_failure?
      simp only [Option.isSome_none, Bool.false_eq_true, false_iff] at hall
      omega
    have horder : (order ⟨.layout e true, strategy⟩).length = limit ⟨.layout e true, strategy⟩ :=
      (Graph.perm_order_layout e).length_eq.trans List.length_range
    have hturns : turns steps' none = steps'.map Step.position := List.append_nil _
    have hbegins := hcourse.in_order
    rw [hturns] at hbegins
    exact ⟨hbegins.eq_of_length (by rw [List.length_map, hlength, horder]), hlength⟩

end Calculation

/-- **The explained report and the plain one**, of any expression.  If it has a value, both succeed,
and the plain one is the value on a line of its own; the explained one begins with a line for each
operator, in the order in which they are contracted, with the step behind two blanks, and goes on as
the plain one.  If it has none, both fail, and both are the one line that says why, with none of the
steps before the failure. -/
theorem report_explained (strategy : Strategy) (quiet : Bool) (expression : List Char) :
    let explained := report ⟨strategy, true, quiet⟩ expression
    let plain := report ⟨strategy, false, quiet⟩ expression
    match evaluateText strategy expression with
    | .ok value =>
      explained.outcome = .ok true ∧ plain.outcome = .ok true ∧
        plain.output = Utf8.encode (decimal value ++ ['\n']) ∧
        ∃ calculation steps, Calculation.ofText strategy expression = .ok calculation ∧
          calculation.steps = .ok steps ∧ steps.length = calculation.graph.edges.size ∧
          steps.map Step.position = calculation.order ∧
          explained.output =
            (steps.flatMap fun step => Utf8.encode ("  ".toList ++ step.text ++ ['\n'])) ++
              plain.output
    | .error error =>
      explained.outcome = .ok false ∧ plain.outcome = .ok false ∧
        explained.output = Utf8.encode ("error: ".toList ++ error.message ++ ['\n']) ∧
        plain.output = Utf8.encode ("error: ".toList ++ error.message ++ ['\n']) := by
  intro explained plain
  have hexplained := yields_report ⟨strategy, true, quiet⟩ expression
  have hplain := yields_report ⟨strategy, false, quiet⟩ expression
  cases hvalue : evaluateText strategy expression with
  | error error =>
    rw [reportLines_of_error hvalue] at hexplained hplain
    refine ⟨hexplained.outcome_eq, hplain.outcome_eq, ?_, ?_⟩
    · exact hexplained.output_eq.trans (List.append_nil _)
    · exact hplain.output_eq.trans (List.append_nil _)
  | ok value =>
    obtain ⟨calculation, steps, hcalculation, hsteps, hlines⟩ :=
      @reportLines_of_ok ⟨strategy, true, quiet⟩ expression value hvalue
    obtain ⟨_, _, _, _, hlast⟩ :=
      @reportLines_of_ok ⟨strategy, false, quiet⟩ expression value hvalue
    obtain ⟨horder, hlength⟩ := Calculation.map_position_of_steps hcalculation hsteps
    rw [hlines] at hexplained
    rw [hlast] at hplain
    have houtput : plain.output = Utf8.encode (decimal value ++ ['\n']) :=
      hplain.output_eq.trans (List.append_nil _)
    refine ⟨hexplained.outcome_eq, hplain.outcome_eq, houtput, calculation, steps, hcalculation,
      hsteps, hlength, horder, ?_⟩
    refine hexplained.output_eq.trans ?_
    show ((steps.map stepLine ++ [decimal value]).flatMap fun text =>
      Utf8.encode (text ++ ['\n'])) = _
    rw [List.flatMap_append, List.flatMap_map, List.flatMap_singleton, houtput]
    rfl

/-- The product succeeds, and the quotient behind it fails. -/
example : (report ⟨.queue, true, false⟩ "1 + 2 * 3 / 0".toList).output =
    Utf8.encode "error: Division by zero.\n".toList := by decide +kernel

end OperatorChain
