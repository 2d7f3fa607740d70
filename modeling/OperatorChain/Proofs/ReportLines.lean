import OperatorChain.Proofs.Completion
import OperatorChain.Proofs.Offences
import OperatorChain.Proofs.Output

/-!
# The lines of a report

The value of an expression is found without its steps or read off the last of them, and with either
strategy; the lines that are printed differ by the lines of the steps only.  No word that is quoted
has a line end in it, so what is printed as a line is a line.

* `Calculation.value_eq_map_steps` — the value is read off the last step.
* `reportLines_eq_or` — the lines of a report, in terms of the evaluation.
* `reportLines_congr` — the strategy and the banner have no bearing on a report.
* `reportLines_explained` — the steps are printed in front of what is printed anyway.
* `reportLines_cases` — a failure, or steps and a value.
* `oneLine_of_mem_reportLines` — each line that is printed is one line.
-/

namespace OperatorChain

/-! ## The value and the steps -/

namespace Calculation

theorem valueAfter_eq (calculation : Calculation) (steps : List Step) :
    calculation.valueAfter steps = Run.lastResult calculation.graph.firstValue steps := by
  rw [valueAfter, Run.lastResult]
  cases steps.getLast? <;> rfl

theorem value_eq_map_steps (calculation : Calculation) :
    calculation.value = calculation.steps.map calculation.valueAfter := by
  rw [value, Run.value_eq_map_steps, funext calculation.valueAfter_eq]
  rfl

/-- **Both ways to the value** are the way by the steps, and these are left out if they are not
wanted. -/
theorem outcome_eq (calculation : Calculation) (explain : Bool) :
    calculation.outcome explain = calculation.steps.map fun steps =>
      (if explain then steps else [], calculation.valueAfter steps) := by
  cases explain with
  | true => rfl
  | false =>
    show calculation.value.map _ = _
    rw [value_eq_map_steps]
    cases calculation.steps <;> rfl

/-- The strategy has no bearing on what is printed. -/
theorem outcome_eq_of_ofText {strategy strategy' : Strategy} {text : List Char} {g : Graph}
    (h : Graph.ofText text = .ok g) (explain : Bool) :
    outcome ⟨g, strategy⟩ explain = outcome ⟨g, strategy'⟩ explain := by
  obtain ⟨e, he, rfl⟩ := Graph.ofText_eq_ok_iff.1 h
  unfold outcome
  rw [value_eq_reference he, value_eq_reference he, steps_eq_referenceSteps he,
    steps_eq_referenceSteps he]
  rfl

end Calculation

/-! ## Reports in terms of the evaluation -/

section ReportLines

variable {settings : Settings} {expression : List Char}

/-- **A report, whichever way it ends**: one line if there is no value, and else the steps that are
wanted and the value that is read off the last of all. -/
theorem reportLines_eq_or (settings : Settings) (expression : List Char) :
    (∃ error, evaluateText settings.strategy expression = .error error ∧
        reportLines settings expression = ([failureLine error.message], false)) ∨
      ∃ calculation steps, Calculation.ofText settings.strategy expression = .ok calculation ∧
        calculation.steps = .ok steps ∧
        evaluateText settings.strategy expression = .ok (calculation.valueAfter steps) ∧
        reportLines settings expression =
          ((if settings.explain then steps else []).map stepLine ++
            [decimal (calculation.valueAfter steps)], true) := by
  unfold evaluateText reportLines
  cases Calculation.ofText settings.strategy expression with
  | error cause => exact .inl ⟨.reading cause, rfl, rfl⟩
  | ok calculation =>
    dsimp only
    rw [calculation.value_eq_map_steps, calculation.outcome_eq]
    cases hsteps : calculation.steps with
    | error cause => exact .inl ⟨.contraction cause, rfl, rfl⟩
    | ok steps => exact .inr ⟨calculation, steps, rfl, hsteps, rfl, rfl⟩

/-- Where there is no value, the report is the line that says why, whether or not steps are wanted.
-/
theorem reportLines_of_error {error : EvaluationError}
    (h : evaluateText settings.strategy expression = .error error) :
    reportLines settings expression = ([failureLine error.message], false) := by
  rcases reportLines_eq_or settings expression with
    ⟨error', herror, hlines⟩ | ⟨_, _, -, -, hvalue, -⟩
  · cases herror.symm.trans h
    exact hlines
  · cases hvalue.symm.trans h

/-- Where there is a value, the report ends with it, and the steps that lead to it come first if
they are wanted. -/
theorem reportLines_of_ok {value : Int}
    (h : evaluateText settings.strategy expression = .ok value) :
    ∃ calculation steps, Calculation.ofText settings.strategy expression = .ok calculation ∧
      calculation.steps = .ok steps ∧
      reportLines settings expression =
        ((if settings.explain then steps else []).map stepLine ++ [decimal value], true) := by
  rcases reportLines_eq_or settings expression with
    ⟨_, herror, -⟩ | ⟨calculation, steps, hcalculation, hsteps, hvalue, hlines⟩
  · cases herror.symm.trans h
  · cases hvalue.symm.trans h
    exact ⟨calculation, steps, hcalculation, hsteps, hlines⟩

end ReportLines

/-! ## What has a bearing on a report -/

/-- **The strategy and the banner have no bearing on a report.** -/
theorem reportLines_congr {settings settings' : Settings}
    (h : settings.explain = settings'.explain) (expression : List Char) :
    reportLines settings expression = reportLines settings' expression := by
  unfold reportLines Calculation.ofText
  cases hg : Graph.ofText expression with
  | error cause => rfl
  | ok g =>
    dsimp only [Except.map]
    rw [h, Calculation.outcome_eq_of_ofText hg]

theorem report_congr {settings settings' : Settings} (h : settings.explain = settings'.explain) :
    report settings = report settings' := by
  funext expression
  refine (yields_report settings expression).unique ?_
  rw [reportLines_congr h]
  exact yields_report settings' expression

/-- **The steps are printed in front of what is printed anyway**, and nothing else changes. -/
theorem reportLines_explained {explained plain : Settings} (hexplain : explained.explain = true)
    (hplain : plain.explain = false) (expression : List Char) :
    (reportLines explained expression).2 = (reportLines plain expression).2 ∧
      ∃ steps : List Step, (reportLines explained expression).1 =
        steps.map stepLine ++ (reportLines plain expression).1 := by
  rw [@reportLines_congr explained ⟨plain.strategy, true, plain.quiet⟩ hexplain]
  cases hvalue : evaluateText plain.strategy expression with
  | error error =>
    rw [reportLines_of_error hvalue, @reportLines_of_error ⟨_, true, _⟩ expression _ hvalue]
    exact ⟨rfl, [], rfl⟩
  | ok value =>
    obtain ⟨_, _, -, -, hlines⟩ := reportLines_of_ok hvalue
    obtain ⟨_, steps, -, -, hlines'⟩ :=
      @reportLines_of_ok ⟨plain.strategy, true, plain.quiet⟩ expression _ hvalue
    rw [hlines, hlines', hplain]
    exact ⟨rfl, steps, rfl⟩

/-! ## Lines are lines -/

/-- No line ends within the text. -/
def OneLine (text : List Char) : Prop :=
  '\n' ∉ text

instance : DecidablePred OneLine := fun text =>
  inferInstanceAs (Decidable ('\n' ∉ text))

theorem OneLine.append {text text' : List Char} (h : OneLine text) (h' : OneLine text') :
    OneLine (text ++ text') :=
  List.not_mem_append h h'

theorem oneLine_naturalDecimal (n : Nat) : OneLine (naturalDecimal n) := fun h =>
  absurd (isDigit_of_mem_naturalDecimal h) (by decide)

theorem oneLine_decimal (value : Int) : OneLine (decimal value) := by
  cases value with
  | ofNat n => exact oneLine_naturalDecimal n
  | negSucc n => exact @OneLine.append ['-'] _ (by decide) (oneLine_naturalDecimal (n + 1))

theorem oneLine_of_mem_words {text word : List Char} (h : word ∈ words text) : OneLine word := by
  have hword := (words_eq_iff.1 rfl).2 word h
  exact fun hmem => absurd (hword.no_blank _ hmem) (by decide)

theorem Expected.oneLine_text (expected : Expected) : OneLine expected.text := by
  cases expected <;> decide

/-- What is said of a word is one line if the word is. -/
theorem Misfit.oneLine_message {position : Nat} {word : List Char} {expected : Expected}
    {error : ReadError} (h : Misfit position word expected error) (hword : OneLine word) :
    OneLine error.message := by
  have hposition := oneLine_naturalDecimal position
  have hexpected : ∀ expected : Expected,
      OneLine (ReadError.malformedExpression word position expected).message := fun expected =>
    OneLine.append (by decide) expected.oneLine_text |>.append (by decide) |>.append hposition
      |>.append (by decide) |>.append hword |>.append (by decide)
  cases h with
  | symbol _ => exact hexpected .number
  | numeral _ => exact hexpected .operator
  | unknown _ _ | tooLarge _ _ =>
    exact OneLine.append (by decide) hword |>.append (by decide) |>.append hposition
      |>.append (by decide)

/-- What is said of a sequence of words is one line if the words are. -/
theorem FirstOffence.oneLine_message {ws : List (List Char)} {error : ReadError}
    (h : FirstOffence ws error) (hws : ∀ word ∈ ws, OneLine word) : OneLine error.message := by
  cases h with
  | noWords => decide
  | word _ hmisfit => exact hmisfit.oneLine_message (hws _ (by simp))
  | noEnd _ _ _ => exact OneLine.append (by decide) (oneLine_naturalDecimal _) |>.append (by decide)

/-- What is said of a text is one line, whatever the text. -/
theorem Graph.oneLine_of_ofText {text : List Char} {cause : ReadError}
    (h : Graph.ofText text = .error cause) : OneLine cause.message :=
  (Graph.ofWords_eq_error_iff.1 h).oneLine_message fun _ => oneLine_of_mem_words

theorem ContractionError.oneLine_message (error : ContractionError) : OneLine error.message := by
  cases error with
  | divisionByZero position => exact (by decide : OneLine "Division by zero.".toList)
  | overflow position =>
    exact OneLine.append (by decide) (oneLine_naturalDecimal position) |>.append (by decide)
  | danglingIndex => decide

theorem Operator.oneLine_symbol (operator : Operator) : OneLine [' ', operator.symbol, ' '] := by
  cases operator <;> decide

theorem Step.oneLine_text (step : Step) : OneLine step.text :=
  OneLine.append (by decide) (oneLine_naturalDecimal step.position) |>.append (by decide)
    |>.append (oneLine_decimal step.left) |>.append step.operator.oneLine_symbol
    |>.append (oneLine_decimal step.right) |>.append (by decide)
    |>.append (oneLine_decimal step.result)

/-- What is said of an expression that has no value is one line. -/
theorem oneLine_of_evaluateText {strategy : Strategy} {text : List Char} {error : EvaluationError}
    (h : evaluateText strategy text = .error error) : OneLine error.message := by
  unfold evaluateText Calculation.ofText at h
  cases hg : Graph.ofText text with
  | error cause =>
    rw [hg] at h
    cases h
    exact Graph.oneLine_of_ofText hg
  | ok g =>
    rw [hg] at h
    dsimp only [Except.map] at h
    cases hvalue : Calculation.value ⟨g, strategy⟩ with
    | error cause =>
      rw [hvalue] at h
      cases h
      exact cause.oneLine_message
    | ok value =>
      rw [hvalue] at h
      cases h

/-- **The lines of a report**: one failure, or the steps if they are wanted, and a value. -/
theorem reportLines_cases {settings : Settings} {expression : List Char} :
    (∃ message, OneLine message ∧
        reportLines settings expression = ([failureLine message], false)) ∨
      ∃ (steps : List Step) (value : Int), (settings.explain = false → steps = []) ∧
        reportLines settings expression = (steps.map stepLine ++ [decimal value], true) := by
  rcases reportLines_eq_or settings expression with
    ⟨error, herror, hlines⟩ | ⟨_, steps, -, -, -, hlines⟩
  · exact .inl ⟨_, oneLine_of_evaluateText herror, hlines⟩
  · exact .inr ⟨_, _, fun hplain => by simp [hplain], hlines⟩

/-- **Each line of a report is one line.** -/
theorem oneLine_of_mem_reportLines {settings : Settings} {expression line : List Char}
    (h : line ∈ (reportLines settings expression).1) : OneLine line := by
  rcases reportLines_cases with ⟨message, hmessage, hlines⟩ | ⟨steps, value, -, hlines⟩
  · rw [hlines] at h
    obtain rfl := List.mem_singleton.1 h
    exact OneLine.append (by decide) hmessage
  · rw [hlines, List.mem_append, List.mem_map, List.mem_singleton] at h
    rcases h with ⟨step, -, rfl⟩ | rfl
    · exact OneLine.append (by decide) step.oneLine_text
    · exact oneLine_decimal value

theorem exists_decimal_eq_cons (value : Int) : ∃ c rest, decimal value = c :: rest ∧ c ≠ ' ' := by
  cases value with
  | negSucc n => exact ⟨'-', _, rfl, by decide⟩
  | ofNat n =>
    obtain ⟨c, rest, hcons⟩ := List.exists_cons_of_ne_nil (naturalDecimal_ne_nil n)
    refine ⟨c, rest, hcons, ?_⟩
    rintro rfl
    have hdigit := @isDigit_of_mem_naturalDecimal n ' ' (by rw [hcons]; exact List.mem_cons_self)
    exact absurd hdigit (by decide)

/-- Without steps, no line of a report begins with a blank. -/
theorem exists_eq_cons_of_mem_reportLines {settings : Settings} {expression line : List Char}
    (hplain : settings.explain = false) (h : line ∈ (reportLines settings expression).1) :
    ∃ c rest, line = c :: rest ∧ c ≠ ' ' := by
  rcases reportLines_cases with ⟨message, -, hlines⟩ | ⟨steps, value, hsteps, hlines⟩
  · rw [hlines] at h
    obtain rfl := List.mem_singleton.1 h
    exact ⟨'e', _, rfl, by decide⟩
  · rw [hlines, hsteps hplain, List.map_nil, List.nil_append] at h
    obtain rfl := List.mem_singleton.1 h
    exact exists_decimal_eq_cons value

end OperatorChain
