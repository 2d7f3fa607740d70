import OperatorChain.Proofs.Explanation
import OperatorChain.Proofs.Presentation

/-!
# Output that can be taken apart line by line

What is said of an expression may quote its words, whatever they are, and still it is a sequence of
lines whose ends are the only line ends in it.  How a line begins says what it is: a failure, a step
or a value.  So a script without steps has one line of output for each line that is not blank, and
its exit code can be read off these.

* `Prints` — bytes that are these lines and nothing else.
* `IsNumeralLine` — the line of a value.
* `outcomeLine` — the line that is printed for an expression without its steps.
* `invoke_script_lines` — what a script prints, and its exit code.
* `report_prints_lines` — the lines of all reports and of all scripts.
-/

namespace OperatorChain

/-! ## Bytes that are lines -/

/-- The bytes are these lines, each with a line end behind it, and there are no other line ends. -/
structure Prints (bytes : List UInt8) (printed : List (List Char)) : Prop where
  oneLine : ∀ line ∈ printed, OneLine line
  cut : IsCut Session.lineEnd bytes (printed.map fun line => Utf8.encode (line ++ ['\n'])) []

/-- There are as many line ends as lines. -/
theorem Prints.count_eq {bytes : List UInt8} {printed : List (List Char)}
    (h : Prints bytes printed) :
    bytes.count Session.lineEnd = printed.length := by
  rw [h.cut.count_eq, List.length_map]

theorem prints_reports (settings : Settings) (expressions : List (List Char)) :
    Prints (expressions.flatMap fun expression => (report settings expression).output)
      (expressions.flatMap fun expression => (reportLines settings expression).1) := by
  rw [flatMap_output_report]
  exact ⟨oneLine_of_mem_reports, isCut_lines oneLine_of_mem_reports⟩

/-- **A report prints its lines.** -/
theorem prints_report (settings : Settings) (expression : List Char) :
    Prints (report settings expression).output (reportLines settings expression).1 := by
  simpa using prints_reports settings [expression]

/-! ## What a line is -/

/-- An optional minus sign, and one or more ASCII digits. -/
def IsNumeralLine (line : List Char) : Prop :=
  ∃ sign digits : List Char, line = sign ++ digits ∧ (sign = [] ∨ sign = ['-']) ∧ digits ≠ [] ∧
    ∀ c ∈ digits, c.isDigit = true

theorem isNumeralLine_decimal (value : Int) : IsNumeralLine (decimal value) := by
  cases value with
  | ofNat n =>
    exact ⟨[], naturalDecimal n, rfl, .inl rfl, naturalDecimal_ne_nil n,
      fun _ => isDigit_of_mem_naturalDecimal⟩
  | negSucc n =>
    exact ⟨['-'], naturalDecimal (n + 1), rfl, .inr rfl, naturalDecimal_ne_nil _,
      fun _ => isDigit_of_mem_naturalDecimal⟩

/-- A value is not taken for a failure. -/
theorem IsNumeralLine.not_error {line : List Char} (h : IsNumeralLine line) :
    ¬ "error: ".toList <+: line := by
  obtain ⟨sign, digits, rfl, hsign, hne, hdigits⟩ := h
  obtain ⟨d, ds, rfl⟩ := List.exists_cons_of_ne_nil hne
  have hd : d ≠ 'e' := by
    rintro rfl
    exact absurd (hdigits 'e' List.mem_cons_self) (by decide)
  rcases hsign with rfl | rfl <;> rintro ⟨rest, heq⟩ <;> simp at heq
  exact hd heq.1.symm

/-- The line that is printed for an expression without its steps. -/
def outcomeLine (strategy : Strategy) (expression : List Char) : List Char :=
  match evaluateText strategy expression with
  | .ok value => decimal value
  | .error error => failureLine error.message

section Plain

variable {settings : Settings}

theorem reportLines_plain (hplain : settings.explain = false) (expression : List Char) :
    (reportLines settings expression).1 = [outcomeLine settings.strategy expression] := by
  unfold outcomeLine
  cases hvalue : evaluateText settings.strategy expression with
  | error error => rw [reportLines_of_error hvalue]
  | ok value =>
    obtain ⟨_, _, _, _, hlines⟩ := reportLines_of_ok hvalue
    rw [hlines, hplain]
    rfl

/-- **A failure can be told from its line.** -/
theorem error_outcomeLine_iff (settings : Settings) (expression : List Char) :
    "error: ".toList <+: outcomeLine settings.strategy expression ↔
      (reportLines settings expression).2 = false := by
  unfold outcomeLine
  cases hvalue : evaluateText settings.strategy expression with
  | error error =>
    rw [reportLines_of_error hvalue]
    exact iff_of_true (List.prefix_append _ _) rfl
  | ok value =>
    obtain ⟨_, _, _, _, hlines⟩ := reportLines_of_ok hvalue
    rw [hlines]
    exact iff_of_false (isNumeralLine_decimal value).not_error (by simp)

end Plain

/-! ## Scripts -/

/-- **A script without steps** prints one line for each of its lines that are not blank, and the
exit code can be read off these. -/
theorem invoke_script_lines {arguments : List (List Char)} {options : Options}
    {path script : List Char} (h : Options.ofArguments arguments = .ok options)
    (hfile : options.file = true) (hplain : options.explain = false)
    (hpath : options.operand = some path) (input : List UInt8)
    {readFile? : List Char → Option (List UInt8)}
    (hread : (readFile? path).bind Utf8.decode? = some script) :
    let outcome := invoke arguments ⟨input, readFile?, .unlimited⟩
    let printed := (fullLines script).map (outcomeLine options.settings.strategy)
    Prints outcome.output.toList printed ∧
      outcome.output.toList.count Session.lineEnd = (fullLines script).length ∧
      (outcome.code = 1 ↔ ∃ line ∈ printed, "error: ".toList <+: line) := by
  intro outcome printed
  have houtcome : outcome = _ :=
    (invoke_of_ok h _).trans (Options.perform_script hfile hpath input hread)
  have hlines : ((fullLines script).flatMap fun line => (reportLines options.settings line).1) =
      printed := by
    rw [funext (@reportLines_plain options.settings hplain), ← List.map_eq_flatMap]
  have hprints : Prints outcome.output.toList printed := by
    rw [houtcome, ← hlines]
    exact prints_reports options.settings (fullLines script)
  refine ⟨hprints, ?_, ?_⟩
  · rw [hprints.count_eq, List.length_map]
  · rw [houtcome]
    have hcode : ∀ succeeded : Bool, (if succeeded then 0 else 1) = 1 ↔ succeeded = false := by
      decide
    dsimp only
    rw [hcode, List.all_eq_false]
    simp only [printed, List.mem_map, exists_exists_and_eq_and, error_outcomeLine_iff,
      Bool.not_eq_true]

/-- **Whatever the text, what is printed can be taken apart line by line.**  A report is a sequence
of lines, and there are no other line ends in it: either one line that begins as a failure does, or
one that is a number behind any that begin as steps do, of which there are none unless they are
wanted.  So the output of a script without steps that can be read is, line by line, the outcomes of
its lines that are not blank; it has as many line ends as there are such lines, and the exit code is
1 exactly if one of the lines that are printed begins as a failure does. -/
theorem report_prints_lines :
    (∀ (settings : Settings) (expression : List Char), ∃ printed,
      Prints (report settings expression).output printed ∧
        ((∃ line, printed = [line] ∧ "error: ".toList <+: line) ∨
          ∃ steps line, printed = steps ++ [line] ∧ (∀ step ∈ steps, "  #".toList <+: step) ∧
            (settings.explain = false → steps = []) ∧ IsNumeralLine line)) ∧
    ∀ (arguments : List (List Char)) (options : Options) (path script : List Char)
      (input : List UInt8) (readFile? : List Char → Option (List UInt8)),
      Options.ofArguments arguments = .ok options → options.file = true →
      options.explain = false → options.operand = some path →
      (readFile? path).bind Utf8.decode? = some script →
        let outcome := invoke arguments ⟨input, readFile?, .unlimited⟩
        let full := (lines script).filter fun line => !(trim line).isEmpty
        let printed := full.map (outcomeLine options.settings.strategy)
        Prints outcome.output.toList printed ∧
          outcome.output.toList.count Session.lineEnd = full.length ∧
          (outcome.code = 1 ↔ ∃ line ∈ printed, "error: ".toList <+: line) := by
  constructor
  · intro settings expression
    refine ⟨_, prints_report settings expression, ?_⟩
    rcases reportLines_eq_or settings expression with
      ⟨error, -, hlines⟩ | ⟨calculation, steps, -, -, -, hlines⟩
    · rw [hlines]
      exact .inl ⟨_, rfl, List.prefix_append _ _⟩
    · rw [hlines]
      refine .inr ⟨_, _, rfl, ?_, ?_, isNumeralLine_decimal _⟩
      · rintro line hline
        obtain ⟨step, -, rfl⟩ := List.mem_map.1 hline
        exact ⟨_, rfl⟩
      · intro hplain
        rw [hplain]
        rfl
  · intro arguments options path script input readFile? h hfile hplain hpath hread
    exact invoke_script_lines h hfile hplain hpath input hread

/-- A sum behind which a carriage return stands, a blank line, and a quotient that fails. -/
theorem report_prints_lines_quotient :
    let text := "2 + 3 * 4\r\n \n7 / 0".toList
    let readFile? := fun path => if path = "sums".toList then some (Utf8.encode text) else none
    let outcome := invoke ["-qf".toList, "sums".toList] ⟨[], readFile?, .unlimited⟩
    Options.ofArguments ["-qf".toList, "sums".toList] =
        .ok ⟨true, none, false, true, 0, some "sums".toList⟩ ∧
      (readFile? "sums".toList).bind Utf8.decode? = some text ∧
      Prints outcome.output.toList ["14".toList, "error: Division by zero.".toList] ∧
      outcome.output.toList.count Session.lineEnd = 2 ∧ outcome.code = 1 := by
  intro text readFile? outcome
  have hoptions : Options.ofArguments ["-qf".toList, "sums".toList] =
      .ok ⟨true, none, false, true, 0, some "sums".toList⟩ := rfl
  have hfile : readFile? "sums".toList = some (Utf8.encode text) := rfl
  have hread : (readFile? "sums".toList).bind Utf8.decode? = some text := by
    rw [hfile, Option.bind_some, Utf8.decode?_encode]
  obtain ⟨hprints, hcount, hcode⟩ := report_prints_lines.2 _ _ _ _ [] readFile? hoptions rfl rfl rfl
    hread
  have hfull : ((lines text).filter fun line => !(trim line).isEmpty) =
      ["2 + 3 * 4".toList, "7 / 0".toList] := by decide
  have hlines : ["2 + 3 * 4".toList, "7 / 0".toList].map (outcomeLine .scan) =
      ["14".toList, "error: Division by zero.".toList] := by decide +kernel
  have hscan : (⟨true, none, false, true, 0, some "sums".toList⟩ : Options).settings.strategy =
      .scan := rfl
  rw [hfull, hscan, hlines] at hprints hcode
  rw [hfull] at hcount
  have houtcome : outcome =
      invoke ["-qf".toList, "sums".toList] ⟨[], readFile?, .unlimited⟩ := rfl
  rw [houtcome]
  exact ⟨hoptions, hread, hprints, hcount, hcode.2 ⟨_, by simp, "Division by zero.".toList, rfl⟩⟩

end OperatorChain
