import OperatorChain.Calculation
import OperatorChain.Sink
import OperatorChain.Text.Blank
import OperatorChain.Text.Lines

/-!
# Reports

What is printed for an expression: its value, on request after the steps that lead to it, or the
reason why it has none.  A script is a text with an expression on each line, and its report is made
of theirs.

* `report` — the report of one expression; its answer says whether there was a value.
* `reportScript` — the report of a script; its answer says whether every line had a value.
-/

namespace OperatorChain

/-- What a user may choose. -/
structure Settings where
  strategy : Strategy
  /-- Print the steps before the value. -/
  explain : Bool
  /-- Begin a session without the banner. -/
  quiet : Bool
  deriving DecidableEq, Repr, Inhabited

/-- The line that is printed in place of a value. -/
def failureLine (message : List Char) : List Char :=
  "error: ".toList ++ message

/-- The line that is printed for a step. -/
def stepLine (step : Step) : List Char :=
  "  ".toList ++ step.text

/-- The result of the last step, or the value that an expression without operators has. -/
def Calculation.valueAfter (calculation : Calculation) (steps : List Step) : Int :=
  match steps.getLast? with
  | some step => step.result
  | none => calculation.graph.firstValue

/-- The steps to be printed and the value of a calculation. -/
def Calculation.outcome (calculation : Calculation) (explain : Bool) :
    Except ContractionError (List Step × Int) :=
  if explain then calculation.steps.map fun steps => (steps, calculation.valueAfter steps)
  else calculation.value.map fun value => ([], value)

/-- Prints the report of an expression. -/
def report (settings : Settings) (expression : List Char) : Writing Bool :=
  match Calculation.ofText settings.strategy expression with
  | .error cause => do
    Writing.writeLine (failureLine cause.message)
    pure false
  | .ok calculation =>
    match calculation.outcome settings.explain with
    | .error cause => do
      Writing.writeLine (failureLine cause.message)
      pure false
    | .ok (steps, value) => do
      Writing.writeLines (steps.map stepLine)
      Writing.writeLine (decimal value)
      pure true

/-! ## Scripts -/

/-- The expressions of a script: its lines without the blanks around them, those left out that hold
nothing else. -/
def scriptExpressions (script : List Char) : List (List Char) :=
  ((lines script).map trim).filter fun expression => !expression.isEmpty

/-- Prints the reports of several expressions; the answer says whether all had a value. -/
def reportAll (settings : Settings) : List (List Char) → Writing Bool
  | [] => pure true
  | expression :: rest => do
    let succeeded ← report settings expression
    let othersSucceeded ← reportAll settings rest
    pure (succeeded && othersSucceeded)

/-- Prints the report of a script. -/
def reportScript (settings : Settings) (script : List Char) : Writing Bool :=
  reportAll settings (scriptExpressions script)

end OperatorChain
