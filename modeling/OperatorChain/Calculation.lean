import OperatorChain.Graph.OfText
import OperatorChain.Run

/-!
# Calculations

An expression laid out as a graph, ready to be evaluated any number of times.  Each evaluation is a
run of its own on the graph as it was laid out.

* `Calculation.ofText` — from text to calculation.
* `Calculation.value`, `Calculation.steps`, `Calculation.order` — the result, how it comes about,
  and in which order.
* `evaluateText`, `evaluate` — all in one: from text to value, or the cause of failure of either
  phase.
-/

namespace OperatorChain

/-- A graph with all operators pending, and how a run finds the next one. -/
structure Calculation where
  graph : Graph
  strategy : Strategy
  deriving Repr

namespace Calculation

/-- The calculation of a text. -/
def ofText (strategy : Strategy) (text : List Char) : Except ReadError Calculation :=
  (Graph.ofText text).map fun graph => ⟨graph, strategy⟩

/-- A run from the start. -/
def start (calculation : Calculation) : Run :=
  .start calculation.strategy calculation.graph

/-- The largest number of contractions that a run can have: each of them uses up an operator. -/
def limit (calculation : Calculation) : Nat :=
  calculation.graph.edges.size

/-- The result of the last contraction; a single literal is its own value. -/
def value (calculation : Calculation) : Except ContractionError Int :=
  calculation.start.value calculation.graph.firstValue calculation.limit

/-- The record of all contractions. -/
def steps (calculation : Calculation) : Except ContractionError (List Step) :=
  calculation.start.steps calculation.limit

/-- The positions of the operators in the order in which they are contracted.  It needs no
evaluation: weights and positions never change. -/
def order (calculation : Calculation) : List Nat :=
  calculation.graph.order

end Calculation

/-- Why an expression has no value. -/
inductive EvaluationError where
  /-- The text is no expression. -/
  | reading (cause : ReadError)
  /-- An operator could not be applied. -/
  | contraction (cause : ContractionError)
  deriving DecidableEq, Repr

/-- The wording of the cause. -/
def ContractionError.message : ContractionError → List Char
  | .divisionByZero _ => "Division by zero.".toList
  | .overflow position =>
    "Integer overflow while contracting operator ".toList ++ naturalDecimal position ++ ".".toList
  | .danglingIndex => "Index out of bounds.".toList

/-- The wording of the cause, whichever phase it comes from. -/
def EvaluationError.message : EvaluationError → List Char
  | .reading cause => cause.message
  | .contraction cause => cause.message

/-- The value of a text, found with the given strategy. -/
def evaluateText (strategy : Strategy) (text : List Char) : Except EvaluationError Int :=
  match Calculation.ofText strategy text with
  | .error cause => .error (.reading cause)
  | .ok calculation =>
    match calculation.value with
    | .error cause => .error (.contraction cause)
    | .ok value => .ok value

/-- The value of an expression such as `"2 + 2 * 2"`, found by looking through all operators before
each contraction. -/
def evaluate (expression : String) : Except EvaluationError Int :=
  evaluateText .scan expression.toList

end OperatorChain
