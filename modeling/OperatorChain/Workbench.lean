import OperatorChain.Calculation

/-!
# Workbenches

A workbench holds at most one calculation and any number of runs.  It can be asked for what the
calculation answers, for a new run of it, and for the next contraction of any run.  A run keeps
going when its calculation has made way for another.

* `Request`, `Answer` — what can be asked, and what is answered.
* `Workbench.handle` — one request.
* `Workbench.handleAll` — the answers to a sequence of requests, and the workbench after them.
-/

namespace OperatorChain

/-- What a workbench can be asked for. -/
inductive Request where
  /-- To take up the calculation of a text in place of the one that it holds. -/
  | takeUp (strategy : Strategy) (text : List Char)
  /-- The value of the calculation. -/
  | value
  /-- The steps of the calculation. -/
  | steps
  /-- The order in which the calculation contracts its operators. -/
  | order
  /-- The graph of the calculation. -/
  | graph
  /-- A new run of the calculation. -/
  | begin
  /-- The next contraction of a run. -/
  | next (run : Nat)
  /-- The graph of a run. -/
  | graphOf (run : Nat)
  deriving DecidableEq, Repr

/-- What a workbench answers. -/
inductive Answer where
  /-- The calculation has been taken up. -/
  | takenUp (strategy : Strategy)
  /-- The text is no expression, and the calculation stays. -/
  | refused (cause : ReadError)
  | value (outcome : Except ContractionError Int)
  | steps (outcome : Except ContractionError (List Step))
  | order (positions : List Nat)
  | graph (graph : Graph)
  /-- The run has been begun under that number. -/
  | begun (run : Nat)
  /-- The contraction, and nothing if the run has ended. -/
  | next (outcome : Option (Except ContractionError Step))
  /-- There is no calculation, or no run of that number. -/
  | missing
  deriving Repr

/-- At most one calculation, and the runs that have been begun. -/
structure Workbench where
  calculation : Option Calculation
  runs : Array Run
  deriving Repr

namespace Workbench

/-- Nothing has been taken up or begun. -/
def empty : Workbench :=
  ⟨none, #[]⟩

/-- Answers from the calculation, if there is one. -/
def ask (bench : Workbench) (answer : Calculation → Answer) : Answer :=
  match bench.calculation with
  | none => .missing
  | some calculation => answer calculation

/-- Handles one request. -/
def handle (bench : Workbench) : Request → Answer × Workbench
  | .takeUp strategy text =>
    match Calculation.ofText strategy text with
    | .error cause => (.refused cause, bench)
    | .ok calculation => (.takenUp strategy, { bench with calculation := some calculation })
  | .value => (bench.ask fun calculation => .value calculation.value, bench)
  | .steps => (bench.ask fun calculation => .steps calculation.steps, bench)
  | .order => (bench.ask fun calculation => .order calculation.order, bench)
  | .graph => (bench.ask fun calculation => .graph calculation.graph, bench)
  | .begin =>
    match bench.calculation with
    | none => (.missing, bench)
    | some calculation =>
      (.begun bench.runs.size, { bench with runs := bench.runs.push calculation.start })
  | .next number =>
    match bench.runs[number]? with
    | none => (.missing, bench)
    | some run =>
      let (outcome, run) := run.next
      (.next outcome, { bench with runs := bench.runs.setIfInBounds number run })
  | .graphOf number =>
    match bench.runs[number]? with
    | none => (.missing, bench)
    | some run => (.graph run.graph, bench)

/-- Handles requests from the first to the last. -/
def handleAll (bench : Workbench) : List Request → List Answer × Workbench
  | [] => ([], bench)
  | request :: rest =>
    let (answer, bench) := bench.handle request
    let (answers, bench) := bench.handleAll rest
    (answer :: answers, bench)

end Workbench

end OperatorChain
