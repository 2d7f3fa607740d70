import OperatorChain.Graph.Contract
import OperatorChain.Heap
import OperatorChain.Priority

/-!
# Runs

One evaluation in progress: a graph that is contracted one operator at a time, and the means of
finding the next operator.

* `Strategy` — the two means: looking through all edges anew each time, or a heap that is filled
  once.
* `Run.next`, `Run.answers` — one contraction, and one after the other.
* `Run.value`, `Run.steps` — what comes out when a run is carried to its end.

A run is a value: `next` answers the run that is left, and the run that it was asked of can be
asked again.
-/

namespace OperatorChain

/-- How the next operator is found. -/
inductive Strategy where
  /-- By looking through all edges before each contraction. -/
  | scan
  /-- By taking it from a heap that holds all operators from the start. -/
  | queue
  deriving DecidableEq, Repr, Inhabited

/-- The word for a strategy. -/
def Strategy.name : Strategy → List Char
  | .scan => "scan".toList
  | .queue => "queue".toList

/-- The strategy that a word stands for. -/
def Strategy.ofName? (word : List Char) : Option Strategy :=
  [Strategy.scan, Strategy.queue].find? fun strategy => strategy.name = word

/-- What a run knows about the operators still to come. -/
inductive Agenda where
  /-- Nothing: the graph says which of them are pending. -/
  | rescan
  /-- The operators still to come. -/
  | queued (heap : Heap Priority)
  deriving Repr

namespace Agenda

/-- The agenda of a run that begins with the graph. -/
def start (strategy : Strategy) (g : Graph) : Agenda :=
  match strategy with
  | .scan => .rescan
  | .queue => .queued (.ofList g.pending)

/-- The position of the operator that comes next, and the agenda after it. -/
def next? (agenda : Agenda) (g : Graph) : Option (Nat × Agenda) :=
  match agenda with
  | .rescan => g.pending.min?.map fun first => (first.position, .rescan)
  | .queued heap => heap.popMin?.map fun (first, others) => (first.position, .queued others)

end Agenda

/-- An evaluation in progress. -/
structure Run where
  graph : Graph
  agenda : Agenda
  /-- Has a contraction failed?  Then no other is tried. -/
  failed : Bool
  deriving Repr

namespace Run

/-- The run that contracts the graph from the start. -/
def start (strategy : Strategy) (g : Graph) : Run :=
  ⟨g, .start strategy g, false⟩

/-- The next contraction: its step or the reason why it failed, and nothing when no operator is
left or one has failed before. -/
def next (run : Run) : Option (Except ContractionError Step) × Run :=
  if run.failed then (none, run)
  else
    match run.agenda.next? run.graph with
    | none => (none, run)
    | some (position, agenda) =>
      match run.graph.contract position with
      | (.ok step, graph) => (some (.ok step), ⟨graph, agenda, false⟩)
      | (.error error, graph) => (some (.error error), ⟨graph, agenda, true⟩)

/-- The first `count` answers, each with the run that it leaves. -/
def answers : (count : Nat) → Run → List (Option (Except ContractionError Step) × Run)
  | 0, _ => []
  | count + 1, run =>
    let answered := run.next
    answered :: answers count answered.2

/-- The result of the last of at most `limit` contractions, and `total` if there are none. -/
def value (total : Int) : (limit : Nat) → Run → Except ContractionError Int
  | 0, _ => .ok total
  | limit + 1, run =>
    match run.next with
    | (none, _) => .ok total
    | (some (.error error), _) => .error error
    | (some (.ok step), run) => value step.result limit run

/-- The steps of at most `limit` contractions. -/
def steps : (limit : Nat) → Run → Except ContractionError (List Step)
  | 0, _ => .ok []
  | limit + 1, run =>
    match run.next with
    | (none, _) => .ok []
    | (some (.error error), _) => .error error
    | (some (.ok step), run) => (steps limit run).map (step :: ·)

end Run

end OperatorChain
