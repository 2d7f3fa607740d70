import OperatorChain.Graph.Contract

/-!
# Histories of a graph

A graph can be changed in three ways, in any order and with any arguments, whether or not the
result is an expression.

* `Edit` — one change.
* `Graph.edit` — its answer and the graph after it.
* `Graph.editAll` — the graph after a history of changes, from the first to the last.
-/

namespace OperatorChain

/-- One change of a graph. -/
inductive Edit where
  /-- A value is appended, the last one of its expression or not. -/
  | appendValue (value : Int) (isLast : Bool)
  /-- An operator is appended. -/
  | appendOperator (operator : Operator)
  /-- The edge at a position is contracted. -/
  | contract (position : Nat)
  deriving DecidableEq, Repr

namespace Graph

/-- Makes one change.  Only a contraction has something to answer. -/
def edit (g : Graph) : Edit → Option (Except ContractionError Step) × Graph
  | .appendValue value isLast => (none, g.appendValue value isLast)
  | .appendOperator operator => (none, g.appendOperator operator)
  | .contract position =>
    let (outcome, g) := g.contract position
    (some outcome, g)

/-- The graph that a history of changes leads to. -/
def editAll (g : Graph) (history : List Edit) : Graph :=
  history.foldl (fun g change => (g.edit change).2) g

end Graph

end OperatorChain
