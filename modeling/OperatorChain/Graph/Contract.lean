import OperatorChain.Graph.Basic
import OperatorChain.Text.Decimal

/-!
# Contraction

Applying one operator of a graph: its two operands give way to a new node that holds the result,
and the operators beside them are tied to that node.

* `Step` — the record of a contraction, and `Step.text`, the equation that it states.
* `Graph.contract` — the contraction of the edge at a position.

A contraction that fails keeps what it had changed before it failed: the answer is always a pair of
the outcome and the graph that is left behind.
-/

namespace OperatorChain

/-- The record of a contraction. -/
structure Step where
  position : Nat
  operator : Operator
  left : Int
  right : Int
  result : Int
  deriving DecidableEq, Repr

/-- The equation of a step, after the position of its operator: `#0: 1 + 2 = 3`. -/
def Step.text (step : Step) : List Char :=
  ['#'] ++ naturalDecimal step.position ++ [':', ' '] ++ decimal step.left ++
    [' ', step.operator.symbol, ' '] ++ decimal step.right ++ [' ', '=', ' '] ++
    decimal step.result

namespace Graph

/-! ## The single changes -/

/-- Marks the edge as contracted, if there is one. -/
def mark (g : Graph) (position : Nat) : Graph :=
  { g with edges := g.edges.modify position fun edge => { edge with contracted := true } }

/-- Appends a node. -/
def push (g : Graph) (node : Node) : Graph :=
  { g with nodes := g.nodes.push node }

/-- No edge is named, or the named edge is stored. -/
def hasNeighbour (g : Graph) : Option Nat → Bool
  | none => true
  | some edge => edge < g.edges.size

/-- Makes the node the right operand of the named edge, if there is one. -/
def tieRight (g : Graph) (edge? : Option Nat) (node : Nat) : Graph :=
  match edge? with
  | none => g
  | some edge => { g with edges := g.edges.modify edge fun e => { e with right := node } }

/-- Makes the node the left operand of the named edge, if there is one. -/
def tieLeft (g : Graph) (edge? : Option Nat) (node : Nat) : Graph :=
  match edge? with
  | none => g
  | some edge => { g with edges := g.edges.modify edge fun e => { e with left := node } }

/-! ## What these changes leave as it is -/

@[simp] theorem nodes_mark (g : Graph) (position : Nat) : (g.mark position).nodes = g.nodes := rfl

@[simp] theorem size_edges_mark (g : Graph) (position : Nat) :
    (g.mark position).edges.size = g.edges.size := by
  simp [mark]

@[simp] theorem edges_push (g : Graph) (node : Node) : (g.push node).edges = g.edges := rfl

@[simp] theorem size_nodes_push (g : Graph) (node : Node) :
    (g.push node).nodes.size = g.nodes.size + 1 := by
  simp [push]

@[simp] theorem nodes_tieRight (g : Graph) (edge? : Option Nat) (node : Nat) :
    (g.tieRight edge? node).nodes = g.nodes := by
  cases edge? <;> rfl

@[simp] theorem size_edges_tieRight (g : Graph) (edge? : Option Nat) (node : Nat) :
    (g.tieRight edge? node).edges.size = g.edges.size := by
  cases edge? <;> simp [tieRight]

@[simp] theorem nodes_tieLeft (g : Graph) (edge? : Option Nat) (node : Nat) :
    (g.tieLeft edge? node).nodes = g.nodes := by
  cases edge? <;> rfl

@[simp] theorem size_edges_tieLeft (g : Graph) (edge? : Option Nat) (node : Nat) :
    (g.tieLeft edge? node).edges.size = g.edges.size := by
  cases edge? <;> simp [tieLeft]

/-! ## Contracting -/

/-- Puts the node that replaces two operands into the graph: it is appended, then the edge on its
left is tied to it, then the edge on its right.  The node is the last one stored, which is where its
index comes from. -/
def replaceOperands (g : Graph) (node : Node) (step : Step) :
    Except ContractionError Step × Graph :=
  let g := g.push node
  let index := g.nodes.size - 1
  if g.hasNeighbour node.left then
    let g := g.tieRight node.left index
    if g.hasNeighbour node.right then
      (.ok step, g.tieLeft node.right index)
    else (.error .danglingIndex, g)
  else (.error .danglingIndex, g)

/-- Contracts the edge at `position`: it is marked, its operator is applied to its operands, and
the result replaces them.  An edge that was contracted before is applied again to the operands that
it names now. -/
def contract (g : Graph) (position : Nat) : Except ContractionError Step × Graph :=
  let g := g.mark position
  match g.edges[position]? with
  | none => (.error .danglingIndex, g)
  | some edge =>
    match g.nodes[edge.left]?, g.nodes[edge.right]? with
    | some left, some right =>
      match edge.operator.apply left.value right.value position with
      | .error error => (.error error, g)
      | .ok result =>
        g.replaceOperands ⟨result, left.left, right.right⟩
          ⟨position, edge.operator, left.value, right.value, result⟩
    | _, _ => (.error .danglingIndex, g)

end Graph

end OperatorChain
