import OperatorChain.Operator

/-!
# The expression graph

Values and the operators between them, kept in two arrays that refer to each other by index.  What
has been stored stays where it is, so an index means the same for as long as the graph lives.

* `Node`, `Edge`, `Graph` — the data.
* `Graph.appendValue`, `Graph.appendOperator` — how a graph is laid out from left to right.
* `Graph.hasPending`, `Graph.firstValue` — what can be asked of it.
-/

namespace OperatorChain

/-- A value somewhere along the chain. -/
structure Node where
  /-- A literal, or the result of a contraction. -/
  value : Int
  /-- The edge on the left, if the value is not the leftmost one. -/
  left : Option Nat
  /-- The edge on the right, if the value is not the rightmost one. -/
  right : Option Nat
  deriving DecidableEq, Repr, Inhabited

/-- An operator between two neighbouring values. -/
structure Edge where
  operator : Operator
  /-- The number of operators to the left of this one in the expression. -/
  position : Nat
  /-- The node that holds the left operand. -/
  left : Nat
  /-- The node that holds the right operand. -/
  right : Nat
  /-- Has the operator been applied? -/
  contracted : Bool
  deriving DecidableEq, Repr, Inhabited

/-- How tightly the operator of the edge binds. -/
def Edge.weight (edge : Edge) : Nat :=
  edge.operator.weight

/-- An expression as values and the operators between them. -/
structure Graph where
  nodes : Array Node
  edges : Array Edge
  deriving DecidableEq, Repr, Inhabited

namespace Graph

/-- The graph without values and operators. -/
def empty : Graph :=
  ⟨#[], #[]⟩

/-- Appends a value, tied to the last operator on its left and, unless it ends the expression, to
the operator that will come next. -/
def appendValue (g : Graph) (value : Int) (isLast : Bool) : Graph :=
  let next := g.edges.size
  { g with
    nodes := g.nodes.push
      { value
        left := if next = 0 then none else some (next - 1)
        right := if isLast then none else some next } }

/-- Appends an operator between the value appended last and the one that will come next. -/
def appendOperator (g : Graph) (operator : Operator) : Graph :=
  let position := g.edges.size
  { g with
    edges := g.edges.push
      { operator, position, left := position, right := position + 1, contracted := false } }

/-- Is there an operator that has not been applied? -/
def hasPending (g : Graph) : Bool :=
  g.edges.any fun edge => !edge.contracted

/-- The value stored first, and zero when there is none. -/
def firstValue (g : Graph) : Int :=
  match g.nodes[0]? with
  | some node => node.value
  | none => 0

/-! ## What appending changes -/

@[simp] theorem edges_appendValue (g : Graph) (value : Int) (isLast : Bool) :
    (g.appendValue value isLast).edges = g.edges := rfl

@[simp] theorem nodes_appendOperator (g : Graph) (operator : Operator) :
    (g.appendOperator operator).nodes = g.nodes := rfl

@[simp] theorem size_nodes_appendValue (g : Graph) (value : Int) (isLast : Bool) :
    (g.appendValue value isLast).nodes.size = g.nodes.size + 1 := by
  simp [appendValue]

@[simp] theorem size_edges_appendOperator (g : Graph) (operator : Operator) :
    (g.appendOperator operator).edges.size = g.edges.size + 1 := by
  simp [appendOperator]

end Graph

end OperatorChain
