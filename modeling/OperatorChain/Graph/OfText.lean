import OperatorChain.Graph.Basic
import OperatorChain.Lexeme
import OperatorChain.ReadError
import OperatorChain.Text.Blank

/-!
# From text to graph

An expression is a sequence of words in which numerals and operators alternate, with a numeral at
either end.  `Graph.ofText` lays such a text out as a graph and refuses any other text for its
first offence.
-/

namespace OperatorChain

namespace Graph

/-- Lays out the remaining words behind a graph.  `position` counts the words before them, and
`expected` says what the first of them has to be. -/
def extend (g : Graph) (expected : Expected) (position : Nat) :
    List (List Char) → Except ReadError Graph
  | [] =>
    match expected with
    | .operator => .ok g
    | .number => .error (.unexpectedEndOfInput position)
  | word :: rest =>
    match Lexeme.ofWord? word, expected with
    | none, _ => .error (.unexpectedToken word position)
    | some (.literal value), .number =>
      if InRange value then
        (g.appendValue value rest.isEmpty).extend .operator (position + 1) rest
      else .error (.literalTooLarge word position)
    | some (.operator op), .operator => (g.appendOperator op).extend .number (position + 1) rest
    | some _, _ => .error (.malformedExpression word position expected)

/-- The graph of a sequence of words. -/
def ofWords : List (List Char) → Except ReadError Graph
  | [] => .error .emptyExpression
  | word :: rest => empty.extend .number 0 (word :: rest)

/-- The graph of a text, with every operator pending. -/
def ofText (text : List Char) : Except ReadError Graph :=
  ofWords (words text)

end Graph

end OperatorChain
