import OperatorChain.Operator
import OperatorChain.Text.Decimal

/-!
# Lexemes

What a single word stands for.  A word is taken whole: `Lexeme.ofWord?` never splits it and never
reads a part of it.
-/

namespace OperatorChain

/-- What a word stands for. -/
inductive Lexeme where
  /-- A numeral, with its value of any size. -/
  | literal (value : Int)
  /-- One of the operator symbols. -/
  | operator (op : Operator)
  deriving DecidableEq, Repr

namespace Lexeme

/-- The lexeme that a word stands for.  A sign on its own is an operator; before digits it belongs
to the numeral. -/
def ofWord? (word : List Char) : Option Lexeme :=
  match Operator.ofWord? word with
  | some op => some (.operator op)
  | none => (readInteger? word).map .literal

end Lexeme

end OperatorChain
