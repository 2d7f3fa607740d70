import OperatorChain.Text.Decimal

/-!
# Why a text is no expression

The causes for which a text is refused, and their wording.  A position is the number of words to
the left of the place in question.
-/

namespace OperatorChain

/-- What the next word has to be. -/
inductive Expected where
  | number
  | operator
  deriving DecidableEq, Repr

/-- The wording of an expectation. -/
def Expected.text : Expected → List Char
  | .number => "a number".toList
  | .operator => "an operator".toList

/-- Why a text is refused as an expression. -/
inductive ReadError where
  /-- There are no words. -/
  | emptyExpression
  /-- The word is neither a numeral nor an operator. -/
  | unexpectedToken (token : List Char) (position : Nat)
  /-- A numeral stands where an operator has to stand, or the other way round. -/
  | malformedExpression (token : List Char) (position : Nat) (expected : Expected)
  /-- The value of the numeral cannot be stored. -/
  | literalTooLarge (token : List Char) (position : Nat)
  /-- The last word is an operator, and a numeral has to follow it. -/
  | unexpectedEndOfInput (position : Nat)
  deriving DecidableEq, Repr

/-- The wording of the cause. -/
def ReadError.message : ReadError → List Char
  | .emptyExpression => "Empty expression.".toList
  | .unexpectedToken token position =>
    "Unexpected token '".toList ++ token ++ "' at position ".toList ++ naturalDecimal position ++
      ".".toList
  | .malformedExpression token position expected =>
    "Malformed expression: expected ".toList ++ expected.text ++ " at position ".toList ++
      naturalDecimal position ++ " but found '".toList ++ token ++ "'.".toList
  | .literalTooLarge token position =>
    "Literal '".toList ++ token ++ "' at position ".toList ++ naturalDecimal position ++
      " is too large.".toList
  | .unexpectedEndOfInput position =>
    "Unexpected end of input: expected a number at position ".toList ++ naturalDecimal position ++
      ".".toList

end OperatorChain
