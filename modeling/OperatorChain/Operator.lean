/-!
# Operators and their arithmetic

The four binary operators, and their application to values that fit into 64 bits.

* `Operator.result?` — the result over the unbounded integers.
* `InRange` — the values that may be stored.
* `Operator.apply` — the exact result where it exists and is in range, else the cause of failure.
-/

namespace OperatorChain

/-- The operators that may join two values. -/
inductive Operator where
  | add
  | subtract
  | multiply
  | divide
  deriving DecidableEq, Repr, Inhabited

/-- The smallest value that may be stored. -/
def minValue : Int := -9223372036854775808

/-- The largest value that may be stored. -/
def maxValue : Int := 9223372036854775807

/-- The value fits into 64 bits with a sign. -/
def InRange (value : Int) : Prop :=
  minValue ≤ value ∧ value ≤ maxValue

instance (value : Int) : Decidable (InRange value) :=
  inferInstanceAs (Decidable (_ ∧ _))

/-- Why a contraction fails.  A position names the operator that was being contracted. -/
inductive ContractionError where
  /-- A quotient was asked for with divisor zero. -/
  | divisionByZero (position : Nat)
  /-- The exact result is not in range. -/
  | overflow (position : Nat)
  /-- The graph is ill formed: an index leads to no stored node or edge. -/
  | danglingIndex
  deriving DecidableEq, Repr

namespace Operator

/-- The character that stands for the operator. -/
def symbol : Operator → Char
  | .add => '+'
  | .subtract => '-'
  | .multiply => '*'
  | .divide => '/'

/-- The operator that a whole word stands for. -/
def ofWord? : List Char → Option Operator
  | ['+'] => some .add
  | ['-'] => some .subtract
  | ['*'] => some .multiply
  | ['/'] => some .divide
  | _ => none

/-- How tightly the operator binds: heavier operators are contracted first. -/
def weight : Operator → Nat
  | .add | .subtract => 1
  | .multiply | .divide => 2

/-- The result over the unbounded integers, a quotient being cut toward zero; `none` for a
quotient by zero. -/
def result? (op : Operator) (left right : Int) : Option Int :=
  match op with
  | .add => some (left + right)
  | .subtract => some (left - right)
  | .multiply => some (left * right)
  | .divide => if right = 0 then none else some (left.tdiv right)

/-- The result of the operator at `position`, if there is one and it is in range. -/
def apply (op : Operator) (left right : Int) (position : Nat) : Except ContractionError Int :=
  match op.result? left right with
  | none => .error (.divisionByZero position)
  | some value => if InRange value then .ok value else .error (.overflow position)

/-- An operator is read back from its symbol. -/
theorem ofWord?_symbol (op : Operator) : ofWord? [op.symbol] = some op := by
  cases op <;> rfl

/-- The symbol is the only word for an operator. -/
theorem ofWord?_eq_some_iff {word : List Char} {op : Operator} :
    ofWord? word = some op ↔ word = [op.symbol] := by
  constructor
  · intro h
    unfold ofWord? at h
    split at h <;> cases h <;> rfl
  · rintro rfl
    exact ofWord?_symbol op

/-- A result that is answered is in range. -/
theorem inRange_of_apply {op : Operator} {left right value : Int} {position : Nat}
    (h : op.apply left right position = .ok value) : InRange value := by
  unfold apply at h
  split at h
  · simp at h
  · split at h
    · simp_all
    · simp at h

/-- Applying an operator never asks for anything that is stored, so it fails for no other cause
than the two arithmetical ones. -/
theorem apply_ne_danglingIndex (op : Operator) (left right : Int) (position : Nat) :
    op.apply left right position ≠ .error .danglingIndex := by
  unfold apply
  split
  · simp
  · split <;> simp

end Operator

end OperatorChain
