import OperatorChain.Proofs.Agenda
import OperatorChain.Proofs.Chain

/-!
# Two passes over an expression

What an expression is worth, said the way it is taught and over the unbounded integers.  The
expression is cut at its sums and differences into terms.  One pass goes through the terms and
applies the operators of each from left to right; a second pass goes through the values of the terms
in the same way.  The first operation that has no result in range is the error of the expression.

* `Chain.terms`, `Chain.leftSteps` — the cut, and the operations of one pass.
* `Chain.operations`, `Chain.exactValue` — the operations of both passes, and the value.
* `Chain.reference` — the answer.
* `reference_of_first` — doing the first operator by priority, wherever it stands, and answering for
  what is left, is the same.
-/

namespace OperatorChain

/-! ## Exact operations -/

namespace Operator

/-- The result over the unbounded integers, a quotient being cut toward zero.  A quotient by zero is
left to `Step.failure?`. -/
def exact : Operator → Int → Int → Int
  | .add, left, right => left + right
  | .subtract, left, right => left - right
  | .multiply, left, right => left * right
  | .divide, left, right => left.tdiv right

/-- Is the operator one of those between terms? -/
def isSum : Operator → Bool
  | .add | .subtract => true
  | .multiply | .divide => false

theorem weight_eq (op : Operator) : op.weight = if op.isSum then 1 else 2 := by
  cases op <;> rfl

end Operator

/-- The step that takes the exact result. -/
def Step.exact (position : Nat) (operator : Operator) (left right : Int) : Step :=
  ⟨position, operator, left, right, operator.exact left right⟩

/-- Why a step with an exact result cannot be taken, if there is a reason. -/
def Step.failure? (step : Step) : Option ContractionError :=
  if step.operator = .divide ∧ step.right = 0 then some (.divisionByZero step.position)
  else if InRange step.result then none
  else some (.overflow step.position)

theorem Operator.result?_eq (op : Operator) (left right : Int) :
    op.result? left right =
      if op = .divide ∧ right = 0 then none else some (op.exact left right) := by
  cases op <;> simp [result?, exact]

/-- An operator is applied by taking its exact step, if that can be taken. -/
theorem Operator.apply_eq (op : Operator) (left right : Int) (position : Nat) :
    op.apply left right position =
      match (Step.exact position op left right).failure? with
      | some error => .error error
      | none => .ok (op.exact left right) := by
  unfold apply Step.failure? Step.exact
  rw [result?_eq]
  by_cases hzero : op = .divide ∧ right = 0
  · simp only [if_pos hzero]
  · by_cases hrange : InRange (op.exact left right)
    · simp only [if_neg hzero, if_pos hrange]
    · simp only [if_neg hzero, if_neg hrange]

namespace Chain

/-! ## The two passes -/

/-- The value when all operators are applied from left to right. -/
def leftValue : Chain Int → Int
  | .single a => a
  | .snoc front _ operator a => operator.exact front.leftValue a

/-- The steps of applying all operators from left to right. -/
def leftSteps : Chain Int → List Step
  | .single _ => []
  | .snoc front position operator a =>
    front.leftSteps ++ [.exact position operator front.leftValue a]

/-- The terms, with the operators at which the expression is cut between them. -/
def terms : Chain Int → Chain (Chain Int)
  | .single a => .single (.single a)
  | .snoc front position operator a =>
    if operator.isSum then .snoc front.terms position operator (.single a)
    else front.terms.setLast (.snoc front.terms.last position operator a)

/-- The steps of the first pass, term by term. -/
def productSteps (e : Chain Int) : List Step :=
  e.terms.operands.flatMap leftSteps

/-- The values of the terms. -/
def sum (e : Chain Int) : Chain Int :=
  e.terms.map leftValue

/-- The steps of both passes. -/
def operations (e : Chain Int) : List Step :=
  e.productSteps ++ e.sum.leftSteps

/-- The value over the unbounded integers. -/
def exactValue (e : Chain Int) : Int :=
  e.sum.leftValue

/-- The value of an expression, or why the first of its operations that cannot be done cannot be
done. -/
def reference (e : Chain Int) : Except ContractionError Int :=
  match e.operations.findSome? Step.failure? with
  | some error => .error error
  | none => .ok e.exactValue

/-- The steps of both passes, or why the first of them that cannot be taken cannot be taken. -/
def referenceSteps (e : Chain Int) : Except ContractionError (List Step) :=
  match e.operations.findSome? Step.failure? with
  | some error => .error error
  | none => .ok e.operations

/-! ## One more operator at the right end -/

section Snoc

variable {front : Chain Int} {position : Nat} {operator : Operator} {a : Int}

theorem productSteps_snoc_of_isSum (h : operator.isSum = true) :
    (front.snoc position operator a).productSteps = front.productSteps := by
  simp [productSteps, terms, h, operands, leftSteps]

theorem sum_snoc_of_isSum (h : operator.isSum = true) :
    (front.snoc position operator a).sum = front.sum.snoc position operator a := by
  simp [sum, terms, h, map, leftValue]

theorem productSteps_snoc_of_not_isSum (h : operator.isSum = false) :
    (front.snoc position operator a).productSteps =
      front.productSteps ++ [.exact position operator front.sum.last a] := by
  rw [productSteps, productSteps, terms, h, sum, last_map]
  cases front.terms with
  | single term => simp [setLast, last, operands, leftSteps]
  | snoc terms q op term => simp [setLast, last, operands, leftSteps]

theorem sum_snoc_of_not_isSum (h : operator.isSum = false) :
    (front.snoc position operator a).sum =
      front.sum.setLast (operator.exact front.sum.last a) := by
  simp [sum, terms, h, leftValue]

end Snoc

/-- Without products and quotients there is nothing to do in the first pass. -/
theorem productSteps_of_light {e : Chain Int} (h : ∀ other ∈ e.priorities, other.weight ≤ 1) :
    e.productSteps = [] ∧ e.sum = e := by
  induction e with
  | single a => exact ⟨rfl, rfl⟩
  | snoc front position operator a ih =>
    simp only [priorities, List.mem_append, List.mem_singleton] at h
    obtain ⟨hsteps, hsum⟩ := ih fun other hother => h other (Or.inl hother)
    have hlight := h _ (Or.inr rfl)
    have hop : operator.isSum = true := by
      rw [Operator.weight_eq] at hlight
      by_contra hnot
      simp [hnot] at hlight
    rw [productSteps_snoc_of_isSum hop, sum_snoc_of_isSum hop, hsteps, hsum]
    exact ⟨rfl, rfl⟩

theorem weight_pos_of_mem_priorities {e : Chain Int} {other : Priority}
    (h : other ∈ e.priorities) : 0 < other.weight := by
  induction e with
  | single a => cases h
  | snoc front position operator a ih =>
    rcases List.mem_append.1 h with h | h
    · exact ih h
    · rw [List.mem_singleton.1 h]
      show 0 < operator.weight
      cases operator <;> decide

/-! ## Doing the first operator first -/

section First

variable {e : Chain Int} {position : Nat} {operator : Operator} {left right : Int}

/-- What comes first in a longer chain comes first in a shorter one. -/
theorem First.of_snoc {q : Nat} {op : Operator} {a : Int}
    (h : (e.snoc q op a).First position left operator right) (hne : q ≠ position) :
    e.First position left operator right := by
  obtain ⟨haround, hle⟩ := h
  rw [around?, if_neg hne] at haround
  exact ⟨haround, fun other hother => hle other (List.mem_append_left _ hother)⟩

/-- What stands before the first product or quotient is lighter, or it would come first. -/
theorem First.light_before {q : Nat} {op : Operator} {a : Int}
    (h : (e.snoc q op a).First q left operator right)
    (hinc : (e.snoc q op a).positions.Pairwise (· < ·)) (hop : operator.isSum = false) :
    ∀ other ∈ e.priorities, other.weight ≤ 1 := by
  intro other hother
  obtain ⟨-, -, hlt⟩ := List.pairwise_append.1 hinc
  have hbefore : other.position < q := by
    refine hlt _ ?_ q (List.mem_singleton_self q)
    rw [← map_position_priorities]
    exact List.mem_map_of_mem hother
  have hfirst := h.le other (List.mem_append_left _ hother)
  rw [Priority.le_def, Operator.weight_eq, hop] at hfirst
  simp only [Bool.false_eq_true, if_false] at hfirst
  omega

/-- In a chain with products or quotients, the first operator is the first step of the first pass,
and the rest of the chain has the other steps. -/
theorem productSteps_of_first (hinc : e.positions.Pairwise (· < ·))
    (h : e.First position left operator right) (hop : operator.isSum = false) :
    e.productSteps = .exact position operator left right ::
        (e.splice position (operator.exact left right)).productSteps ∧
      e.sum = (e.splice position (operator.exact left right)).sum := by
  induction e with
  | single a => cases h.around
  | snoc front q op a ih =>
    obtain ⟨hfront, -, -⟩ := List.pairwise_append.1 hinc
    by_cases hq : q = position
    · subst hq
      have hlight := h.light_before hinc hop
      have haround := h.around
      rw [around?, if_pos rfl] at haround
      cases haround
      obtain ⟨hsteps, hsum⟩ := productSteps_of_light hlight
      have hlight' := hlight
      rw [← priorities_setLast (operator.exact front.last right)] at hlight'
      obtain ⟨hsteps', hsum'⟩ := productSteps_of_light hlight'
      rw [splice, if_pos rfl, productSteps_snoc_of_not_isSum hop, sum_snoc_of_not_isSum hop, hsteps,
        hsum, hsteps', hsum']
      exact ⟨rfl, rfl⟩
    · obtain ⟨hsteps, hsum⟩ := ih hfront (h.of_snoc hq)
      rw [splice, if_neg hq]
      cases hop' : op.isSum with
      | true =>
        rw [productSteps_snoc_of_isSum hop', productSteps_snoc_of_isSum hop',
          sum_snoc_of_isSum hop', sum_snoc_of_isSum hop', hsteps, hsum]
        exact ⟨rfl, rfl⟩
      | false =>
        rw [productSteps_snoc_of_not_isSum hop', productSteps_snoc_of_not_isSum hop',
          sum_snoc_of_not_isSum hop', sum_snoc_of_not_isSum hop', hsteps, hsum]
        exact ⟨rfl, rfl⟩

/-- The leftmost operator is the first step of a pass from left to right. -/
theorem leftSteps_of_leftmost (hinc : e.positions.Pairwise (· < ·))
    (haround : e.around? position = some (left, operator, right))
    (hle : ∀ q ∈ e.positions, position ≤ q) :
    e.leftSteps = .exact position operator left right ::
        (e.splice position (operator.exact left right)).leftSteps ∧
      e.leftValue = (e.splice position (operator.exact left right)).leftValue := by
  induction e with
  | single a => cases haround
  | snoc front q op a ih =>
    obtain ⟨hfront, -, hlt⟩ := List.pairwise_append.1 hinc
    by_cases hq : q = position
    · subst hq
      rw [around?, if_pos rfl] at haround
      cases haround
      cases front with
      | single b =>
        rw [splice, if_pos rfl]
        exact ⟨rfl, rfl⟩
      | snoc front' r op' b =>
        have hr : r ∈ (front'.snoc r op' b).positions := by simp [positions]
        have hbefore := hlt r hr q (List.mem_singleton_self q)
        have hafter := hle r (List.mem_append_left _ hr)
        omega
    · rw [around?, if_neg hq] at haround
      obtain ⟨hsteps, hvalue⟩ := ih hfront haround
        fun r hr => hle r (List.mem_append_left _ hr)
      rw [splice, if_neg hq, leftSteps, leftSteps, leftValue, leftValue, hsteps, hvalue]
      exact ⟨rfl, rfl⟩

/-- **The first operator by priority is the first operation.**  The chain that it is spliced in has
the other operations, and the same value. -/
theorem operations_of_first (hinc : e.positions.Pairwise (· < ·))
    (h : e.First position left operator right) :
    e.operations = .exact position operator left right ::
        (e.splice position (operator.exact left right)).operations ∧
      e.exactValue = (e.splice position (operator.exact left right)).exactValue := by
  cases hop : operator.isSum with
  | false =>
    obtain ⟨hsteps, hsum⟩ := productSteps_of_first hinc h hop
    simp only [operations, exactValue, hsteps, ← hsum, List.cons_append, and_self]
  | true =>
    -- nothing is heavier than a sum that comes first, and nothing stands before it
    have hfirst : ∀ other ∈ e.priorities, other.weight ≤ 1 ∧ position ≤ other.position := by
      intro other hother
      have hpos := weight_pos_of_mem_priorities hother
      have hle := h.le other hother
      rw [Priority.le_def, Operator.weight_eq, hop] at hle
      simp only [if_true] at hle
      omega
    have hlight : ∀ other ∈ (e.splice position (operator.exact left right)).priorities,
        other.weight ≤ 1 := by
      intro other hother
      have hperm := perm_priorities_splice h.around (operator.exact left right)
      exact (hfirst other (hperm.mem_iff.2 (List.mem_cons_of_mem _ hother))).1
    have hleftmost : ∀ q ∈ e.positions, position ≤ q := by
      intro q hq
      rw [← map_position_priorities] at hq
      obtain ⟨other, hother, rfl⟩ := List.mem_map.1 hq
      exact (hfirst other hother).2
    obtain ⟨hsteps, hsum⟩ := productSteps_of_light fun other hother => (hfirst other hother).1
    obtain ⟨hsteps', hsum'⟩ := productSteps_of_light hlight
    obtain ⟨hleft, hvalue⟩ := leftSteps_of_leftmost hinc h.around hleftmost
    rw [operations, operations, exactValue, exactValue, hsteps, hsum, hsteps', hsum']
    exact ⟨hleft, hvalue⟩

/-- The step of the first operator, and then the steps of the rest, are the steps of the whole. -/
theorem referenceSteps_of_first (hinc : e.positions.Pairwise (· < ·))
    (h : e.First position left operator right) :
    e.referenceSteps =
      match operator.apply left right position with
      | .error error => .error error
      | .ok result =>
        (e.splice position result).referenceSteps.map
          (⟨position, operator, left, right, result⟩ :: ·) := by
  obtain ⟨hoperations, -⟩ := operations_of_first hinc h
  rw [referenceSteps, hoperations, Operator.apply_eq, List.findSome?_cons]
  cases (Step.exact position operator left right).failure? with
  | some error => rfl
  | none =>
    simp only [referenceSteps]
    cases (e.splice position (operator.exact left right)).operations.findSome? Step.failure? <;> rfl

/-- **Doing the first operator and answering for the rest** is answering for the whole. -/
theorem reference_of_first (hinc : e.positions.Pairwise (· < ·))
    (h : e.First position left operator right) :
    e.reference =
      match operator.apply left right position with
      | .error error => .error error
      | .ok result => (e.splice position result).reference := by
  obtain ⟨hoperations, hvalue⟩ := operations_of_first hinc h
  rw [reference, hoperations, hvalue, Operator.apply_eq, List.findSome?_cons]
  cases (Step.exact position operator left right).failure? with
  | some error => rfl
  | none => rfl

/-- A quotient by zero in a term is found before a sum that is out of range on its left. -/
example :
    (((Chain.single 9223372036854775807).snoc 0 .add 1).snoc 1 .divide 0).reference =
      .error (.divisionByZero 1) := by
  rfl

end First

end Chain

end OperatorChain
