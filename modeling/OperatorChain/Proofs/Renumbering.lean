import OperatorChain.Proofs.Printing
import OperatorChain.Proofs.TwoPass

/-!
# Renumbering operators

The numbers of the operators only say where an error occurred.  Other numbers in their place lead to
the same operations and the same value, and to the same error with its new number.

* `Chain.mapPositions` — other numbers for the operators.
* `reference_mapPositions` — what becomes of the answer.
* `renumber_eq_mapPositions` — to number from left to right is to count the operators before each.
* `exists_fault_of_reference` — an error names an operator of its chain.
-/

namespace OperatorChain

/-! ## Errors at a position -/

/-- The two ways in which an operation fails. -/
inductive Fault where
  | divisionByZero
  | overflow
  deriving DecidableEq, Repr

/-- The error of the operator at a position. -/
def Fault.at : Fault → Nat → ContractionError
  | .divisionByZero, position => .divisionByZero position
  | .overflow, position => .overflow position

theorem Fault.at_inj {fault fault' : Fault} {p p' : Nat} :
    fault.at p = fault'.at p' ↔ fault = fault' ∧ p = p' := by
  cases fault <;> cases fault' <;> simp [Fault.at]

/-- The error with another position. -/
def ContractionError.mapPosition (f : Nat → Nat) : ContractionError → ContractionError
  | .divisionByZero position => .divisionByZero (f position)
  | .overflow position => .overflow (f position)
  | .danglingIndex => .danglingIndex

theorem ContractionError.mapPosition_at (f : Nat → Nat) (fault : Fault) (position : Nat) :
    (fault.at position).mapPosition f = fault.at (f position) := by
  cases fault <;> rfl

/-- The step at another position. -/
def Step.mapPosition (f : Nat → Nat) (step : Step) : Step :=
  { step with position := f step.position }

theorem Step.failure?_mapPosition (f : Nat → Nat) (step : Step) :
    (step.mapPosition f).failure? = step.failure?.map (ContractionError.mapPosition f) := by
  unfold failure? mapPosition
  by_cases hzero : step.operator = .divide ∧ step.right = 0
  · simp [hzero, ContractionError.mapPosition]
  · by_cases hrange : InRange step.result
    · simp [hzero, hrange]
    · simp [hzero, hrange, ContractionError.mapPosition]

/-- A step that cannot be taken fails at its position. -/
theorem Step.exists_fault_of_failure? {step : Step} {error : ContractionError}
    (h : step.failure? = some error) : ∃ fault : Fault, error = fault.at step.position := by
  unfold failure? at h
  split at h
  · cases h
    exact ⟨.divisionByZero, rfl⟩
  · split at h
    · cases h
    · cases h
      exact ⟨.overflow, rfl⟩

namespace Chain

variable {α : Type}

/-- The chain with other numbers for its operators. -/
def mapPositions (f : Nat → Nat) : Chain α → Chain α
  | .single a => .single a
  | .snoc front position operator a => .snoc (front.mapPositions f) (f position) operator a

@[simp] theorem last_mapPositions (f : Nat → Nat) (c : Chain α) :
    (c.mapPositions f).last = c.last := by
  cases c <;> rfl

@[simp] theorem mapPositions_setLast (f : Nat → Nat) (a : α) (c : Chain α) :
    (c.setLast a).mapPositions f = (c.mapPositions f).setLast a := by
  cases c <;> rfl

@[simp] theorem positions_mapPositions (f : Nat → Nat) (c : Chain α) :
    (c.mapPositions f).positions = c.positions.map f := by
  induction c with
  | single => rfl
  | snoc front position operator a ih => simp [mapPositions, positions, ih]

theorem mapPositions_congr {f g : Nat → Nat} {c : Chain α} (h : ∀ q ∈ c.positions, f q = g q) :
    c.mapPositions f = c.mapPositions g := by
  induction c with
  | single => rfl
  | snoc front position operator a ih =>
    have hfront := ih fun q hq => h q (List.mem_append_left _ hq)
    have hlast := h position (List.mem_append_right _ (List.mem_singleton_self position))
    simp [mapPositions, hfront, hlast]

/-- **Numbering from left to right is counting.**  In a chain with increasing numbers, the new
number of an operator is the number of operators with a smaller one. -/
theorem renumber_eq_mapPositions {c : Chain α} (h : c.positions.Pairwise (· < ·)) :
    c.renumber = c.mapPositions fun p => c.positions.countP (· < p) := by
  induction c with
  | single => rfl
  | snoc front position operator a ih =>
    obtain ⟨hfront, -, hlt⟩ := List.pairwise_append.1 h
    have hbefore : ∀ q ∈ front.positions, q < position :=
      fun q hq => hlt q hq position (List.mem_singleton_self position)
    -- the last operator is not before any other, and all others are before it
    have hold : ∀ q ∈ front.positions, front.positions.countP (· < q) =
        (front.positions ++ [position]).countP (· < q) := by
      intro q hq
      have hnot : ¬ position < q := by
        have := hbefore q hq
        omega
      simp [List.countP_append, hnot]
    have hnew : (front.positions ++ [position]).countP (· < position) = front.size := by
      have hall : front.positions.countP (· < position) = front.positions.length :=
        List.countP_eq_length.2 fun q hq => by simpa using hbefore q hq
      rw [List.countP_append, hall, length_positions]
      simp
    simp [renumber, ih hfront, mapPositions_congr hold, mapPositions, positions, hnew]

/-- Numbering from left to right gives different operators different numbers. -/
theorem countP_positions_inj {c : Chain α} (h : c.positions.Pairwise (· < ·)) {p p' : Nat}
    (hp : p ∈ c.positions) (hp' : p' ∈ c.positions)
    (heq : c.positions.countP (· < p) = c.positions.countP (· < p')) : p = p' := by
  have hnodup : (c.positions.map fun q => c.positions.countP (· < q)).Nodup := by
    rw [← positions_mapPositions, ← renumber_eq_mapPositions h, positions_renumber]
    exact List.nodup_range
  exact List.inj_on_of_nodup_map hnodup hp hp' heq

/-! ## The two passes under other numbers -/

theorem leftValue_mapPositions (f : Nat → Nat) (e : Chain Int) :
    (e.mapPositions f).leftValue = e.leftValue := by
  induction e with
  | single => rfl
  | snoc front position operator a ih => simp [mapPositions, leftValue, ih]

theorem leftSteps_mapPositions (f : Nat → Nat) (e : Chain Int) :
    (e.mapPositions f).leftSteps = e.leftSteps.map (Step.mapPosition f) := by
  induction e with
  | single => rfl
  | snoc front position operator a ih =>
    rw [mapPositions, leftSteps, leftSteps, ih, leftValue_mapPositions, List.map_append]
    rfl

theorem sum_mapPositions (f : Nat → Nat) (e : Chain Int) :
    (e.mapPositions f).sum = e.sum.mapPositions f := by
  induction e with
  | single => rfl
  | snoc front position operator a ih =>
    cases hop : operator.isSum with
    | true => simp [mapPositions, sum_snoc_of_isSum hop, ih]
    | false =>
      rw [mapPositions, sum_snoc_of_not_isSum hop, sum_snoc_of_not_isSum hop, ih,
        last_mapPositions, mapPositions_setLast]

theorem productSteps_mapPositions (f : Nat → Nat) (e : Chain Int) :
    (e.mapPositions f).productSteps = e.productSteps.map (Step.mapPosition f) := by
  induction e with
  | single => rfl
  | snoc front position operator a ih =>
    cases hop : operator.isSum with
    | true =>
      simp [mapPositions, productSteps_snoc_of_isSum hop, ih]
    | false =>
      rw [mapPositions, productSteps_snoc_of_not_isSum hop, productSteps_snoc_of_not_isSum hop, ih,
        sum_mapPositions, last_mapPositions, List.map_append]
      rfl

theorem operations_mapPositions (f : Nat → Nat) (e : Chain Int) :
    (e.mapPositions f).operations = e.operations.map (Step.mapPosition f) := by
  show (e.mapPositions f).productSteps ++ (e.mapPositions f).sum.leftSteps =
    (e.productSteps ++ e.sum.leftSteps).map (Step.mapPosition f)
  rw [productSteps_mapPositions, sum_mapPositions, leftSteps_mapPositions, List.map_append]

/-- **Other numbers lead to the same answer.**  Only the number in an error is another one. -/
theorem reference_mapPositions (f : Nat → Nat) (e : Chain Int) :
    (e.mapPositions f).reference = e.reference.mapError (ContractionError.mapPosition f) := by
  have hvalue : (e.mapPositions f).exactValue = e.exactValue := by
    simp [exactValue, sum_mapPositions, leftValue_mapPositions]
  have hfailure : (e.mapPositions f).operations.findSome? Step.failure? =
      (e.operations.findSome? Step.failure?).map (ContractionError.mapPosition f) := by
    rw [operations_mapPositions, List.findSome?_map, List.map_findSome?]
    congr 1
    funext step
    exact step.failure?_mapPosition f
  rw [reference, reference, hfailure, hvalue]
  cases e.operations.findSome? Step.failure? <;> rfl

/-! ## Where errors occur -/

theorem position_mem_of_mem_leftSteps {e : Chain Int} {step : Step} (h : step ∈ e.leftSteps) :
    step.position ∈ e.positions := by
  induction e with
  | single => cases h
  | snoc front position operator a ih =>
    rw [positions, List.mem_append]
    rcases List.mem_append.1 h with h | h
    · exact Or.inl (ih h)
    · rw [List.mem_singleton.1 h]
      exact Or.inr (List.mem_singleton_self position)

theorem mem_positions_of_mem_sum {e : Chain Int} {q : Nat} (h : q ∈ e.sum.positions) :
    q ∈ e.positions := by
  induction e with
  | single => exact h
  | snoc front position operator a ih =>
    rw [positions, List.mem_append]
    cases hop : operator.isSum with
    | true =>
      rw [sum_snoc_of_isSum hop, positions, List.mem_append] at h
      exact h.imp_left ih
    | false =>
      rw [sum_snoc_of_not_isSum hop, positions_setLast] at h
      exact Or.inl (ih h)

theorem position_mem_of_mem_productSteps {e : Chain Int} {step : Step}
    (h : step ∈ e.productSteps) : step.position ∈ e.positions := by
  induction e with
  | single => simp [productSteps, terms, operands, leftSteps] at h
  | snoc front position operator a ih =>
    rw [positions, List.mem_append]
    cases hop : operator.isSum with
    | true =>
      rw [productSteps_snoc_of_isSum hop] at h
      exact Or.inl (ih h)
    | false =>
      rw [productSteps_snoc_of_not_isSum hop] at h
      rcases List.mem_append.1 h with h | h
      · exact Or.inl (ih h)
      · rw [List.mem_singleton.1 h]
        exact Or.inr (List.mem_singleton_self position)

/-- Every operation belongs to an operator of the chain. -/
theorem position_mem_of_mem_operations {e : Chain Int} {step : Step} (h : step ∈ e.operations) :
    step.position ∈ e.positions := by
  rcases List.mem_append.1 h with h | h
  · exact position_mem_of_mem_productSteps h
  · exact mem_positions_of_mem_sum (position_mem_of_mem_leftSteps h)

/-- An error of a chain names one of its operators. -/
theorem exists_fault_of_reference {e : Chain Int} {error : ContractionError}
    (h : e.reference = .error error) :
    ∃ fault : Fault, ∃ position ∈ e.positions, error = fault.at position := by
  unfold reference at h
  split at h
  · next error' hfind =>
    cases h
    obtain ⟨step, hstep, hfailure⟩ := List.exists_of_findSome?_eq_some hfind
    obtain ⟨fault, heq⟩ := Step.exists_fault_of_failure? hfailure
    exact ⟨fault, step.position, position_mem_of_mem_operations hstep, heq⟩
  · cases h

end Chain

end OperatorChain
