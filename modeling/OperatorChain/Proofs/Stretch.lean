import Mathlib.Logic.Function.Basic
import Mathlib.Order.Nat
import Mathlib.Tactic.ByContra

/-!
# Stretches

An expression with `size` operators has `size + 1` literals, numbered from `0`, and operator `q`
stands between the literals `q` and `q + 1`.  Once some operators are done, the literals fall into
*stretches*: maximal runs of literals whose operators in between are all done.  Everything that is
said about graphs under contraction, in whatever order, is said about stretches.

* `Stretch` — the literals `low` to `high` are a stretch.
* `stretchStart` — where the stretch of a literal begins, and `stretch_of_not_mem`: at an operator
  that is not done a stretch ends.
* `Stretch.eq_of_low`, `Stretch.eq_of_high` — a stretch is determined by either end.
* `stretch_cons_iff` — what becomes of the stretches when one more operator is done: the two beside
  it make one, and the others stay.
-/

namespace OperatorChain

/-- The literals from `low` to `high` make up a stretch: the operators between them are done, and
the operators on either side, if there are any, are not. -/
structure Stretch (size : Nat) (done : List Nat) (low high : Nat) : Prop where
  le : low ≤ high
  le_size : high ≤ size
  mem : ∀ q, low ≤ q → q < high → q ∈ done
  not_mem_before : ∀ q, low = q + 1 → q ∉ done
  not_mem_after : high < size → high ∉ done

/-- The operator on the left of a literal, if there is one. -/
def operatorBefore : Nat → Option Nat
  | 0 => none
  | q + 1 => some q

/-- The operator on the right of a literal, if there is one. -/
def operatorAfter (size literal : Nat) : Option Nat :=
  if literal < size then some literal else none

/-- The literal at which the stretch of a literal begins. -/
def stretchStart (done : List Nat) : Nat → Nat
  | 0 => 0
  | q + 1 => if q ∈ done then stretchStart done q else q + 1

variable {size : Nat} {done : List Nat}

/-! ## Neighbouring operators -/

theorem operatorBefore_eq_some_iff {literal q : Nat} :
    operatorBefore literal = some q ↔ literal = q + 1 := by
  cases literal <;> simp [operatorBefore]

theorem operatorBefore_injective {literal literal' : Nat}
    (h : operatorBefore literal = operatorBefore literal') : literal = literal' := by
  cases literal with
  | zero => cases literal' with
    | zero => rfl
    | succ q => cases h
  | succ q => exact (operatorBefore_eq_some_iff.1 h.symm).symm

theorem operatorAfter_eq_some_iff {literal q : Nat} :
    operatorAfter size literal = some q ↔ literal = q ∧ q < size := by
  unfold operatorAfter
  split
  · constructor
    · intro h
      cases h
      exact ⟨rfl, by assumption⟩
    · rintro ⟨rfl, -⟩
      rfl
  · constructor
    · intro h
      cases h
    · rintro ⟨rfl, h⟩
      contradiction

theorem operatorAfter_of_lt {literal : Nat} (h : literal < size) :
    operatorAfter size literal = some literal :=
  if_pos h

@[simp] theorem operatorAfter_self (size : Nat) : operatorAfter size size = none :=
  if_neg (Nat.lt_irrefl size)

/-! ## Where a stretch begins and ends -/

theorem stretchStart_le (literal : Nat) : stretchStart done literal ≤ literal := by
  induction literal with
  | zero => exact Nat.le_refl 0
  | succ q ih =>
    unfold stretchStart
    split <;> omega

theorem mem_of_stretchStart_le {literal : Nat} :
    ∀ q, stretchStart done literal ≤ q → q < literal → q ∈ done := by
  induction literal with
  | zero => intro q _ hq; omega
  | succ r ih =>
    intro q hle hlt
    unfold stretchStart at hle
    split at hle
    · rename_i hr
      by_cases hqr : q = r
      · rw [hqr]; exact hr
      · exact ih q hle (by omega)
    · omega

theorem not_mem_of_stretchStart_eq {literal : Nat} :
    ∀ q, stretchStart done literal = q + 1 → q ∉ done := by
  induction literal with
  | zero => intro q h; simp [stretchStart] at h
  | succ r ih =>
    intro q h
    unfold stretchStart at h
    split at h
    · exact ih q h
    · rename_i hr
      rw [show q = r by omega]
      exact hr

/-- An operator that is not done ends the stretch on its left. -/
theorem stretch_of_not_mem {q : Nat} (hlt : q < size) (hq : q ∉ done) :
    Stretch size done (stretchStart done q) q :=
  ⟨stretchStart_le q, by omega, mem_of_stretchStart_le, not_mem_of_stretchStart_eq, fun _ => hq⟩

/-- The last literal ends a stretch. -/
theorem stretch_size (size : Nat) (done : List Nat) :
    Stretch size done (stretchStart done size) size :=
  ⟨stretchStart_le size, Nat.le_refl size, mem_of_stretchStart_le, not_mem_of_stretchStart_eq,
    fun h => absurd h (Nat.lt_irrefl size)⟩

/-- A literal with no operator done on its left begins a stretch. -/
theorem exists_stretch_from {low : Nat} (hle : low ≤ size) (hlow : ∀ q, low = q + 1 → q ∉ done) :
    ∃ high, Stretch size done low high := by
  -- the stretch ends at the first operator from `low` on that is not done
  have hend : ∃ high, low ≤ high ∧ (high = size ∨ high < size ∧ high ∉ done) :=
    ⟨size, hle, Or.inl rfl⟩
  refine ⟨Nat.find hend, (Nat.find_spec hend).1, ?_, ?_, hlow, ?_⟩
  · exact Nat.find_min' hend ⟨hle, Or.inl rfl⟩
  · intro q hq hlt
    have hmin := Nat.find_min hend hlt
    have hsize : q < size := lt_of_lt_of_le hlt (Nat.find_min' hend ⟨hle, Or.inl rfl⟩)
    by_contra hnot
    exact hmin ⟨hq, Or.inr ⟨hsize, hnot⟩⟩
  · intro hlt
    rcases (Nat.find_spec hend).2 with h | ⟨-, h⟩
    · omega
    · exact h

/-- An operator that is not done is followed by a stretch. -/
theorem exists_stretch_succ {q : Nat} (hlt : q < size) (hq : q ∉ done) :
    ∃ high, Stretch size done (q + 1) high := by
  refine exists_stretch_from hlt ?_
  intro r hr
  rwa [show r = q by omega]

/-- An operator that is followed by a stretch is one of the expression. -/
theorem Stretch.lt_size {q high : Nat} (h : Stretch size done (q + 1) high) : q < size := by
  have hle := h.le
  have hsize := h.le_size
  omega

/-! ## Stretches do not overlap -/

theorem Stretch.high_not_lt {low high high' : Nat} (h : Stretch size done low high)
    (h' : Stretch size done low high') : ¬ high < high' := by
  intro hlt
  have hle := h.le
  have hsize := h'.le_size
  exact h.not_mem_after (by omega) (h'.mem high hle hlt)

/-- A stretch is determined by where it begins. -/
theorem Stretch.eq_of_low {low high high' : Nat} (h : Stretch size done low high)
    (h' : Stretch size done low high') : high = high' := by
  have h₁ := h.high_not_lt h'
  have h₂ := h'.high_not_lt h
  omega

theorem Stretch.low_not_lt {low low' high : Nat} (h : Stretch size done low high)
    (h' : Stretch size done low' high) : ¬ low < low' := by
  intro hlt
  have hle := h'.le
  exact h'.not_mem_before (low' - 1) (by omega) (h.mem (low' - 1) (by omega) (by omega))

/-- A stretch is determined by where it ends. -/
theorem Stretch.eq_of_high {low low' high : Nat} (h : Stretch size done low high)
    (h' : Stretch size done low' high) : low = low' := by
  have h₁ := h.low_not_lt h'
  have h₂ := h'.low_not_lt h
  omega

/-- The order in which operators were done does not matter to stretches. -/
theorem Stretch.congr {done' : List Nat} {low high : Nat} (h : Stretch size done low high)
    (hmem : ∀ q, q ∈ done ↔ q ∈ done') : Stretch size done' low high :=
  ⟨h.le, h.le_size, fun q hq hlt => (hmem q).1 (h.mem q hq hlt),
    fun q hq hdone => h.not_mem_before q hq ((hmem q).2 hdone),
    fun hlt hdone => h.not_mem_after hlt ((hmem high).2 hdone)⟩

/-- Once everything is done, all literals are one stretch. -/
theorem Stretch.eq_of_forall_mem {low high : Nat} (h : Stretch size done low high)
    (hall : ∀ q, q < size → q ∈ done) : low = 0 ∧ high = size := by
  have hle := h.le
  have hsize := h.le_size
  constructor
  · by_contra hne
    exact h.not_mem_before (low - 1) (by omega) (hall (low - 1) (by omega))
  · by_contra hne
    have hlt : high < size := by omega
    exact h.not_mem_after hlt (hall high hlt)

/-- Before anything is done, every literal is a stretch of its own. -/
theorem stretch_nil_iff {low high : Nat} :
    Stretch size [] low high ↔ low = high ∧ high ≤ size := by
  constructor
  · intro h
    have hle := h.le
    by_cases heq : low = high
    · exact ⟨heq, h.le_size⟩
    · exact absurd (h.mem low (Nat.le_refl low) (by omega)) (by simp)
  · rintro ⟨rfl, hle⟩
    exact ⟨Nat.le_refl low, hle, fun q h₁ h₂ => by omega, fun _ _ => by simp, fun _ => by simp⟩

/-! ## One more operator is done -/

section Cons

variable {position low high : Nat}

/-- The stretches on the two sides of an operator make one when it is done. -/
theorem Stretch.join (hleft : Stretch size done low position)
    (hright : Stretch size done (position + 1) high) :
    Stretch size (position :: done) low high := by
  have hle := hleft.le
  have hle' := hright.le
  refine ⟨by omega, hright.le_size, ?_, ?_, ?_⟩
  · intro q hq hlt
    rw [List.mem_cons]
    rcases Nat.lt_trichotomy q position with h | h | h
    · exact Or.inr (hleft.mem q hq h)
    · exact Or.inl h
    · exact Or.inr (hright.mem q h hlt)
  · intro q hq
    rw [List.mem_cons, not_or]
    exact ⟨by omega, hleft.not_mem_before q hq⟩
  · intro hlt
    rw [List.mem_cons, not_or]
    exact ⟨by omega, hright.not_mem_after hlt⟩

/-- A stretch away from the operator stays one when it is done. -/
theorem Stretch.cons {a b : Nat} (h : Stretch size done a b) (hb : b ≠ position)
    (ha : a ≠ position + 1) : Stretch size (position :: done) a b := by
  refine ⟨h.le, h.le_size, fun q hq hlt => List.mem_cons_of_mem _ (h.mem q hq hlt), ?_, ?_⟩
  · intro q hq
    rw [List.mem_cons, not_or]
    exact ⟨by omega, h.not_mem_before q hq⟩
  · intro hlt
    rw [List.mem_cons, not_or]
    exact ⟨hb, h.not_mem_after hlt⟩

/-- A stretch that does not contain the operator was one before the operator was done. -/
theorem Stretch.of_cons {a b : Nat} (h : Stretch size (position :: done) a b)
    (hout : position < a ∨ b ≤ position) : Stretch size done a b := by
  refine ⟨h.le, h.le_size, ?_, ?_, ?_⟩
  · intro q hq hlt
    rcases List.mem_cons.1 (h.mem q hq hlt) with rfl | hmem
    · omega
    · exact hmem
  · intro q hq hmem
    exact h.not_mem_before q hq (List.mem_cons_of_mem _ hmem)
  · intro hlt hmem
    exact h.not_mem_after hlt (List.mem_cons_of_mem _ hmem)

/-- **What becomes of the stretches.**  When the operator between two stretches is done, they make
one stretch, and all others stay as they are. -/
theorem stretch_cons_iff (hleft : Stretch size done low position)
    (hright : Stretch size done (position + 1) high) {a b : Nat} :
    Stretch size (position :: done) a b ↔
      (a = low ∧ b = high) ∨ (Stretch size done a b ∧ a ≠ low ∧ a ≠ position + 1) := by
  have hjoin := hleft.join hright
  have hle := hleft.le
  have hle' := hright.le
  have hsize := hright.le_size
  constructor
  · intro h
    by_cases ha : a = low
    · subst ha
      exact Or.inl ⟨rfl, h.eq_of_low hjoin⟩
    · refine Or.inr ⟨h.of_cons ?_, ha, ?_⟩
      · -- a stretch with the operator inside has a beginning in common with the joined one
        by_contra hin
        have hb := h.not_mem_before
        rcases Nat.lt_or_gt_of_ne ha with hlt | hgt
        · exact hjoin.not_mem_before (low - 1) (by omega)
            (h.mem (low - 1) (by omega) (by omega))
        · exact hb (a - 1) (by omega) (hjoin.mem (a - 1) (by omega) (by omega))
      · intro hsucc
        exact h.not_mem_before position hsucc (List.mem_cons_self ..)
  · rintro (⟨rfl, rfl⟩ | ⟨h, ha, ha'⟩)
    · exact hjoin
    · refine h.cons ?_ ha'
      intro hb
      subst hb
      exact ha (h.eq_of_high hleft)

/-- With `index` as the new holder where the joined stretch begins, each stretch is held by `index`
or as it was before. -/
theorem stretch_cons_cases (hleft : Stretch size done low position)
    (hright : Stretch size done (position + 1) high) {α : Type} (holder : Nat → α) (index : α)
    {a b : Nat} (h : Stretch size (position :: done) a b) :
    (a = low ∧ b = high ∧ Function.update holder low index a = index) ∨
      (Stretch size done a b ∧ a ≠ low ∧ a ≠ position + 1 ∧
        Function.update holder low index a = holder a) := by
  rcases (stretch_cons_iff hleft hright).1 h with ⟨rfl, rfl⟩ | ⟨hold, hne, hne'⟩
  · exact Or.inl ⟨rfl, rfl, Function.update_self ..⟩
  · exact Or.inr ⟨hold, hne, hne', Function.update_of_ne hne _ _⟩

end Cons

end OperatorChain
