import OperatorChain.Graph.Basic

/-!
# Which operator comes first

Operators are contracted by weight, the heavier ones first, and among those of one weight from left
to right.  `Priority` is what this order looks at, and `a ≤ b` says that `a` does not come after
`b`.  Everything that chooses or sorts operators does it by this one order.
-/

namespace OperatorChain

/-- The weight and the position of an operator. -/
structure Priority where
  weight : Nat
  position : Nat
  deriving DecidableEq, Repr

namespace Priority

/-- The first one is heavier, or as heavy and not further to the right. -/
instance : LE Priority where
  le a b := b.weight < a.weight ∨ a.weight = b.weight ∧ a.position ≤ b.position

theorem le_def (a b : Priority) :
    a ≤ b ↔ b.weight < a.weight ∨ a.weight = b.weight ∧ a.position ≤ b.position :=
  Iff.rfl

instance : DecidableLE Priority := fun a b => decidable_of_iff _ (le_def a b).symm

/-- The one that comes first. -/
instance : Min Priority where
  min a b := if a ≤ b then a else b

/-! ## The order is linear -/

theorem le_refl (a : Priority) : a ≤ a := by
  rw [le_def]; omega

theorem le_trans {a b c : Priority} (hab : a ≤ b) (hbc : b ≤ c) : a ≤ c := by
  rw [le_def] at *; omega

theorem le_total (a b : Priority) : a ≤ b ∨ b ≤ a := by
  rw [le_def, le_def]; omega

theorem le_antisymm {a b : Priority} (hab : a ≤ b) (hba : b ≤ a) : a = b := by
  obtain ⟨aw, ap⟩ := a
  obtain ⟨bw, bp⟩ := b
  simp only [le_def] at hab hba
  congr <;> omega

instance : Std.IsLinearOrder Priority where
  le_refl := le_refl
  le_trans _ _ _ := le_trans
  le_antisymm _ _ := le_antisymm
  le_total := le_total

theorem min_def (a b : Priority) : min a b = if a ≤ b then a else b := rfl

instance : Std.LawfulOrderMin Priority where
  min_eq_or a b := by
    rw [min_def]
    split
    · exact Or.inl rfl
    · exact Or.inr rfl
  le_min_iff a b c := by
    rw [min_def]
    split
    · next h => exact ⟨fun ha => ⟨ha, le_trans ha h⟩, And.left⟩
    · next h => exact ⟨fun ha => ⟨le_trans ha ((le_total b c).resolve_left h), ha⟩, And.right⟩

end Priority

/-- The priority of an edge. -/
def Edge.priority (edge : Edge) : Priority :=
  ⟨edge.weight, edge.position⟩

namespace Graph

/-- The priorities of the operators that have not been applied, in storage order. -/
def pending (g : Graph) : List Priority :=
  (g.edges.toList.filter fun edge => !edge.contracted).map Edge.priority

/-- The positions of all operators in the order in which they are contracted. -/
def order (g : Graph) : List Nat :=
  ((g.edges.toList.map Edge.priority).mergeSort fun a b => decide (a ≤ b)).map Priority.position

end Graph

end OperatorChain
