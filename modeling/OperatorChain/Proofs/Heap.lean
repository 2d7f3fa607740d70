import OperatorChain.Heap

/-!
# What heaps hold, and in which order

Merging two heaps keeps every element of both, as often as it occurs, and keeps the order of heaps:
no element is less than one above it.  So the element that is taken out of an ordered heap is a
least one, and the heap without it is ordered again.

* `Heap.Ordered` — every root is a lower bound of what is below it.
* `toList_merge`, `toList_ofList` — the elements of a merged heap and of a filled one.
* `Ordered.merge`, `ordered_ofList` — these heaps are ordered.
* `Ordered.popMin?` — the element taken out, and the heap that is left.
-/

namespace OperatorChain

namespace Heap

variable {α : Type}

/-- Every root is a lower bound of the elements below it. -/
def Ordered [LE α] : Heap α → Prop
  | .empty => True
  | .node _ least left right =>
    (∀ a ∈ left.toList, least ≤ a) ∧ (∀ a ∈ right.toList, least ≤ a) ∧ left.Ordered ∧ right.Ordered

/-! ## The elements of a merged heap -/

theorem toList_branch (least : α) (left right : Heap α) :
    (branch least left right).toList.Perm (least :: (left.toList ++ right.toList)) := by
  by_cases h : right.rank ≤ left.rank
  · rw [branch, if_pos h]
    exact List.Perm.refl _
  · rw [branch, if_neg h]
    exact List.perm_append_comm.cons least

theorem Ordered.branch [LE α] {least : α} {left right : Heap α}
    (hleft : ∀ a ∈ left.toList, least ≤ a) (hright : ∀ a ∈ right.toList, least ≤ a)
    (hl : left.Ordered) (hr : right.Ordered) : (branch least left right).Ordered := by
  by_cases h : right.rank ≤ left.rank
  · rw [Heap.branch, if_pos h]
    exact ⟨hleft, hright, hl, hr⟩
  · rw [Heap.branch, if_neg h]
    exact ⟨hright, hleft, hr, hl⟩

section Merge

variable [LE α] [DecidableLE α]

theorem merge_empty (heap : Heap α) : heap.merge empty = heap := by
  cases heap <;> rfl

/-- The smaller root stays on top, and the other heap goes into its right subtree. -/
theorem merge_node_node (rank rank' : Nat) (a b : α) (left right left' right' : Heap α) :
    (node rank a left right).merge (node rank' b left' right') =
      if a ≤ b then branch a left (right.merge (node rank' b left' right'))
      else branch b left' ((node rank a left right).merge right') := rfl

/-- **A merged heap has the elements of both.** -/
theorem toList_merge (first second : Heap α) :
    (first.merge second).toList.Perm (first.toList ++ second.toList) := by
  -- two inductions, since either heap may be the one that is walked into
  induction first generalizing second with
  | empty => exact List.Perm.refl _
  | node rank a left right _ ihr =>
    induction second with
    | empty =>
      simp [merge_empty, toList]
    | node rank' b left' right' _ ihr' =>
      rw [merge_node_node]
      split
      · refine (toList_branch ..).trans ?_
        rw [toList, List.cons_append, List.append_assoc]
        exact ((ihr _).append_left _).cons a
      · refine (toList_branch ..).trans ?_
        have hrest := ihr'.append_left left'.toList
        refine (hrest.cons b).trans ?_
        rw [toList.eq_2 rank' b]
        refine List.Perm.trans ?_ List.perm_middle.symm
        exact (List.perm_append_comm_assoc ..).cons b

theorem mem_toList_merge {first second : Heap α} {x : α} :
    x ∈ (first.merge second).toList ↔ x ∈ first.toList ∨ x ∈ second.toList := by
  simp [(toList_merge first second).mem_iff]

theorem toList_insert (heap : Heap α) (a : α) :
    (heap.insert a).toList.Perm (a :: heap.toList) := by
  unfold insert
  exact (toList_merge heap (singleton a)).trans (List.perm_append_singleton a heap.toList)

/-- **A heap that is filled with a list has the elements of the list.** -/
theorem toList_ofList (elements : List α) : (ofList elements).toList.Perm elements := by
  have hfold : ∀ heap : Heap α,
      (elements.foldl insert heap).toList.Perm (elements ++ heap.toList) := by
    induction elements with
    | nil => exact fun heap => List.Perm.refl _
    | cons a rest ih =>
      intro heap
      refine (ih (heap.insert a)).trans ?_
      exact ((toList_insert heap a).append_left rest).trans List.perm_middle
  have hempty := hfold empty
  rwa [toList, List.append_nil] at hempty

end Merge

/-! ## The order of a merged heap -/

/-- The root of an ordered heap is a least element. -/
theorem Ordered.root_le [LE α] [Std.IsLinearPreorder α] {rank : Nat} {least x : α}
    {left right : Heap α} (h : (node rank least left right).Ordered)
    (hx : x ∈ (node rank least left right).toList) : least ≤ x := by
  obtain ⟨hleft, hright, -, -⟩ := h
  rw [toList, List.mem_cons, List.mem_append] at hx
  rcases hx with rfl | hx | hx
  · exact Std.le_refl x
  · exact hleft x hx
  · exact hright x hx

theorem ordered_singleton [LE α] (a : α) : (singleton a).Ordered := by
  refine ⟨?_, ?_, trivial, trivial⟩
  · exact fun x hx => absurd hx List.not_mem_nil
  · exact fun x hx => absurd hx List.not_mem_nil

section Order

variable [LE α] [DecidableLE α] [Std.IsLinearPreorder α]

/-- **Merging keeps the order of heaps.** -/
theorem Ordered.merge {first second : Heap α} (h₁ : first.Ordered) (h₂ : second.Ordered) :
    (first.merge second).Ordered := by
  induction first generalizing second with
  | empty => exact h₂
  | node rank a left right _ ihr =>
    induction second with
    | empty =>
      rw [merge_empty]
      exact h₁
    | node rank' b left' right' _ ihr' =>
      obtain ⟨hleft, hright, hl, hr⟩ := id h₁
      obtain ⟨hleft', hright', hl', hr'⟩ := id h₂
      rw [merge_node_node]
      split
      · rename_i hab
        refine Ordered.branch hleft ?_ hl (ihr hr h₂)
        intro x hx
        rcases mem_toList_merge.1 hx with hx | hx
        · exact hright x hx
        · exact Std.le_trans hab (h₂.root_le hx)
      · rename_i hab
        have hba : b ≤ a := Std.le_of_not_ge hab
        refine Ordered.branch hleft' ?_ hl' (ihr' hr')
        intro x hx
        rcases mem_toList_merge.1 hx with hx | hx
        · exact Std.le_trans hba (h₁.root_le hx)
        · exact hright' x hx

theorem Ordered.insert {heap : Heap α} (h : heap.Ordered) (a : α) : (heap.insert a).Ordered :=
  h.merge (ordered_singleton a)

/-- A heap that is filled with a list is ordered. -/
theorem ordered_ofList (elements : List α) : (ofList elements).Ordered := by
  have hfold : ∀ heap : Heap α, heap.Ordered → (elements.foldl Heap.insert heap).Ordered := by
    induction elements with
    | nil => exact fun heap h => h
    | cons a rest ih => exact fun heap h => ih (heap.insert a) (h.insert a)
  exact hfold empty trivial

end Order

/-! ## Taking out the least element -/

theorem popMin?_eq_none_iff [LE α] [DecidableLE α] {heap : Heap α} :
    heap.popMin? = none ↔ heap.toList = [] := by
  cases heap <;> simp [popMin?, toList]

/-- **What is taken out of an ordered heap is a least element.**  The others stay in the heap, and
the heap stays ordered. -/
theorem Ordered.popMin? [LE α] [DecidableLE α] [Std.IsLinearPreorder α] {heap rest : Heap α}
    {least : α} (h : heap.Ordered) (hpop : heap.popMin? = some (least, rest)) :
    heap.toList.Perm (least :: rest.toList) ∧ (∀ a ∈ heap.toList, least ≤ a) ∧ rest.Ordered := by
  cases heap with
  | empty => cases hpop
  | node rank root left right =>
    cases hpop
    refine ⟨?_, fun a ha => h.root_le ha, ?_⟩
    · exact ((toList_merge left right).symm).cons least
    · exact h.2.2.1.merge h.2.2.2

end Heap

end OperatorChain
