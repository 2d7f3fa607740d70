import OperatorChain.Priority
import OperatorChain.Proofs.Stretch

/-!
# Chains

An expression as it is read from left to right: a value, then operators with one more value each.
The same shape serves for the values of an expression, for the nodes of a graph that hold them, and
for the terms of a sum.  An operator keeps the position that it had in the whole expression, so a
chain in which some operators have been done still says which ones are left.

* `Chain` — the type, built up at its right end, as expressions associate to the left.
* `Chain.splice` — an operator and its two operands give way to one value.
* `Chain.around?` — the two operands of an operator.
* `stretchChain` — the chain of the stretches of an expression, and `splice_stretchChain`: doing one
  more operator splices it.
-/

namespace OperatorChain

/-- A value, or a chain followed by an operator, with its position, and one more value. -/
inductive Chain (α : Type) where
  | single (operand : α)
  | snoc (front : Chain α) (position : Nat) (operator : Operator) (operand : α)
  deriving DecidableEq, Repr

namespace Chain

variable {α β : Type}

/-- The rightmost operand. -/
def last : Chain α → α
  | .single a => a
  | .snoc _ _ _ a => a

/-- The chain with another rightmost operand. -/
def setLast (a : α) : Chain α → Chain α
  | .single _ => .single a
  | .snoc front position operator _ => .snoc front position operator a

/-- The number of operators. -/
def size : Chain α → Nat
  | .single _ => 0
  | .snoc front _ _ _ => front.size + 1

/-- The operands from left to right. -/
def operands : Chain α → List α
  | .single a => [a]
  | .snoc front _ _ a => front.operands ++ [a]

/-- The operators from left to right. -/
def operators : Chain α → List Operator
  | .single _ => []
  | .snoc front _ operator _ => front.operators ++ [operator]

/-- The positions of the operators from left to right. -/
def positions : Chain α → List Nat
  | .single _ => []
  | .snoc front position _ _ => front.positions ++ [position]

/-- The priorities of the operators from left to right. -/
def priorities : Chain α → List Priority
  | .single _ => []
  | .snoc front position operator _ => front.priorities ++ [⟨operator.weight, position⟩]

/-- The positions count the operators from left to right. -/
def Numbered : Chain α → Prop
  | .single _ => True
  | .snoc front position _ _ => front.Numbered ∧ position = front.size

/-- The chain with other operands. -/
def map (f : α → β) : Chain α → Chain β
  | .single a => .single (f a)
  | .snoc front position operator a => .snoc (front.map f) position operator (f a)

/-- The chain in which `result` stands for the operator at `position` and its two operands. -/
def splice (position : Nat) (result : α) : Chain α → Chain α
  | .single a => .single a
  | .snoc front q operator a =>
    if q = position then front.setLast result else .snoc (front.splice position result) q operator a

/-- The operator at `position` between its two operands. -/
def around? (position : Nat) : Chain α → Option (α × Operator × α)
  | .single _ => none
  | .snoc front q operator a =>
    if q = position then some (front.last, operator, a) else front.around? position

/-! ## Ends and sizes -/

@[simp] theorem size_setLast (a : α) (c : Chain α) : (c.setLast a).size = c.size := by
  cases c <;> rfl

@[simp] theorem positions_setLast (a : α) (c : Chain α) :
    (c.setLast a).positions = c.positions := by
  cases c <;> rfl

@[simp] theorem priorities_setLast (a : α) (c : Chain α) :
    (c.setLast a).priorities = c.priorities := by
  cases c <;> rfl

theorem last_mem_operands (c : Chain α) : c.last ∈ c.operands := by
  cases c <;> simp [last, operands]

theorem length_operands (c : Chain α) : c.operands.length = c.size + 1 := by
  induction c with
  | single => rfl
  | snoc front position operator a ih => simp [operands, size, ih]

theorem length_operators (c : Chain α) : c.operators.length = c.size := by
  induction c with
  | single => rfl
  | snoc front position operator a ih => simp [operators, size, ih]

theorem length_positions (c : Chain α) : c.positions.length = c.size := by
  induction c with
  | single => rfl
  | snoc front position operator a ih => simp [positions, size, ih]

/-- The position of an operator is the position in its priority. -/
theorem map_position_priorities (c : Chain α) :
    c.priorities.map Priority.position = c.positions := by
  induction c with
  | single => rfl
  | snoc front position operator a ih => simp [positions, priorities, ih]

/-! ## Operators and their operands -/

theorem mem_positions_of_around? {c : Chain α} {position : Nat} {found : α × Operator × α}
    (h : c.around? position = some found) : position ∈ c.positions := by
  induction c with
  | single => cases h
  | snoc front q operator a ih =>
    rw [positions, List.mem_append, List.mem_singleton]
    unfold around? at h
    split at h
    · next hq => exact Or.inr hq.symm
    · exact Or.inl (ih h)

/-- The operator at a position stands between two operands. -/
theorem mem_operands_of_around? {c : Chain α} {position : Nat} {left right : α}
    {operator : Operator} (h : c.around? position = some (left, operator, right)) :
    left ∈ c.operands ∧ right ∈ c.operands := by
  induction c with
  | single => cases h
  | snoc front q op a ih =>
    rw [operands, List.mem_append, List.mem_append]
    unfold around? at h
    split at h
    · cases h
      exact ⟨.inl front.last_mem_operands, .inr (List.mem_singleton_self right)⟩
    · exact (ih h).imp .inl .inl

/-- Where positions occur once, the operator that a priority comes from is found at its
position. -/
theorem exists_around?_of_mem_priorities {c : Chain α} (hnodup : c.positions.Nodup)
    {first : Priority} (h : first ∈ c.priorities) :
    ∃ left operator right, c.around? first.position = some (left, operator, right) ∧
      first = ⟨operator.weight, first.position⟩ := by
  induction c with
  | single => cases h
  | snoc front q operator a ih =>
    unfold positions at hnodup
    obtain ⟨hfront, -, hdisjoint⟩ := List.nodup_append.1 hnodup
    rw [priorities, List.mem_append, List.mem_singleton] at h
    rcases h with h | rfl
    · have hmem : first.position ∈ front.positions := by
        rw [← map_position_priorities]
        exact List.mem_map_of_mem h
      have hne := hdisjoint _ hmem _ (List.mem_singleton_self q)
      rw [around?, if_neg hne.symm]
      exact ih hfront h
    · exact ⟨front.last, operator, a, if_pos rfl, rfl⟩

/-- Splicing takes away one operator and leaves the others as they are. -/
theorem perm_priorities_splice {c : Chain α} {position : Nat} {left right : α}
    {operator : Operator} (h : c.around? position = some (left, operator, right)) (a : α) :
    c.priorities.Perm (⟨operator.weight, position⟩ :: (c.splice position a).priorities) := by
  induction c with
  | single => cases h
  | snoc front q op b ih =>
    unfold around? at h
    split at h
    · next hq =>
      cases h
      rw [splice, if_pos hq, priorities_setLast, priorities, hq]
      exact List.perm_append_singleton _ _
    · next hq =>
      rw [splice, if_neg hq, priorities, priorities]
      exact (ih h).append_right _

/-- Splicing brings in no operand but the result. -/
theorem mem_operands_splice {c : Chain α} {position : Nat} {a x : α}
    (hx : x ∈ (c.splice position a).operands) : x = a ∨ x ∈ c.operands := by
  induction c with
  | single => exact Or.inr hx
  | snoc front q op b ih =>
    unfold splice at hx
    split at hx
    · cases front with
      | single => exact Or.inl (List.mem_singleton.1 hx)
      | snoc front' r op' b' =>
        rcases List.mem_append.1 hx with hx | hx
        · exact Or.inr (List.mem_append_left _ (List.mem_append_left _ hx))
        · exact Or.inl (List.mem_singleton.1 hx)
    · rcases List.mem_append.1 hx with hx | hx
      · rcases ih hx with rfl | hx
        · exact Or.inl rfl
        · exact Or.inr (List.mem_append_left _ hx)
      · exact Or.inr (List.mem_append_right _ hx)

/-- Splicing takes away one operator. -/
theorem size_splice {c : Chain α} {position : Nat} {found : α × Operator × α}
    (h : c.around? position = some found) (a : α) : (c.splice position a).size + 1 = c.size := by
  induction c with
  | single => cases h
  | snoc front q op b ih =>
    unfold around? at h
    split at h
    · next hq => rw [splice, if_pos hq, size_setLast, size]
    · next hq => rw [splice, if_neg hq, size, size, ih h]

/-- Splicing the only operator leaves the result alone. -/
theorem splice_eq_single {c : Chain α} {position : Nat} {found : α × Operator × α} {a : α}
    (h : c.around? position = some found) (hsize : (c.splice position a).size = 0) :
    c.splice position a = .single a := by
  cases c with
  | single => cases h
  | snoc front q op b =>
    unfold splice at hsize ⊢
    split at hsize
    · next hq =>
      rw [if_pos hq]
      cases front with
      | single => rfl
      | snoc => cases hsize
    · cases hsize

theorem priorities_eq_nil_iff {c : Chain α} : c.priorities = [] ↔ c.size = 0 := by
  cases c with
  | single => exact ⟨fun _ => rfl, fun _ => rfl⟩
  | snoc front q op b => simp [priorities, size]

/-! ## Other operands -/

@[simp] theorem last_map (f : α → β) (c : Chain α) : (c.map f).last = f c.last := by
  cases c <;> rfl

@[simp] theorem map_setLast (f : α → β) (a : α) (c : Chain α) :
    (c.setLast a).map f = (c.map f).setLast (f a) := by
  cases c <;> rfl

@[simp] theorem positions_map (f : α → β) (c : Chain α) : (c.map f).positions = c.positions := by
  induction c with
  | single => rfl
  | snoc front position operator a ih => simp [map, positions, ih]

@[simp] theorem priorities_map (f : α → β) (c : Chain α) :
    (c.map f).priorities = c.priorities := by
  induction c with
  | single => rfl
  | snoc front position operator a ih => simp [map, priorities, ih]

@[simp] theorem size_map (f : α → β) (c : Chain α) : (c.map f).size = c.size := by
  induction c with
  | single => rfl
  | snoc front position operator a ih => simp [map, size, ih]

theorem map_splice (f : α → β) (position : Nat) (result : α) (c : Chain α) :
    (c.splice position result).map f = (c.map f).splice position (f result) := by
  induction c with
  | single => rfl
  | snoc front q operator a ih =>
    by_cases h : q = position
    · simp [splice, map, h]
    · simp [splice, map, h, ih]

theorem around?_map (f : α → β) (position : Nat) (c : Chain α) :
    (c.map f).around? position =
      (c.around? position).map fun (a, operator, b) => (f a, operator, f b) := by
  induction c with
  | single => rfl
  | snoc front q operator a ih =>
    by_cases h : q = position
    · simp [around?, map, h]
    · simp [around?, map, h, ih]

/-- Chains agree after a change of operands that agrees on the operands they have. -/
theorem map_congr {f g : α → β} {c : Chain α} (h : ∀ a ∈ c.operands, f a = g a) :
    c.map f = c.map g := by
  induction c with
  | single a => simp only [map, h a (by simp [operands])]
  | snoc front position operator a ih =>
    have hfront := ih fun b hb => h b (List.mem_append_left _ hb)
    have ha := h a (List.mem_append_right _ (List.mem_singleton_self a))
    simp only [map, hfront, ha]

end Chain

/-! ## The chain of the stretches -/

section Stretches

variable {α β : Type}

/-- The stretches up to a literal as a chain: its operators are those not done, and the operand for
the stretch that begins at literal `low` is `holder low`. -/
def stretchChain (holder : Nat → α) (operator : Nat → Operator) (done : List Nat) : Nat → Chain α
  | 0 => .single (holder 0)
  | q + 1 =>
    if q ∈ done then stretchChain holder operator done q
    else .snoc (stretchChain holder operator done q) q (operator q) (holder (q + 1))

variable {holder : Nat → α} {operator : Nat → Operator} {done : List Nat}

/-- The rightmost operand belongs to the stretch of the literal. -/
theorem last_stretchChain (literal : Nat) :
    (stretchChain holder operator done literal).last = holder (stretchStart done literal) := by
  induction literal with
  | zero => rfl
  | succ q ih =>
    by_cases h : q ∈ done
    · simpa [stretchChain, stretchStart, h] using ih
    · simp [stretchChain, stretchStart, h, Chain.last]

/-- The operators of the chain are those not done, in increasing order. -/
theorem positions_stretchChain (literal : Nat) :
    (stretchChain holder operator done literal).positions =
      (List.range literal).filter (· ∉ done) := by
  induction literal with
  | zero => rfl
  | succ q ih =>
    rw [List.range_succ, List.filter_append, ← ih]
    by_cases h : q ∈ done
    · simp [stretchChain, h]
    · simp [stretchChain, Chain.positions, h]

theorem map_stretchChain (f : α → β) (literal : Nat) :
    (stretchChain holder operator done literal).map f =
      stretchChain (fun low => f (holder low)) operator done literal := by
  induction literal with
  | zero => rfl
  | succ q ih =>
    by_cases h : q ∈ done
    · simp [stretchChain, h, ih]
    · simp [stretchChain, Chain.map, h, ih]

/-- Each operand belongs to a stretch. -/
theorem exists_of_mem_operands_stretchChain {literal : Nat} {a : α}
    (h : a ∈ (stretchChain holder operator done literal).operands) :
    ∃ low, low ≤ literal ∧ (∀ q, low = q + 1 → q ∉ done) ∧ a = holder low := by
  induction literal with
  | zero =>
    refine ⟨0, Nat.le_refl 0, fun q hq => by omega, ?_⟩
    simpa [stretchChain, Chain.operands] using h
  | succ q ih =>
    unfold stretchChain at h
    split at h
    · obtain ⟨low, hle, hlow, rfl⟩ := ih h
      exact ⟨low, by omega, hlow, rfl⟩
    · rename_i hq
      rw [Chain.operands, List.mem_append] at h
      rcases h with h | h
      · obtain ⟨low, hle, hlow, rfl⟩ := ih h
        exact ⟨low, by omega, hlow, rfl⟩
      · refine ⟨q + 1, Nat.le_refl _, ?_, List.mem_singleton.1 h⟩
        intro r hr
        rwa [show r = q by omega]

/-- An operator that is not done stands between the stretch that it ends and the stretch that
follows it. -/
theorem around?_stretchChain {position literal : Nat} (hlt : position < literal)
    (h : position ∉ done) :
    (stretchChain holder operator done literal).around? position =
      some (holder (stretchStart done position), operator position, holder (position + 1)) := by
  induction literal with
  | zero => omega
  | succ q ih =>
    by_cases hq : q = position
    · subst hq
      simp [stretchChain, h, Chain.around?, last_stretchChain]
    · have hrest := ih (by omega)
      by_cases hdone : q ∈ done
      · simp [stretchChain, hdone, hrest]
      · simp [stretchChain, hdone, Chain.around?, hq, hrest]

/-! ## One more operator is done -/

/-- Holders and lists of done operators that agree as far as a chain looks give the same chain. -/
theorem stretchChain_congr {holder' : Nat → α} {operator' : Nat → Operator} {done' : List Nat}
    {literal : Nat} (hholder : ∀ low ≤ literal, holder low = holder' low)
    (hoperator : ∀ q < literal, operator q = operator' q)
    (hdone : ∀ q < literal, q ∈ done ↔ q ∈ done') :
    stretchChain holder operator done literal = stretchChain holder' operator' done' literal := by
  induction literal with
  | zero => simp [stretchChain, hholder 0 (Nat.le_refl 0)]
  | succ q ih =>
    have hfront := ih (fun low hle => hholder low (by omega)) (fun r hr => hoperator r (by omega))
      (fun r hr => hdone r (by omega))
    have hq := hdone q (Nat.lt_succ_self q)
    by_cases h : q ∈ done
    · simp [stretchChain, h, hq.1 h, hfront]
    · rw [stretchChain, stretchChain, if_neg h, if_neg (mt hq.2 h), hfront,
        hholder _ (Nat.le_refl _), hoperator q (Nat.lt_succ_self q)]

/-- A new holder for the stretch of a literal is the new rightmost operand of the chain up to it. -/
theorem stretchChain_update_start (a : α) (literal : Nat) :
    stretchChain (Function.update holder (stretchStart done literal) a) operator done literal =
      (stretchChain holder operator done literal).setLast a := by
  induction literal with
  | zero => simp [stretchChain, stretchStart, Chain.setLast]
  | succ q ih =>
    by_cases h : q ∈ done
    · simpa [stretchChain, stretchStart, h] using ih
    · have hfront : stretchChain (Function.update holder (q + 1) a) operator done q =
          stretchChain holder operator done q := by
        refine stretchChain_congr ?_ (fun _ _ => rfl) (fun _ _ => Iff.rfl)
        intro low hle
        rw [Function.update_of_ne (by omega)]
      simp [stretchChain, stretchStart, h, Chain.setLast, hfront]

/-- **Doing an operator splices the chain of the stretches.**  The stretch on its left is held by
`a` from then on, and the stretch on its right is part of it. -/
theorem splice_stretchChain {position literal : Nat} (hlt : position < literal)
    (h : position ∉ done) (a : α) :
    stretchChain (Function.update holder (stretchStart done position) a) operator
        (position :: done) literal =
      (stretchChain holder operator done literal).splice position a := by
  have hstart : stretchStart done position ≤ position := stretchStart_le position
  induction literal with
  | zero => omega
  | succ q ih =>
    by_cases hq : q = position
    · subst hq
      rw [stretchChain, if_pos (List.mem_cons_self ..), stretchChain, if_neg h, Chain.splice,
        if_pos rfl, ← stretchChain_update_start]
      refine stretchChain_congr (fun _ _ => rfl) (fun _ _ => rfl) ?_
      intro r hr
      simp [Nat.ne_of_lt hr]
    · have hrest := ih (by omega)
      have hmem : q ∈ position :: done ↔ q ∈ done := by simp [hq]
      by_cases hdone : q ∈ done
      · simp [stretchChain, hmem.2 hdone, hrest, hdone]
      · rw [stretchChain, if_neg (mt hmem.1 hdone), hrest, stretchChain, if_neg hdone,
          Chain.splice, if_neg hq, Function.update_of_ne (by omega)]

end Stretches

end OperatorChain
