import OperatorChain.Graph.OfText
import OperatorChain.Proofs.Layout

/-!
# Reading an expression

What a text means, said without graphs: its words are numerals and operators by turns, and it reads
as the chain of their values.  `Chain.ofText?` is this grammar as a function, and the graph of a
text is laid out from the chain that it reads as.

* `Chain.ofText?` — the chain that a text reads as, if it is an expression.
* `extend_layout_eq_ok_iff` — the turns of the builder, against the turns of the grammar.
* `ofWords_eq_ok_iff`, `ofText_eq_ok_iff` — words, or a text, have a graph exactly when they read as
  a chain, and the graph is the layout of that chain.
-/

namespace OperatorChain

/-- The value of a numeral that fits into 64 bits. -/
def readLiteral? (word : List Char) : Option Int :=
  (readInteger? word).filter fun value => InRange value

theorem readLiteral?_eq_some_iff {word : List Char} {value : Int} :
    readLiteral? word = some value ↔ readInteger? word = some value ∧ InRange value := by
  simp [readLiteral?, Option.filter_eq_some_iff]

namespace Chain

/-- The chain with the operators and values that the remaining words stand for behind it. -/
def extend? (c : Chain Int) : List (List Char) → Option (Chain Int)
  | [] => some c
  | [_] => none
  | symbol :: numeral :: rest =>
    match Operator.ofWord? symbol, readLiteral? numeral with
    | some operator, some value => (c.snoc c.size operator value).extend? rest
    | _, _ => none

/-- The chain that words read as: a numeral, then operators and numerals by turns. -/
def ofWords? : List (List Char) → Option (Chain Int)
  | [] => none
  | numeral :: rest =>
    match readLiteral? numeral with
    | some value => (Chain.single value).extend? rest
    | none => none

/-- The chain that a text reads as. -/
def ofText? (text : List Char) : Option (Chain Int) :=
  ofWords? (words text)

theorem extend?_cons_cons_eq_some_iff {c c' : Chain Int} {symbol numeral : List Char}
    {rest : List (List Char)} :
    c.extend? (symbol :: numeral :: rest) = some c' ↔ ∃ operator value,
      Operator.ofWord? symbol = some operator ∧ readLiteral? numeral = some value ∧
        (c.snoc c.size operator value).extend? rest = some c' := by
  rw [extend?.eq_def]
  dsimp only
  cases Operator.ofWord? symbol <;> cases readLiteral? numeral <;> simp

theorem ofWords?_cons_eq_some_iff {c : Chain Int} {numeral : List Char}
    {rest : List (List Char)} :
    ofWords? (numeral :: rest) = some c ↔ ∃ value,
      readLiteral? numeral = some value ∧ (single value).extend? rest = some c := by
  rw [ofWords?]
  cases readLiteral? numeral <;> simp

/-- More words behind those that a chain was extended by extend it further. -/
theorem extend?_append {c c' : Chain Int} {ws : List (List Char)} (ws' : List (List Char))
    (h : c.extend? ws = some c') : c.extend? (ws ++ ws') = c'.extend? ws' := by
  induction c, ws using extend?.induct with
  | case1 c =>
    cases h
    rfl
  | case2 c word => cases h
  | case3 c symbol numeral rest operator value hv hop ih =>
    rw [extend?, hop, hv] at h
    rw [List.cons_append, List.cons_append, extend?, hop, hv]
    exact ih h
  | case4 c symbol numeral rest hnot =>
    obtain ⟨operator, value, hop, hv, -⟩ := extend?_cons_cons_eq_some_iff.1 h
    exact absurd hv (hnot operator value hop)

section Induction

variable {P : Chain Int → Prop}

theorem extend?_induction (snoc : ∀ c operator value, InRange value → P c →
    P (c.snoc c.size operator value)) {c c' : Chain Int} {ws : List (List Char)} (hc : P c)
    (h : c.extend? ws = some c') : P c' := by
  induction c, ws using extend?.induct with
  | case1 c =>
    cases h
    exact hc
  | case2 c word => cases h
  | case3 c symbol numeral rest operator value hv hop ih =>
    rw [extend?, hop, hv] at h
    exact ih (snoc c operator value (readLiteral?_eq_some_iff.1 hv).2 hc) h
  | case4 c symbol numeral rest hnot =>
    obtain ⟨operator, value, hop, hv, -⟩ := extend?_cons_cons_eq_some_iff.1 h
    exact absurd hv (hnot operator value hop)

/-- What holds of single values in range, and stays true when an operator with the next number and a
value in range are put behind a chain, holds of all chains that are read. -/
theorem ofWords?_induction (single : ∀ value, InRange value → P (.single value))
    (snoc : ∀ c operator value, InRange value → P c → P (c.snoc c.size operator value))
    {c : Chain Int} {ws : List (List Char)} (h : ofWords? ws = some c) : P c := by
  cases ws with
  | nil => cases h
  | cons numeral rest =>
    obtain ⟨value, hv, hrest⟩ := ofWords?_cons_eq_some_iff.1 h
    exact extend?_induction snoc (single value (readLiteral?_eq_some_iff.1 hv).2) hrest

end Induction

/-- The operators of a chain that was read are numbered from left to right. -/
theorem numbered_of_ofText? {c : Chain Int} {text : List Char} (h : ofText? text = some c) :
    c.Numbered :=
  ofWords?_induction (fun _ _ => trivial) (fun _ _ _ _ hc => ⟨hc, rfl⟩) h

/-- The values of a chain that was read are in range. -/
theorem inRange_of_ofWords? {c : Chain Int} {ws : List (List Char)} (h : ofWords? ws = some c) :
    ∀ a ∈ c.operands, InRange a := by
  refine ofWords?_induction (P := fun c => ∀ a ∈ c.operands, InRange a) ?_ ?_ h
  · intro value hv a ha
    rwa [List.mem_singleton.1 ha]
  · intro c operator value hv hc a ha
    rcases List.mem_append.1 ha with ha | ha
    · exact hc a ha
    · rwa [List.mem_singleton.1 ha]

theorem inRange_of_ofText? {c : Chain Int} {text : List Char} (h : ofText? text = some c) :
    ∀ a ∈ c.operands, InRange a :=
  inRange_of_ofWords? h

end Chain

/-! ## Words -/

/-- No word is both a numeral and an operator. -/
theorem ofWord?_eq_none_of_readInteger? {word : List Char} {value : Int}
    (h : readInteger? word = some value) : Operator.ofWord? word = none := by
  unfold Operator.ofWord?
  split
  · cases h
  · cases h
  · cases h
  · cases h
  · rfl

theorem Lexeme.ofWord?_eq_literal_iff {word : List Char} {value : Int} :
    Lexeme.ofWord? word = some (.literal value) ↔ readInteger? word = some value := by
  unfold Lexeme.ofWord?
  constructor
  · intro h
    split at h
    · cases h
    · simpa using h
  · intro h
    rw [ofWord?_eq_none_of_readInteger? h, h]
    rfl

theorem Lexeme.ofWord?_eq_operator_iff {word : List Char} {op : Operator} :
    Lexeme.ofWord? word = some (.operator op) ↔ Operator.ofWord? word = some op := by
  unfold Lexeme.ofWord?
  constructor
  · intro h
    split at h
    · rename_i op' hop
      cases h
      exact hop
    · simp at h
  · intro h
    rw [h]

/-- A word has a value to be stored when it stands for a literal with that value, and this is in
range. -/
theorem readLiteral?_eq_some_iff_lexeme {word : List Char} {value : Int} :
    readLiteral? word = some value ↔
      Lexeme.ofWord? word = some (.literal value) ∧ InRange value := by
  rw [readLiteral?_eq_some_iff, Lexeme.ofWord?_eq_literal_iff]

/-! ## What the builder accepts -/

namespace Graph

/-- Where an operator has to stand, the builder takes an operator and nothing else. -/
theorem extend_operator_cons_eq_ok_iff {g g' : Graph} {position : Nat} {word : List Char}
    {rest : List (List Char)} :
    g.extend .operator position (word :: rest) = .ok g' ↔ ∃ operator,
      Operator.ofWord? word = some operator ∧
        (g.appendOperator operator).extend .number (position + 1) rest = .ok g' := by
  simp only [← Lexeme.ofWord?_eq_operator_iff]
  rw [extend.eq_def]
  dsimp only
  cases Lexeme.ofWord? word with
  | none => simp
  | some lexeme => cases lexeme <;> simp

/-- Where a numeral has to stand, the builder takes a numeral that fits and nothing else. -/
theorem extend_number_cons_eq_ok_iff {g g' : Graph} {position : Nat} {word : List Char}
    {rest : List (List Char)} :
    g.extend .number position (word :: rest) = .ok g' ↔ ∃ value,
      readLiteral? word = some value ∧
        (g.appendValue value rest.isEmpty).extend .operator (position + 1) rest = .ok g' := by
  simp only [readLiteral?_eq_some_iff_lexeme]
  rw [extend.eq_def]
  dsimp only
  cases Lexeme.ofWord? word with
  | none => simp
  | some lexeme =>
    cases lexeme with
    | literal value => by_cases hrange : InRange value <;> simp [hrange, and_assoc]
    | operator op => simp

/-- **The turns of the builder.**  From a chain that has been laid out, the builder goes on exactly
as the grammar does. -/
theorem extend_layout_eq_ok_iff (c : Chain Int) (ws : List (List Char)) (position : Nat)
    {g : Graph} :
    (layout c ws.isEmpty).extend .operator position ws = .ok g ↔
      ∃ c', c.extend? ws = some c' ∧ g = layout c' true := by
  induction c, ws using Chain.extend?.induct generalizing position with
  | case1 c =>
    rw [Chain.extend?, extend]
    simp [eq_comm]
  | case2 c word =>
    rw [Chain.extend?, extend_operator_cons_eq_ok_iff]
    simp [extend]
  | case3 c symbol numeral rest operator value hv hop ih =>
    rw [extend_operator_cons_eq_ok_iff, hop]
    simp only [Option.some.injEq, exists_eq_left']
    rw [extend_number_cons_eq_ok_iff, hv, Chain.extend?, hop, hv]
    simp only [Option.some.injEq, exists_eq_left']
    exact ih (position + 1 + 1)
  | case4 c symbol numeral rest hnot =>
    constructor
    · intro h
      obtain ⟨operator, hop, h⟩ := extend_operator_cons_eq_ok_iff.1 h
      obtain ⟨value, hv, -⟩ := extend_number_cons_eq_ok_iff.1 h
      exact absurd hv (hnot operator value hop)
    · rintro ⟨c', hc', -⟩
      obtain ⟨operator, value, hop, hv, -⟩ := Chain.extend?_cons_cons_eq_some_iff.1 hc'
      exact absurd hv (hnot operator value hop)

/-- **The builder reads the grammar.**  Words have a graph exactly when they read as a chain, and
the graph is the layout of that chain. -/
theorem ofWords_eq_ok_iff {ws : List (List Char)} {g : Graph} :
    ofWords ws = .ok g ↔ ∃ c, Chain.ofWords? ws = some c ∧ g = layout c true := by
  cases ws with
  | nil => simp [ofWords, Chain.ofWords?]
  | cons numeral rest =>
    rw [ofWords, extend_number_cons_eq_ok_iff]
    simp only [Chain.ofWords?_cons_eq_some_iff]
    constructor
    · rintro ⟨value, hv, hrest⟩
      obtain ⟨c, hc, hg⟩ := (extend_layout_eq_ok_iff (.single value) rest _).1 hrest
      exact ⟨c, ⟨value, hv, hc⟩, hg⟩
    · rintro ⟨c, ⟨value, hv, hc⟩, hg⟩
      exact ⟨value, hv, (extend_layout_eq_ok_iff (.single value) rest _).2 ⟨c, hc, hg⟩⟩

/-- The same, said of texts. -/
theorem ofText_eq_ok_iff {text : List Char} {g : Graph} :
    ofText text = .ok g ↔ ∃ c, Chain.ofText? text = some c ∧ g = layout c true :=
  ofWords_eq_ok_iff

end Graph

end OperatorChain
