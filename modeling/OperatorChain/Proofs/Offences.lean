import OperatorChain.Proofs.Numerals
import OperatorChain.Proofs.Reading
import OperatorChain.Proofs.Spacing

/-!
# Which texts are refused, and for what

The rule for expressions, said of a whole sequence of words at once.  What a word has to be is
decided by its index alone, and a sequence that breaks the rule is refused for the first word that
is not what it has to be, or else for the number that is missing at its end.

* `Expected.at`, `Expected.Allows` — what the word at an index has to be.
* `IsExpression` — the rule.
* `Misfit`, `FirstOffence` — what is wrong with a word in its place, and with a sequence of words.
* `ofWords_eq_error_iff` — the builder refuses a sequence of words for its first offence.
* `ofText_refuses_first_offence` — the same, said of texts.
-/

namespace OperatorChain

/-! ## The rule -/

/-- What the word at an index has to be: numerals and operators alternate, a numeral first. -/
def Expected.at (index : Nat) : Expected :=
  if index % 2 = 0 then .number else .operator

/-- The word is what is expected: a numeral whose value can be stored, or the symbol of an
operator. -/
def Expected.Allows : Expected → List Char → Prop
  | .number, word => ∃ value, Numeral word value ∧ InRange value
  | .operator, word => ∃ op : Operator, word = [op.symbol]

/-- Every word is what it has to be. -/
def AllFit (ws : List (List Char)) : Prop :=
  ∀ i word, ws[i]? = some word → (Expected.at i).Allows word

/-- Every word is what it has to be, and the last one is a numeral. -/
structure IsExpression (ws : List (List Char)) : Prop where
  odd : ws.length % 2 = 1
  fit : AllFit ws

/-- What is wrong with a word that is not what is expected at its position. -/
inductive Misfit (position : Nat) (word : List Char) : Expected → ReadError → Prop
  | unknown {expected : Expected} : (∀ value, ¬ Numeral word value) →
      (∀ op : Operator, word ≠ [op.symbol]) →
      Misfit position word expected (.unexpectedToken word position)
  | symbol {op : Operator} : word = [op.symbol] →
      Misfit position word .number (.malformedExpression word position .number)
  | numeral {value : Int} : Numeral word value →
      Misfit position word .operator (.malformedExpression word position .operator)
  | tooLarge {value : Int} : Numeral word value → ¬ InRange value →
      Misfit position word .number (.literalTooLarge word position)

/-- The first thing that is wrong with a sequence of words. -/
inductive FirstOffence : List (List Char) → ReadError → Prop
  | noWords : FirstOffence [] .emptyExpression
  | word {front rest : List (List Char)} {word : List Char} {error : ReadError} : AllFit front →
      Misfit front.length word (.at front.length) error →
      FirstOffence (front ++ word :: rest) error
  | noEnd {ws : List (List Char)} : ws ≠ [] → ws.length % 2 = 0 → AllFit ws →
      FirstOffence ws (.unexpectedEndOfInput ws.length)

/-! ## One word more -/

/-- What has to follow the one that is expected now. -/
def Expected.other : Expected → Expected
  | .number => .operator
  | .operator => .number

theorem Expected.at_succ (index : Nat) : Expected.at (index + 1) = (Expected.at index).other := by
  unfold Expected.at
  split
  · rw [if_neg (by omega)]
    rfl
  · rw [if_pos (by omega)]
    rfl

theorem allFit_nil : AllFit [] := by
  intro i word h
  cases h

theorem allFit_append_singleton {ws : List (List Char)} {word : List Char} :
    AllFit (ws ++ [word]) ↔ AllFit ws ∧ (Expected.at ws.length).Allows word := by
  constructor
  · intro h
    refine ⟨fun i u hu => h i u ?_, h ws.length word (by simp)⟩
    rw [List.getElem?_append_left (List.getElem?_eq_some_iff.1 hu).1, hu]
  · rintro ⟨hws, hword⟩ i u hu
    by_cases hi : i < ws.length
    · rw [List.getElem?_append_left hi] at hu
      exact hws i u hu
    · rw [List.getElem?_append_right (by omega), List.getElem?_singleton,
        Option.ite_none_right_eq_some] at hu
      obtain ⟨hzero, hsame⟩ := hu
      cases hsame
      rwa [show i = ws.length by omega]

/-! ## Words -/

theorem Lexeme.ofWord?_eq_none {word : List Char} (hnumeral : ∀ value, ¬ Numeral word value)
    (hsymbol : ∀ op : Operator, word ≠ [op.symbol]) : Lexeme.ofWord? word = none := by
  cases h : Lexeme.ofWord? word with
  | none => rfl
  | some lexeme =>
    cases lexeme with
    | literal value =>
      exact absurd (readInteger?_eq_some_iff.1 (Lexeme.ofWord?_eq_literal_iff.1 h)) (hnumeral value)
    | operator op =>
      exact absurd (Operator.ofWord?_eq_some_iff.1 (Lexeme.ofWord?_eq_operator_iff.1 h))
        (hsymbol op)

/-- A word is what is expected, or something is wrong with it. -/
theorem allows_or_misfit (expected : Expected) (position : Nat) (word : List Char) :
    expected.Allows word ∨ ∃ error, Misfit position word expected error := by
  by_cases hsymbol : ∃ op : Operator, word = [op.symbol]
  · obtain ⟨op, hop⟩ := id hsymbol
    cases expected with
    | number => exact Or.inr ⟨_, .symbol hop⟩
    | operator => exact Or.inl hsymbol
  · by_cases hnumeral : ∃ value, Numeral word value
    · obtain ⟨value, hvalue⟩ := hnumeral
      cases expected with
      | number =>
        by_cases hrange : InRange value
        · exact Or.inl ⟨value, hvalue, hrange⟩
        · exact Or.inr ⟨_, .tooLarge hvalue hrange⟩
      | operator => exact Or.inr ⟨_, .numeral hvalue⟩
    · exact Or.inr ⟨_, .unknown (not_exists.1 hnumeral) (not_exists.1 hsymbol)⟩

/-- In a sequence of words all are what they have to be, or there is a first one that is not. -/
theorem allFit_or_misfit (ws : List (List Char)) :
    AllFit ws ∨ ∃ front word rest error, ws = front ++ word :: rest ∧ AllFit front ∧
      Misfit front.length word (.at front.length) error := by
  induction ws using List.reverseRecOn with
  | nil => exact Or.inl allFit_nil
  | append_singleton ws word ih =>
    rcases ih with hws | ⟨front, word', rest, error, rfl, hfront, hmisfit⟩
    · rcases allows_or_misfit (.at ws.length) ws.length word with hword | ⟨error, hmisfit⟩
      · exact Or.inl (allFit_append_singleton.2 ⟨hws, hword⟩)
      · exact Or.inr ⟨ws, word, [], error, rfl, hws, hmisfit⟩
    · exact Or.inr ⟨front, word', rest ++ [word], error, by simp, hfront, hmisfit⟩

/-- **A sequence of words is an expression, or there is a first thing that is wrong with it.** -/
theorem isExpression_or_firstOffence (ws : List (List Char)) :
    IsExpression ws ∨ ∃ error, FirstOffence ws error := by
  rcases allFit_or_misfit ws with hfit | ⟨front, word, rest, error, rfl, hfront, hmisfit⟩
  · by_cases hodd : ws.length % 2 = 1
    · exact Or.inl ⟨hodd, hfit⟩
    · cases ws with
      | nil => exact Or.inr ⟨_, .noWords⟩
      | cons word rest => exact Or.inr ⟨_, .noEnd (List.cons_ne_nil word rest) (by omega) hfit⟩
  · exact Or.inr ⟨error, .word hfront hmisfit⟩

/-! ## The turns of the builder -/

namespace Graph

variable {expected : Expected} {position : Nat} {word : List Char} {rest : List (List Char)}

/-- What is expected is taken, and then the other is expected. -/
theorem exists_extend_cons (h : expected.Allows word) (position : Nat) (rest : List (List Char))
    (g : Graph) : ∃ g' : Graph, g.extend expected position (word :: rest) =
      g'.extend expected.other (position + 1) rest := by
  cases expected with
  | number =>
    obtain ⟨value, hvalue, hrange⟩ := h
    have hword := Lexeme.ofWord?_eq_literal_iff.2 (readInteger?_eq_some_iff.2 hvalue)
    refine ⟨g.appendValue value rest.isEmpty, ?_⟩
    simp [extend, hword, hrange, Expected.other]
  | operator =>
    obtain ⟨op, rfl⟩ := h
    have hword := Lexeme.ofWord?_eq_operator_iff.2 (Operator.ofWord?_symbol op)
    refine ⟨g.appendOperator op, ?_⟩
    simp [extend, hword, Expected.other]

/-- What is not expected is refused for what is wrong with it. -/
theorem extend_cons_of_misfit {error : ReadError} (h : Misfit position word expected error)
    (g : Graph) : g.extend expected position (word :: rest) = .error error := by
  cases h with
  | unknown hnumeral hsymbol => simp [extend, Lexeme.ofWord?_eq_none hnumeral hsymbol]
  | @symbol op hword =>
    have hword := Lexeme.ofWord?_eq_operator_iff.2 (Operator.ofWord?_eq_some_iff.2 hword)
    simp [extend, hword]
  | numeral hvalue =>
    have hword := Lexeme.ofWord?_eq_literal_iff.2 (readInteger?_eq_some_iff.2 hvalue)
    simp [extend, hword]
  | tooLarge hvalue hrange =>
    have hword := Lexeme.ofWord?_eq_literal_iff.2 (readInteger?_eq_some_iff.2 hvalue)
    simp [extend, hword, hrange]

/-- **A run of the builder.**  Words that are what they have to be are taken, whatever follows. -/
theorem exists_extend_append {front : List (List Char)} (h : AllFit front)
    (rest : List (List Char)) (g : Graph) :
    ∃ g' : Graph, g.extend (.at 0) 0 (front ++ rest) =
      g'.extend (.at front.length) front.length rest := by
  induction front using List.reverseRecOn generalizing rest with
  | nil => exact ⟨g, rfl⟩
  | append_singleton front word ih =>
    obtain ⟨hfront, hword⟩ := allFit_append_singleton.1 h
    obtain ⟨g', hg'⟩ := ih hfront (word :: rest)
    obtain ⟨g'', hg''⟩ := exists_extend_cons hword front.length rest g'
    refine ⟨g'', ?_⟩
    rw [List.append_assoc, List.singleton_append, hg', hg'', ← Expected.at_succ,
      List.length_append, List.length_singleton]

theorem ofWords_of_ne_nil {ws : List (List Char)} (h : ws ≠ []) :
    ofWords ws = empty.extend (.at 0) 0 ws := by
  cases ws with
  | nil => exact absurd rfl h
  | cons word rest => rfl

/-- An expression is accepted. -/
theorem exists_ofWords_of_isExpression {ws : List (List Char)} (h : IsExpression ws) :
    ∃ g, ofWords ws = .ok g := by
  have hodd := h.odd
  have hne : ws ≠ [] := by
    rintro rfl
    simp at hodd
  obtain ⟨g, hg⟩ := exists_extend_append h.fit [] empty
  rw [List.append_nil, ← ofWords_of_ne_nil hne, Expected.at, if_neg (by omega)] at hg
  exact ⟨g, hg⟩

/-- A sequence of words is refused for its first offence. -/
theorem ofWords_of_firstOffence {ws : List (List Char)} {error : ReadError}
    (h : FirstOffence ws error) : ofWords ws = .error error := by
  cases h with
  | noWords => rfl
  | @word front rest word error hfront hmisfit =>
    obtain ⟨g, hg⟩ := exists_extend_append hfront (word :: rest) empty
    rw [ofWords_of_ne_nil (by simp), hg, extend_cons_of_misfit hmisfit]
  | noEnd hne heven hfit =>
    obtain ⟨g, hg⟩ := exists_extend_append hfit [] empty
    rw [List.append_nil, ← ofWords_of_ne_nil hne, Expected.at, if_pos heven] at hg
    exact hg

theorem exists_ofWords_iff {ws : List (List Char)} :
    (∃ g, ofWords ws = .ok g) ↔ IsExpression ws := by
  refine ⟨?_, exists_ofWords_of_isExpression⟩
  rintro ⟨g, hg⟩
  rcases isExpression_or_firstOffence ws with h | ⟨error, herror⟩
  · exact h
  · rw [ofWords_of_firstOffence herror] at hg
    cases hg

/-- **A sequence of words is refused for its first offence and for nothing else.** -/
theorem ofWords_eq_error_iff {ws : List (List Char)} {error : ReadError} :
    ofWords ws = .error error ↔ FirstOffence ws error := by
  refine ⟨fun h => ?_, ofWords_of_firstOffence⟩
  rcases isExpression_or_firstOffence ws with hexpr | ⟨error', herror'⟩
  · obtain ⟨g, hg⟩ := exists_ofWords_of_isExpression hexpr
    rw [hg] at h
    cases h
  · rw [ofWords_of_firstOffence herror'] at h
    cases h
    exact herror'

/-- **Which texts are accepted, and for what the others are refused.**  A text consists of words
with gaps around them in one way only, and these are its words.  It has a graph exactly when they
are an expression, and otherwise it is refused for their first offence. -/
theorem ofText_refuses_first_offence (text : List Char) :
    (∀ ws, (Spaced ws text ∧ ∀ word ∈ ws, IsWord word) ↔ ws = words text) ∧
      ((∃ g, ofText text = .ok g) ↔ IsExpression (words text)) ∧
      ∀ error, ofText text = .error error ↔ FirstOffence (words text) error := by
  refine ⟨fun ws => ?_, exists_ofWords_iff, fun error => ofWords_eq_error_iff⟩
  rw [← words_eq_iff, eq_comm]

/-- A numeral of any size is refused where an operator has to stand, before what comes after it. -/
example : ofText "1 9223372036854775808 x".toList =
    .error (.malformedExpression "9223372036854775808".toList 1 .operator) := rfl

end Graph

end OperatorChain
