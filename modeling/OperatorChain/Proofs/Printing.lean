import OperatorChain.Proofs.Numerals
import OperatorChain.Proofs.Reading
import OperatorChain.Proofs.Spacing

/-!
# Writing an expression

A chain of values is written with canonical numerals and operator symbols, one space between any two
of them.  What is written reads as the same values and operators again; only the numbers of the
operators start over, since a text has no place for them.

* `Chain.text` — the text of a chain.
* `Chain.renumber` — the chain with its operators numbered from left to right.
* `words_text` — the words of the text are the numerals and symbols.
* `ofText?_text` — reading undoes writing, up to the numbers.
-/

namespace OperatorChain

namespace Chain

/-- The values in decimal and the symbols of the operators, with a space between any two. -/
def text : Chain Int → List Char
  | .single a => decimal a
  | .snoc front _ operator a => front.text ++ ' ' :: operator.symbol :: ' ' :: decimal a

/-- The numerals and symbols of the text. -/
def tokens : Chain Int → List (List Char)
  | .single a => [decimal a]
  | .snoc front _ operator a => front.tokens ++ [[operator.symbol], decimal a]

/-- The chain with its operators numbered from left to right. -/
def renumber {α : Type} : Chain α → Chain α
  | .single a => .single a
  | .snoc front _ operator a => .snoc front.renumber front.size operator a

@[simp] theorem size_renumber {α : Type} (c : Chain α) : c.renumber.size = c.size := by
  induction c with
  | single => rfl
  | snoc front position operator a ih => simp [renumber, size, ih]

@[simp] theorem positions_renumber {α : Type} (c : Chain α) :
    c.renumber.positions = List.range c.size := by
  induction c with
  | single => rfl
  | snoc front position operator a ih => simp [renumber, positions, size, ih, List.range_succ]

end Chain

/-! ## What is written has no blanks inside -/

theorem isBlank_of_isDigit {c : Char} (h : c.isDigit = true) : isBlank c = false := by
  obtain ⟨hlow, hhigh⟩ := Char.isDigit_iff_toNat.1 h
  have hzero : '0'.toNat = 48 := rfl
  have hnine : '9'.toNat = 57 := rfl
  simp [isBlank, blankRanges]
  omega

/-- A numeral is a word. -/
theorem Numeral.isWord {word : List Char} {value : Int} (h : Numeral word value) : IsWord word := by
  have hdigits : ∀ {ds : List Char} {n : Nat}, Digits ds n → IsWord ds := fun hds =>
    ⟨hds.ne_nil, fun c hc => isBlank_of_isDigit (hds.isDigit c hc)⟩
  cases h with
  | bare hds => exact hdigits hds
  | plus hds => exact (hdigits hds).cons (by decide)
  | minus hds => exact (hdigits hds).cons (by decide)

/-- The symbol of an operator is a word. -/
theorem Operator.isWord_symbol (op : Operator) : IsWord [op.symbol] := by
  refine .singleton ?_
  cases op <;> decide

theorem words_decimal (value : Int) : words (decimal value) = [decimal value] :=
  (readInteger?_eq_some_iff.1 (readInteger?_decimal value)).isWord.words_eq

/-- A symbol between two texts, with a space on either side, is a word between theirs. -/
theorem words_append_symbol (first : List Char) (op : Operator) (second : List Char) :
    words (first ++ ' ' :: op.symbol :: ' ' :: second) =
      words first ++ [op.symbol] :: words second := by
  have hspace : isBlank ' ' = true := by decide
  have hcut : words ([op.symbol] ++ ' ' :: second) = [op.symbol] :: words second := by
    rw [words_append_cons hspace, op.isWord_symbol.words_eq]
    rfl
  rw [words_append_cons hspace, ← hcut]
  rfl

/-! ## Reading undoes writing -/

theorem readLiteral?_decimal {value : Int} (h : InRange value) :
    readLiteral? (decimal value) = some value :=
  readLiteral?_eq_some_iff.2 ⟨readInteger?_decimal value, h⟩

namespace Chain

theorem words_text (c : Chain Int) : words c.text = c.tokens := by
  induction c with
  | single a => exact words_decimal a
  | snoc front position operator a ih => rw [text, words_append_symbol, ih, words_decimal, tokens]

/-- More words behind those that a chain was read from extend it. -/
theorem ofWords?_append {c : Chain Int} {ws : List (List Char)} (ws' : List (List Char))
    (h : ofWords? ws = some c) : ofWords? (ws ++ ws') = c.extend? ws' := by
  cases ws with
  | nil => cases h
  | cons numeral rest =>
    obtain ⟨value, hv, hrest⟩ := ofWords?_cons_eq_some_iff.1 h
    rw [List.cons_append, ofWords?, hv]
    exact extend?_append ws' hrest

theorem ofWords?_tokens {c : Chain Int} (h : ∀ a ∈ c.operands, InRange a) :
    ofWords? c.tokens = some c.renumber := by
  induction c with
  | single a =>
    have ha := readLiteral?_decimal (h a (List.mem_singleton_self a))
    simp [tokens, ofWords?, ha, extend?, renumber]
  | snoc front position operator a ih =>
    have hfront := ih fun b hb => h b (List.mem_append_left _ hb)
    have ha := readLiteral?_decimal (h a (List.mem_append_right _ (List.mem_singleton_self a)))
    rw [tokens, ofWords?_append _ hfront, extend?, Operator.ofWord?_symbol, ha]
    simp [extend?, renumber]

/-- **Reading undoes writing.**  A chain of values in range is read back from its text, with its
operators numbered anew. -/
theorem ofText?_text {c : Chain Int} (h : ∀ a ∈ c.operands, InRange a) :
    ofText? c.text = some c.renumber := by
  simp [ofText?, words_text, ofWords?_tokens h]

/-- The extreme values and signs next to operators. -/
example : ofText? ((Chain.single (-9223372036854775808)).snoc 5 .subtract (-1)).text =
    some ((Chain.single (-9223372036854775808)).snoc 0 .subtract (-1)) := by decide

end Chain

end OperatorChain
