import OperatorChain.Proofs.Offences
import OperatorChain.Proofs.Spelling
import OperatorChain.Proofs.Tokens

/-!
# Numerals that are too large

A numeral is told by its shape, and then it is parsed once more for its value, digit by digit, with
a total that must never leave the range.  Parsing can fail in more ways than one, but the builder
has only one message for all of them: that the literal is too large.  The message is always true.  A
total moves away from zero with every digit, so it stays in range up to the last one just when the
value is in range; and no other failure befalls what has the shape of an integer.

* `accumulate`, `parse` — parsing, with the range checked before each digit is added and after it.
* `accumulate_eq_checked` — to check each total is to check the last one.
* `parse_eq_checked` — a numeral is parsed as its value, if that can be stored.
* `Graph.extend_number_of_numeral` — what the builder does with it.
* `Graph.TakesLiteral` — the same, said of the whole text.
* `Lexer.agrees_with_parse` — the lexer and the parser know the same numerals.
-/

namespace OperatorChain

/-! ## Parsing -/

/-- Why a word is not parsed. -/
inductive ParseFailure where
  | empty
  | invalidDigit
  | tooSmall
  | tooLarge
  deriving DecidableEq, Repr

/-- The number, if it can be stored. -/
def checked (value : Int) : Except ParseFailure Int :=
  if value < minValue then .error .tooSmall
  else if maxValue < value then .error .tooLarge
  else .ok value

/-- The number with a sign. -/
def signed (negative : Bool) (n : Nat) : Int :=
  if negative then -n else n

/-- The total behind the remaining digits, which are added to it or, behind a minus sign, taken
away.  It is checked at each step. -/
def accumulate (negative : Bool) (total : Int) : List Char → Except ParseFailure Int
  | [] => .ok total
  | d :: rest =>
    if d.isDigit then do
      let tenfold ← checked (10 * total)
      let total ← checked (tenfold + signed negative (d.toNat - '0'.toNat))
      accumulate negative total rest
    else .error .invalidDigit

/-- The value of a word: at most one sign, and then digits. -/
def parse : List Char → Except ParseFailure Int
  | [] => .error .empty
  | ['+'] => .error .invalidDigit
  | ['-'] => .error .invalidDigit
  | '+' :: digits => accumulate false 0 digits
  | '-' :: digits => accumulate true 0 digits
  | digits => accumulate false 0 digits

/-! ## Totals -/

theorem checked_eq_ok_iff {value value' : Int} :
    checked value = .ok value' ↔ InRange value ∧ value = value' := by
  unfold checked InRange
  split
  · simp; omega
  · split
    · simp; omega
    · simp; omega

theorem checked_eq_error_iff {value : Int} {failure : ParseFailure} :
    checked value = .error failure ↔
      value < minValue ∧ failure = .tooSmall ∨ maxValue < value ∧ failure = .tooLarge := by
  have hlimits : minValue ≤ maxValue := by decide
  rw [checked]
  split
  · next hsmall =>
    have hlarge : ¬ maxValue < value := by omega
    simp [hsmall, hlarge, eq_comm]
  · next hsmall =>
    split
    · next hlarge => simp [hsmall, hlarge, eq_comm]
    · next hlarge => simp [hsmall, hlarge]

theorem checked_of_inRange {value : Int} (h : InRange value) : checked value = .ok value :=
  checked_eq_ok_iff.2 ⟨h, rfl⟩

theorem exists_checked_eq_error {value : Int} (h : ¬ InRange value) :
    ∃ failure, checked value = .error failure := by
  cases hvalue : checked value with
  | error failure => exact ⟨failure, rfl⟩
  | ok value' => exact absurd (checked_eq_ok_iff.1 hvalue).1 h

/-- What is farther from zero than a number that cannot be stored cannot be stored either, and for
the same reason. -/
theorem checked_signed_mono {negative : Bool} {m n : Nat} (hle : m ≤ n) {failure : ParseFailure}
    (h : checked (signed negative m) = .error failure) :
    checked (signed negative n) = .error failure := by
  have hmin : minValue < 0 := by decide
  have hmax : 0 < maxValue := by decide
  rw [checked_eq_error_iff, signed] at h ⊢
  rcases h with ⟨hsmall, rfl⟩ | ⟨hlarge, rfl⟩
  · exact .inl ⟨by grind, rfl⟩
  · exact .inr ⟨by grind, rfl⟩

theorem signed_tenfold (negative : Bool) (n : Nat) :
    10 * signed negative n = signed negative (10 * n) := by
  cases negative with
  | false => rfl
  | true => exact Int.mul_neg 10 n

theorem signed_add (negative : Bool) (m n : Nat) :
    signed negative m + signed negative n = signed negative (m + n) := by
  cases negative with
  | false => rfl
  | true => exact Int.neg_add.symm

/-- A total never comes nearer to zero. -/
theorem le_ofDigitChars (digits : List Char) (n : Nat) : n ≤ Nat.ofDigitChars 10 digits n := by
  induction digits generalizing n with
  | nil => rw [Nat.ofDigitChars_nil]
  | cons d rest ih =>
    rw [Nat.ofDigitChars_cons]
    have := ih (10 * n + (d.toNat - '0'.toNat))
    omega

/-- **To check each total is to check the last one.** -/
theorem accumulate_eq_checked {negative : Bool} {digits : List Char}
    (hdigits : ∀ d ∈ digits, d.isDigit = true) {n : Nat} (hn : InRange (signed negative n)) :
    accumulate negative (signed negative n) digits =
      checked (signed negative (Nat.ofDigitChars 10 digits n)) := by
  induction digits generalizing n with
  | nil => rw [accumulate, Nat.ofDigitChars_nil, checked_of_inRange hn]
  | cons d rest ih =>
    obtain ⟨hd, hrest⟩ := List.forall_mem_cons.1 hdigits
    have hlast := le_ofDigitChars rest (10 * n + (d.toNat - '0'.toNat))
    rw [accumulate, if_pos hd, signed_tenfold, Nat.ofDigitChars_cons]
    -- where a check fails, the check of the last total does, too
    cases htenfold : checked (signed negative (10 * n)) with
    | error failure =>
      rw [checked_signed_mono (by omega) htenfold]
      rfl
    | ok tenfold =>
      obtain ⟨-, rfl⟩ := checked_eq_ok_iff.1 htenfold
      show (do
        let total ← checked (signed negative (10 * n) + signed negative (d.toNat - '0'.toNat))
        accumulate negative total rest) = _
      rw [signed_add]
      cases htotal : checked (signed negative (10 * n + (d.toNat - '0'.toNat))) with
      | error failure =>
        rw [checked_signed_mono hlast htotal]
        rfl
      | ok total =>
        obtain ⟨hrange, rfl⟩ := checked_eq_ok_iff.1 htotal
        exact ih hrest hrange

/-- What succeeds in two steps succeeds in each of them. -/
theorem exists_of_bind_eq_ok {ε α β : Type} {first : Except ε α} {next : α → Except ε β} {b : β}
    (h : first >>= next = .ok b) : ∃ a, first = .ok a ∧ next a = .ok b := by
  cases first with
  | error failure => cases h
  | ok a => exact ⟨a, rfl, h⟩

/-- What comes to a total consists of digits. -/
theorem isDigit_of_accumulate {negative : Bool} {total value : Int} {digits : List Char}
    (h : accumulate negative total digits = .ok value) : ∀ d ∈ digits, d.isDigit = true := by
  induction digits generalizing total with
  | nil => exact fun d hd => absurd hd List.not_mem_nil
  | cons d rest ih =>
    rw [accumulate] at h
    split at h
    · next hd =>
      obtain ⟨tenfold, -, h⟩ := exists_of_bind_eq_ok h
      obtain ⟨total, -, h⟩ := exists_of_bind_eq_ok h
      exact List.forall_mem_cons.2 ⟨hd, ih h⟩
    · cases h

/-! ## Words -/

/-- **A numeral is parsed as its value**, if that can be stored, and otherwise it is refused for the
side on which it is out of range, and for nothing else. -/
theorem parse_eq_checked {word : List Char} {value : Int} (h : Numeral word value) :
    parse word = checked value := by
  have hzero : ∀ negative, InRange (signed negative 0) := by decide
  have hdigits : ∀ {digits : List Char} {n : Nat} (negative : Bool), Digits digits n →
      accumulate negative 0 digits = checked (signed negative n) := by
    intro digits n negative hds
    rw [← hds.ofDigitChars_eq, ← accumulate_eq_checked hds.isDigit (hzero negative)]
    cases negative <;> rfl
  cases h with
  | @bare digits n hds =>
    have hvalue := hdigits false hds
    -- a digit is no sign
    unfold parse
    split
    · exact absurd rfl hds.ne_nil
    · exact absurd (hds.isDigit '+' (List.mem_cons_self ..)) (by decide)
    · exact absurd (hds.isDigit '-' (List.mem_cons_self ..)) (by decide)
    · exact absurd (hds.isDigit '+' (List.mem_cons_self ..)) (by decide)
    · exact absurd (hds.isDigit '-' (List.mem_cons_self ..)) (by decide)
    · exact hvalue
  | @plus digits n hds =>
    obtain ⟨d, rest, rfl⟩ := List.exists_cons_of_ne_nil hds.ne_nil
    exact hdigits false hds
  | @minus digits n hds =>
    obtain ⟨d, rest, rfl⟩ := List.exists_cons_of_ne_nil hds.ne_nil
    exact hdigits true hds

/-- What is parsed is a numeral. -/
theorem exists_numeral_of_parse {word : List Char} {value : Int} (h : parse word = .ok value) :
    ∃ value', Numeral word value' := by
  have hdigits : ∀ {negative : Bool} {digits : List Char}, digits ≠ [] →
      accumulate negative 0 digits = .ok value → ∃ n, Digits digits n :=
    fun hne h => ⟨_, digits_ofDigitChars hne (isDigit_of_accumulate h)⟩
  unfold parse at h
  split at h
  · cases h
  · cases h
  · cases h
  · next digits hne =>
    obtain ⟨n, hn⟩ := hdigits (fun hnil => hne (by rw [hnil])) h
    exact ⟨n, .plus hn⟩
  · next digits hne =>
    obtain ⟨n, hn⟩ := hdigits (fun hnil => hne (by rw [hnil])) h
    exact ⟨-n, .minus hn⟩
  · next hne _ _ _ _ =>
    obtain ⟨n, hn⟩ := hdigits hne h
    exact ⟨n, .bare hn⟩

theorem parse_eq_ok_iff {word : List Char} {value : Int} :
    parse word = .ok value ↔ Numeral word value ∧ InRange value := by
  constructor
  · intro h
    obtain ⟨value', hvalue'⟩ := exists_numeral_of_parse h
    obtain ⟨hrange, rfl⟩ := checked_eq_ok_iff.1 ((parse_eq_checked hvalue').symm.trans h)
    exact ⟨hvalue', hrange⟩
  · rintro ⟨hvalue, hrange⟩
    rw [parse_eq_checked hvalue, checked_of_inRange hrange]

/-! ## The builder -/

/-- Only a numeral out of range is refused as too large. -/
theorem Misfit.of_literalTooLarge {position place : Nat} {word token : List Char}
    {expected : Expected} (h : Misfit position word expected (.literalTooLarge token place)) :
    token = word ∧ place = position ∧ ∃ value, Numeral word value ∧ ¬ InRange value := by
  cases h with
  | tooLarge hvalue hrange => exact ⟨rfl, rfl, _, hvalue, hrange⟩

/-- What is refused as too large at a place is the word that stands there. -/
theorem firstOffence_literalTooLarge_iff {front rest : List (List Char)} {word token : List Char}
    {value : Int} (hfront : AllFit front) (heven : front.length % 2 = 0)
    (hvalue : Numeral word value) :
    FirstOffence (front ++ word :: rest) (.literalTooLarge token front.length) ↔
      token = word ∧ ¬ InRange value := by
  constructor
  · intro h
    generalize hws : front ++ word :: rest = ws at h
    generalize herror : ReadError.literalTooLarge token front.length = error at h
    cases h with
    | noWords => cases herror
    | noEnd _ _ _ => cases herror
    | @word front' rest' word' error _ hmisfit =>
      subst herror
      obtain ⟨rfl, hlength, value', hvalue', hrange⟩ := hmisfit.of_literalTooLarge
      obtain ⟨-, hcons⟩ := List.append_inj hws hlength
      obtain ⟨rfl, -⟩ := List.cons.inj hcons
      exact ⟨rfl, hvalue.unique hvalue' ▸ hrange⟩
  · rintro ⟨rfl, hrange⟩
    have hmisfit : Misfit front.length token (.at front.length)
        (.literalTooLarge token front.length) := by
      rw [Expected.at, if_pos heven]
      exact .tooLarge hvalue hrange
    exact .word hfront hmisfit

namespace Graph

/-- **What the builder does with a numeral** where a number is expected: it parses it, and stores
the value or tells that it is too large, whatever the failure was. -/
theorem extend_number_of_numeral {word : List Char} {value : Int} (h : Numeral word value)
    (g : Graph) (position : Nat) (rest : List (List Char)) :
    g.extend .number position (word :: rest) =
      match parse word with
      | .ok value => (g.appendValue value rest.isEmpty).extend .operator (position + 1) rest
      | .error _ => .error (.literalTooLarge word position) := by
  have hword := Lexeme.ofWord?_eq_literal_iff.2 (readInteger?_eq_some_iff.2 h)
  rw [parse_eq_checked h]
  by_cases hrange : InRange value
  · rw [checked_of_inRange hrange]
    simp [extend, hword, hrange]
  · obtain ⟨failure, hfailure⟩ := exists_checked_eq_error hrange
    rw [hfailure]
    simp [extend, hword, hrange]

/-- What becomes of a numeral in a text, behind words that are what they have to be, where a number
is expected. -/
structure TakesLiteral (text : List Char) (front : List (List Char)) (word : List Char)
    (rest : List (List Char)) (value : Int) : Prop where
  /-- A value in range is taken, and the next word is looked at. -/
  goes_on : InRange value → ∃ g : Graph,
    ofText text = (g.appendValue value rest.isEmpty).extend .operator (front.length + 1) rest
  /-- A text that has a graph has the value in it. -/
  stored : ∀ {g : Graph}, ofText text = .ok g →
    InRange value ∧ g.nodes[front.length / 2]?.map Node.value = some value
  refused : ∀ {token : List Char}, ofText text = .error (.literalTooLarge token front.length) ↔
    token = word ∧ ¬ InRange value

theorem takesLiteral {text : List Char} {front rest : List (List Char)} {word : List Char}
    {value : Int} (hvalue : Numeral word value) (hwords : words text = front ++ word :: rest)
    (hfront : AllFit front) (heven : front.length % 2 = 0) :
    TakesLiteral text front word rest value := by
  constructor
  case goes_on =>
    intro hrange
    obtain ⟨g, hg⟩ := exists_extend_append hfront (word :: rest) empty
    have hparse := parse_eq_ok_iff.2 ⟨hvalue, hrange⟩
    have hnumber : Expected.at front.length = .number := if_pos heven
    rw [hnumber, extend_number_of_numeral hvalue, hparse] at hg
    exact ⟨g, by rw [ofText, hwords, ofWords_of_ne_nil (by simp), hg]⟩
  case stored =>
    intro g hg
    rw [ofText, hwords, ofWords_eq_ok_iff_spells] at hg
    obtain ⟨values, operators, hrange, hspells, rfl⟩ := hg
    have hlength := hspells.length_words
    have hvalues := hspells.length_eq
    simp only [List.length_append, List.length_cons] at hlength
    have hi := List.getElem?_eq_getElem (show front.length / 2 < values.length by omega)
    obtain ⟨word', hword', hvalue'⟩ := hspells.getElem?_numeral hi
    rw [show 2 * (front.length / 2) = front.length by omega,
      List.getElem?_append_right (Nat.le_refl _), Nat.sub_self] at hword'
    cases hword'
    rw [getElem?_nodes_wired, hi, hvalue.unique hvalue']
    exact ⟨hrange _ (List.getElem_mem _), rfl⟩
  case refused =>
    intro token
    rw [ofText, hwords, ofWords_eq_error_iff]
    exact firstOffence_literalTooLarge_iff hfront heven hvalue

end Graph

namespace Lexer

/-- **The lexer and the parser know the same numerals.**  A word is taken for an integer when it is
at most one sign and then digits, for an operator when it is the symbol, and for nothing otherwise,
even if it begins with a token or consists of tokens.  What the parser gives a value to are the
integers in range.  So an integer is parsed as the value of its digits or fails for its size only;
where a number is expected, the builder stores this value if it is in range, and exactly if it is
not, tells that the word is too large. -/
theorem agrees_with_parse (lexer : Lexer) (word : List Char) :
    (lexer.classify word = some .integer ↔ ∃ sign digits, sign ∈ [[], ['+'], ['-']] ∧ digits ≠ [] ∧
        (∀ d ∈ digits, d.isDigit = true) ∧ word = sign ++ digits) ∧
      (∀ op, lexer.classify word = some (.operator op) ↔ word = [op.symbol]) ∧
      (lexer.classify word = none ↔ ∀ token : Token, ¬ token.Matches word) ∧
      lexer.classify word = (Lexeme.ofWord? word).map Lexeme.token ∧
      (∀ value, parse word = .ok value ↔ Numeral word value ∧ InRange value) ∧
      (lexer.classify word = some .integer → ∃ value, Numeral word value ∧
        parse word = checked value ∧
        ∀ {text : List Char} {front rest : List (List Char)}, words text = front ++ word :: rest →
          AllFit front → front.length % 2 = 0 → Graph.TakesLiteral text front word rest value) := by
  refine ⟨?_, fun op => ?_, ?_, lexer.classify_eq_token word, fun value => parse_eq_ok_iff,
    fun h => ?_⟩
  · rw [lexer.classify_eq_some_iff]
    constructor
    · rintro ⟨hsign, hne, hdigits⟩
      exact ⟨_, _, hsign, hne, hdigits, rfl⟩
    · rintro ⟨sign, digits, hsign, hne, hdigits, rfl⟩
      exact .integer hsign hne hdigits
  · rw [lexer.classify_eq_some_iff, Token.matches_operator_iff]
  · simp only [Option.eq_none_iff_forall_ne_some, ne_eq, lexer.classify_eq_some_iff]
  · obtain ⟨value, hvalue⟩ := Token.matches_integer_iff.1 (lexer.classify_eq_some_iff.1 h)
    exact ⟨value, hvalue, parse_eq_checked hvalue, Graph.takesLiteral hvalue⟩

/-- The least value, behind more zeros than there are digits in it, and the least number above the
greatest value. -/
theorem agrees_with_parse_at_limits :
    greedy.classify "-00000000000000000000009223372036854775808".toList = some .integer ∧
      parse "-00000000000000000000009223372036854775808".toList = .ok minValue ∧
      (∀ {g : Graph}, Graph.ofText "1 - -00000000000000000000009223372036854775808".toList = .ok g →
        g.nodes[1]?.map Node.value = some minValue) ∧
      greedy.classify "+9223372036854775808".toList = some .integer ∧
      Graph.ofText "1 - +9223372036854775808 x".toList =
        .error (.literalTooLarge "+9223372036854775808".toList 2) := by
  have hfront : AllFit ["1".toList, "-".toList] :=
    allFit_append_singleton.2
      ⟨allFit_append_singleton.2 ⟨allFit_nil, 1, .bare (.one rfl), by decide⟩, .subtract, rfl⟩
  have hleast :
      greedy.classify "-00000000000000000000009223372036854775808".toList = some .integer := by
    decide
  have habove : greedy.classify "+9223372036854775808".toList = some .integer := by decide
  obtain ⟨-, -, -, -, hparse, hinteger⟩ :=
    agrees_with_parse greedy "-00000000000000000000009223372036854775808".toList
  obtain ⟨value, hvalue, -, htakes⟩ := hinteger hleast
  obtain rfl : value = minValue := hvalue.unique (readInteger?_eq_some_iff.1 rfl)
  obtain ⟨-, -, -, -, -, hinteger'⟩ := agrees_with_parse greedy "+9223372036854775808".toList
  obtain ⟨value', hvalue', -, htakes'⟩ := hinteger' habove
  obtain rfl : value' = maxValue + 1 := hvalue'.unique (readInteger?_eq_some_iff.1 rfl)
  refine ⟨hleast, (hparse minValue).2 ⟨hvalue, by decide⟩, fun hg => ?_, habove, ?_⟩
  · exact ((htakes rfl hfront rfl).stored hg).2
  · exact (htakes' rfl hfront rfl).refused.2 ⟨rfl, by decide⟩

end Lexer

end OperatorChain
