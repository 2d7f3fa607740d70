import OperatorChain.Proofs.Numerals
import OperatorChain.Proofs.Reading

/-!
# Tokens

A lexer knows words by their shape only.  It cuts the longest token off the front of a text, and
says which token that is and what it leaves; values are no concern of it.  A word is taken for a
token when the token that is cut off leaves nothing.  Whichever lexer is used, words are then taken
for what they stand for.

* `Token`, `Token.Matches` — the tokens and their shapes.
* `LongestMatch`, `Lexer` — what a lexer has to answer.
* `Lexer.greedy` — a lexer.
* `Lexer.classify_eq_some_iff` — a word is taken for a token exactly when the whole word has its
  shape.
* `Lexer.classify_eq_token` — and then it stands for such a lexeme.
-/

namespace OperatorChain

/-- What a word can be taken for by its shape. -/
inductive Token where
  | integer
  | operator (op : Operator)
  deriving DecidableEq, Repr

/-- The token of a lexeme, which says nothing of the value. -/
def Lexeme.token : Lexeme → Token
  | .literal _ => .integer
  | .operator op => .operator op

namespace Token

/-- What may stand before the digits of an integer. -/
def signs : List (List Char) :=
  [[], ['+'], ['-']]

/-- The shape of a token: at most one sign and one or more ASCII digits, or a symbol. -/
inductive Matches : Token → List Char → Prop
  | integer {sign digits : List Char} : sign ∈ signs → digits ≠ [] →
      (∀ d ∈ digits, d.isDigit = true) → Matches .integer (sign ++ digits)
  | operator (op : Operator) : Matches (.operator op) [op.symbol]

variable {token : Token} {text word : List Char}

/-! ## Shapes and values -/

/-- The words of this shape are those that have a value. -/
theorem matches_integer_iff : Matches .integer word ↔ ∃ value, Numeral word value := by
  constructor
  · rintro ⟨hsign, hne, hdigits⟩
    have hds := digits_ofDigitChars hne hdigits
    simp only [signs, List.mem_cons, List.not_mem_nil, or_false] at hsign
    rcases hsign with rfl | rfl | rfl
    · exact ⟨_, .bare hds⟩
    · exact ⟨_, .plus hds⟩
    · exact ⟨_, .minus hds⟩
  · rintro ⟨value, hvalue⟩
    cases hvalue with
    | bare hds => exact @Matches.integer [] _ (by decide) hds.ne_nil hds.isDigit
    | plus hds => exact @Matches.integer ['+'] _ (by decide) hds.ne_nil hds.isDigit
    | minus hds => exact @Matches.integer ['-'] _ (by decide) hds.ne_nil hds.isDigit

theorem matches_operator_iff {op : Operator} :
    Matches (.operator op) word ↔ word = [op.symbol] := by
  constructor
  · rintro ⟨⟩
    rfl
  · rintro rfl
    exact .operator op

/-- A word has the shape of what it stands for, and no other one. -/
theorem matches_iff : token.Matches word ↔ (Lexeme.ofWord? word).map Lexeme.token = some token := by
  rw [Option.map_eq_some_iff]
  cases token with
  | integer =>
    rw [matches_integer_iff]
    constructor
    · rintro ⟨value, hvalue⟩
      exact ⟨_, Lexeme.ofWord?_eq_literal_iff.2 (readInteger?_eq_some_iff.2 hvalue), rfl⟩
    · rintro ⟨_ | _, hword, htoken⟩
      · exact ⟨_, readInteger?_eq_some_iff.1 (Lexeme.ofWord?_eq_literal_iff.1 hword)⟩
      · cases htoken
  | operator op =>
    rw [matches_operator_iff]
    constructor
    · rintro hword
      exact ⟨_, Lexeme.ofWord?_eq_operator_iff.2 (Operator.ofWord?_eq_some_iff.2 hword), rfl⟩
    · rintro ⟨_ | _, hword, htoken⟩
      · cases htoken
      · cases htoken
        exact Operator.ofWord?_eq_some_iff.1 (Lexeme.ofWord?_eq_operator_iff.1 hword)

theorem Matches.ne_nil (h : token.Matches word) : word ≠ [] := by
  cases h with
  | integer _ hne _ => exact List.append_ne_nil_of_right_ne_nil _ hne
  | operator op => exact List.cons_ne_nil _ _

end Token

/-! ## Lexers -/

/-- The token is a longest one at the front of the text, and leaves `rest`. -/
structure LongestMatch (text : List Char) (token : Token) (rest : List Char) : Prop where
  exists_match : ∃ word, token.Matches word ∧ text = word ++ rest
  longest : ∀ {other : Token} {word left : List Char}, other.Matches word → text = word ++ left →
    rest.length ≤ left.length

/-- What cuts a longest token off a text, if there is any token at its front. -/
structure Lexer where
  next? : List Char → Option (Token × List Char)
  longest : ∀ {text : List Char} {token : Token} {rest : List Char},
    next? text = some (token, rest) → LongestMatch text token rest
  no_match : ∀ {text : List Char}, next? text = none →
    ∀ {token : Token} {word rest : List Char}, token.Matches word → text ≠ word ++ rest

namespace Lexer

/-- The token that a word is taken for: the one that is cut off, if it leaves nothing in which
another one could be found. -/
def classify (lexer : Lexer) (word : List Char) : Option Token :=
  match lexer.next? word with
  | some (token, rest) => if rest.isEmpty && (lexer.next? rest).isNone then some token else none
  | none => none

variable (lexer : Lexer) {token : Token} {word : List Char}

/-- There is nothing in no text. -/
theorem next?_nil : lexer.next? [] = none := by
  cases hnext : lexer.next? [] with
  | none => rfl
  | some found =>
    obtain ⟨word, hmatch, hword⟩ := (lexer.longest hnext).exists_match
    exact absurd (List.append_eq_nil_iff.1 hword.symm).1 hmatch.ne_nil

/-- **A word is taken for a token exactly when the whole word has its shape.** -/
theorem classify_eq_some_iff : lexer.classify word = some token ↔ token.Matches word := by
  unfold classify
  cases hnext : lexer.next? word with
  | none =>
    refine ⟨fun h => ?_, fun h => ?_⟩
    · cases h
    · exact absurd (List.append_nil word).symm (lexer.no_match hnext h)
  | some found =>
    obtain ⟨found, rest⟩ := found
    obtain ⟨⟨front, hmatch, hword⟩, hlongest⟩ := lexer.longest hnext
    dsimp only
    constructor
    · intro h
      rw [Option.ite_none_right_eq_some, Bool.and_eq_true, List.isEmpty_iff] at h
      obtain ⟨⟨rfl, -⟩, hfound⟩ := h
      cases hfound
      rwa [hword, List.append_nil]
    · -- the whole word is a token, so no longest one leaves anything
      intro h
      have hrest := hlongest h (List.append_nil word).symm
      obtain rfl := List.length_eq_zero_iff.1 (Nat.le_zero.1 hrest)
      rw [List.append_nil] at hword
      rw [← hword, Token.matches_iff, Token.matches_iff.1 h] at hmatch
      rw [lexer.next?_nil, Option.some.inj hmatch]
      rfl

/-- **Every lexer takes a word for what it stands for.** -/
theorem classify_eq_token (word : List Char) :
    lexer.classify word = (Lexeme.ofWord? word).map Lexeme.token :=
  Option.ext fun token => by rw [classify_eq_some_iff, Token.matches_iff]

end Lexer

/-! ## A lexer -/

/-- The text without the sign that it begins with, if there is one. -/
def dropSign : List Char → List Char
  | '+' :: rest => rest
  | '-' :: rest => rest
  | text => text

theorem exists_sign_append_dropSign (text : List Char) :
    ∃ sign ∈ Token.signs, text = sign ++ dropSign text := by
  unfold dropSign
  split
  · exact ⟨['+'], by decide, rfl⟩
  · exact ⟨['-'], by decide, rfl⟩
  · exact ⟨[], by decide, rfl⟩

theorem length_dropSign_le (text : List Char) : (dropSign text).length ≤ text.length := by
  obtain ⟨sign, -, htext⟩ := exists_sign_append_dropSign text
  have hlength := congrArg List.length htext
  rw [List.length_append] at hlength
  omega

/-- Digits begin with no sign. -/
theorem dropSign_append {sign digits : List Char} (hsign : sign ∈ Token.signs) (hne : digits ≠ [])
    (hdigits : ∀ d ∈ digits, d.isDigit = true) (rest : List Char) :
    dropSign (sign ++ digits ++ rest) = digits ++ rest := by
  simp only [Token.signs, List.mem_cons, List.not_mem_nil, or_false] at hsign
  rcases hsign with rfl | rfl | rfl
  · obtain ⟨d, ds, rfl⟩ := List.exists_cons_of_ne_nil hne
    have hd := hdigits d (List.mem_cons_self ..)
    unfold dropSign
    split
    · next h =>
      cases h
      cases hd
    · next h =>
      cases h
      cases hd
    · rfl
  · rfl
  · rfl

namespace Lexer

/-- The longest token, found by looking for digits behind a sign before looking for a symbol. -/
def greedyNext? (text : List Char) : Option (Token × List Char) :=
  let unsigned := dropSign text
  let rest := unsigned.dropWhile Char.isDigit
  if rest.length < unsigned.length then some (.integer, rest)
  else
    match text with
    | [] => none
    | c :: rest => (Operator.ofWord? [c]).map fun op => (.operator op, rest)

/-- An integer at the front of a text leaves no less than all digits do. -/
theorem dropWhile_of_integer {text word left : List Char} (h : Token.Matches .integer word)
    (htext : text = word ++ left) :
    ((dropSign text).dropWhile Char.isDigit).length < (dropSign text).length ∧
      ((dropSign text).dropWhile Char.isDigit).length ≤ left.length := by
  cases h with
  | @integer sign digits hsign hne hdigits =>
    rw [htext, dropSign_append hsign hne hdigits, List.dropWhile_append_of_pos hdigits]
    have hle := (List.dropWhile_sublist (l := left) Char.isDigit).length_le
    have hpos := List.length_pos_iff.2 hne
    rw [List.length_append]
    omega

/-- All digits behind a sign, if there are any, are an integer. -/
theorem longestMatch_integer {text : List Char}
    (h : ((dropSign text).dropWhile Char.isDigit).length < (dropSign text).length) :
    LongestMatch text .integer ((dropSign text).dropWhile Char.isDigit) := by
  obtain ⟨sign, hsign, htext⟩ := exists_sign_append_dropSign text
  have hcut : (dropSign text).takeWhile Char.isDigit ++ (dropSign text).dropWhile Char.isDigit =
      dropSign text := List.takeWhile_append_dropWhile
  constructor
  case exists_match =>
    refine ⟨sign ++ (dropSign text).takeWhile Char.isDigit,
      .integer hsign ?_ (List.all_eq_true.1 List.all_takeWhile), ?_⟩
    · intro hnil
      rw [hnil, List.nil_append] at hcut
      exact absurd (congrArg List.length hcut) h.ne
    · rw [List.append_assoc, hcut]
      exact htext
  case longest =>
    intro other word left hmatch hleft
    cases hmatch with
    | integer hsign hne hdigits =>
      exact (dropWhile_of_integer (.integer hsign hne hdigits) hleft).2
    | operator op =>
      -- a symbol is one character, and a digit is cut off, too
      have hle := length_dropSign_le text
      rw [congrArg List.length hleft, List.length_append, List.length_singleton] at hle
      omega

theorem longestMatch_greedyNext? {text rest : List Char} {token : Token}
    (h : greedyNext? text = some (token, rest)) : LongestMatch text token rest := by
  unfold greedyNext? at h
  dsimp only at h
  split at h
  · next hlt =>
    cases h
    exact longestMatch_integer hlt
  · next hlt =>
    split at h
    · cases h
    · next c left =>
      obtain ⟨op, hop, heq⟩ := Option.map_eq_some_iff.1 h
      cases heq
      have hc := Operator.ofWord?_eq_some_iff.1 hop
      refine ⟨⟨[c], hc ▸ .operator op, rfl⟩, fun {other} {word} {left'} hmatch hleft => ?_⟩
      cases hmatch with
      | integer hsign hne hdigits =>
        exact absurd (dropWhile_of_integer (.integer hsign hne hdigits) hleft).1 hlt
      | operator op' => exact (congrArg List.length (List.cons.inj hleft).2).le

theorem greedyNext?_eq_none {text : List Char} (h : greedyNext? text = none) {token : Token}
    {word rest : List Char} (hmatch : token.Matches word) : text ≠ word ++ rest := by
  rintro rfl
  unfold greedyNext? at h
  dsimp only at h
  split at h
  · cases h
  · next hlt =>
    cases hmatch with
    | integer hsign hne hdigits =>
      exact hlt (dropWhile_of_integer (.integer hsign hne hdigits) rfl).1
    | operator op => simp [Operator.ofWord?_symbol] at h

/-- The lexer that looks for digits first. -/
def greedy : Lexer where
  next? := greedyNext?
  longest := longestMatch_greedyNext?
  no_match := greedyNext?_eq_none

instance : Inhabited Lexer :=
  ⟨greedy⟩

/-- Tokens behind a token: a number, a symbol and a number are no word, nor is a number with a sign
too many. -/
example : greedy.next? "2+3".toList = some (.integer, "+3".toList) ∧
    greedy.classify "2+3".toList = none ∧ greedy.classify "--7".toList = none ∧
    greedy.classify "-007".toList = some .integer := by decide

end Lexer

end OperatorChain
