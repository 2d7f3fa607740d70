import Mathlib.Data.List.Infix
import OperatorChain.Calculation

/-!
# What a message tells

A message quotes the word that it is about as it stands.  Nothing in the word is marked, not even a
quote, and so the word may look like the rest of a message.  A message can be read back all the
same.  Its first words belong to one kind of error only, and its last words are always those of that
kind.  In between, the number stands next to one of the two, so it can be read off first, and then
the word is what is left.

* `naturalDecimal_append_inj`, `append_naturalDecimal_inj` — a number is read off the digits that a
  text begins or ends with.
* `opening`, `EvaluationError.kind_eq_of_message_eq` — the first words tell the kind of an error.
* `placed_inj`, `quoted_inj`, `expected_inj` — what stands between the first and the last words.
* `EvaluationError.message_eq_iff` — which errors have the same message.
-/

namespace OperatorChain

/-! ## Numbers at the ends of a text -/

theorem naturalDecimal_inj {m n : Nat} (h : naturalDecimal m = naturalDecimal n) : m = n := by
  have hread := readNatural?_naturalDecimal m
  rw [h, readNatural?_naturalDecimal] at hread
  exact (Option.some.inj hread).symm

/-- The digits that a text begins with end before the first character that is none. -/
theorem takeWhile_isDigit_append {digits rest : List Char}
    (hdigits : ∀ c ∈ digits, c.isDigit = true) (hrest : ∀ c ∈ rest.head?, c.isDigit = false) :
    (digits ++ rest).takeWhile Char.isDigit = digits := by
  rw [List.takeWhile_append_of_pos hdigits]
  cases rest with
  | nil => simp
  | cons c rest => simp [hrest c rfl]

theorem digits_append_inj {digits digits' rest rest' : List Char}
    (hdigits : ∀ c ∈ digits, c.isDigit = true) (hdigits' : ∀ c ∈ digits', c.isDigit = true)
    (hrest : ∀ c ∈ rest.head?, c.isDigit = false) (hrest' : ∀ c ∈ rest'.head?, c.isDigit = false)
    (h : digits ++ rest = digits' ++ rest') : digits = digits' ∧ rest = rest' := by
  have hsame := congrArg (List.takeWhile Char.isDigit) h
  rw [takeWhile_isDigit_append hdigits hrest, takeWhile_isDigit_append hdigits' hrest'] at hsame
  subst hsame
  exact ⟨rfl, List.append_cancel_left h⟩

/-- **A number is read off the digits that a text begins with.** -/
theorem naturalDecimal_append_inj {m n : Nat} {rest rest' : List Char}
    (hrest : ∀ c ∈ rest.head?, c.isDigit = false) (hrest' : ∀ c ∈ rest'.head?, c.isDigit = false)
    (h : naturalDecimal m ++ rest = naturalDecimal n ++ rest') : m = n ∧ rest = rest' := by
  obtain ⟨hdigits, hsame⟩ := digits_append_inj (fun _ => isDigit_of_mem_naturalDecimal)
    (fun _ => isDigit_of_mem_naturalDecimal) hrest hrest' h
  exact ⟨naturalDecimal_inj hdigits, hsame⟩

/-- **A number is read off the digits that a text ends with.** -/
theorem append_naturalDecimal_inj {m n : Nat} {front front' : List Char}
    (hfront : ∀ c ∈ front.getLast?, c.isDigit = false)
    (hfront' : ∀ c ∈ front'.getLast?, c.isDigit = false)
    (h : front ++ naturalDecimal m = front' ++ naturalDecimal n) : front = front' ∧ m = n := by
  have hdigits : ∀ {n : Nat}, ∀ c ∈ (naturalDecimal n).reverse, c.isDigit = true :=
    fun c hc => isDigit_of_mem_naturalDecimal (List.mem_reverse.1 hc)
  -- read from its end, the text begins with the digits
  have hreverse := congrArg List.reverse h
  rw [List.reverse_append, List.reverse_append] at hreverse
  obtain ⟨hnumber, hsame⟩ := digits_append_inj hdigits hdigits (by simpa using hfront)
    (by simpa using hfront') hreverse
  exact ⟨List.reverse_inj.1 hsame, naturalDecimal_inj (List.reverse_inj.1 hnumber)⟩

/-! ## The first words of a message -/

/-- How messages begin, for each kind of error. -/
def opening : Fin 8 → List Char
  | 0 => "Empty expression".toList
  | 1 => "Unexpected token '".toList
  | 2 => "Malformed expression: ".toList
  | 3 => "Literal '".toList
  | 4 => "Unexpected end of input: ".toList
  | 5 => "Division by zero".toList
  | 6 => "Integer overflow ".toList
  | 7 => "Index ".toList

/-- No kind of message begins like another one. -/
theorem eq_of_opening_isPrefix : ∀ i j, opening i <+: opening j → i = j := by
  decide

namespace EvaluationError

/-- The kind of an error, which is all that the beginning of its message depends on. -/
def kind : EvaluationError → Fin 8
  | .reading .emptyExpression => 0
  | .reading (.unexpectedToken _ _) => 1
  | .reading (.malformedExpression _ _ _) => 2
  | .reading (.literalTooLarge _ _) => 3
  | .reading (.unexpectedEndOfInput _) => 4
  | .contraction (.divisionByZero _) => 5
  | .contraction (.overflow _) => 6
  | .contraction .danglingIndex => 7

theorem opening_isPrefix (error : EvaluationError) : opening error.kind <+: error.message := by
  rcases error with (_ | _ | _ | _ | _) | (_ | _ | _) <;> exact ⟨_, rfl⟩

/-- **Errors with the same message are of one kind.** -/
theorem kind_eq_of_message_eq {a b : EvaluationError} (h : a.message = b.message) :
    a.kind = b.kind := by
  rcases List.prefix_or_prefix_of_prefix (h ▸ a.opening_isPrefix) b.opening_isPrefix with hab | hba
  · exact eq_of_opening_isPrefix _ _ hab
  · exact (eq_of_opening_isPrefix _ _ hba).symm

end EvaluationError

/-! ## What stands between the first and the last words -/

section Fields

variable {first last token token' : List Char} {p q : Nat}

/-- A number. -/
theorem placed_inj (h : first ++ naturalDecimal p ++ last = first ++ naturalDecimal q ++ last) :
    p = q :=
  naturalDecimal_inj (List.append_cancel_left (List.append_cancel_right h))

/-- A word and then a number, which is read first: behind it come the last words. -/
theorem quoted_inj
    (h : first ++ token ++ "' at position ".toList ++ naturalDecimal p ++ last =
      first ++ token' ++ "' at position ".toList ++ naturalDecimal q ++ last) :
    token = token' ∧ p = q := by
  have hspace : ∀ front : List Char,
      ∀ c ∈ (front ++ "' at position ".toList).getLast?, c.isDigit = false := by
    intro front c hc
    rw [List.getLast?_append] at hc
    cases hc
    rfl
  obtain ⟨hfront, hnumber⟩ :=
    append_naturalDecimal_inj (hspace _) (hspace _) (List.append_cancel_right h)
  exact ⟨List.append_cancel_left (List.append_cancel_right hfront), hnumber⟩

/-- What was expected, a number and then a word.  Here the number is read first from the front,
since the word may end in any way. -/
theorem expected_inj {expected expected' : Expected}
    (h : ReadError.message (.malformedExpression token p expected) =
      ReadError.message (.malformedExpression token' q expected')) :
    token = token' ∧ p = q ∧ expected = expected' := by
  have hcut : ∀ (word : List Char) (position : Nat) (expected : Expected),
      ReadError.message (.malformedExpression word position expected) =
        "Malformed expression: expected ".toList ++ (expected.text ++ (" at position ".toList ++
          (naturalDecimal position ++ (" but found '".toList ++ (word ++ "'.".toList))))) := by
    intro word position expected
    simp only [← List.append_assoc]
    rfl
  rw [hcut, hcut] at h
  have hexpected := List.append_cancel_left h
  have hsame : expected = expected' := by
    cases expected <;> cases expected'
    · rfl
    · cases hexpected
    · cases hexpected
    · rfl
  subst hsame
  have hnumber := List.append_cancel_left (List.append_cancel_left hexpected)
  obtain ⟨rfl, hword⟩ :=
    naturalDecimal_append_inj (by rintro c ⟨⟩; rfl) (by rintro c ⟨⟩; rfl) hnumber
  exact ⟨List.append_cancel_right (List.append_cancel_left hword), rfl, rfl⟩

end Fields

/-! ## All messages -/

/-- The message of a text that is no expression says all about the cause. -/
theorem ReadError.message_inj {a b : ReadError} (h : a.message = b.message) : a = b := by
  have hkind := EvaluationError.kind_eq_of_message_eq (a := .reading a) (b := .reading b) h
  cases a with
  | emptyExpression =>
    cases b with
    | emptyExpression => rfl
    | _ => cases hkind
  | unexpectedToken token position =>
    cases b with
    | unexpectedToken token' position' =>
      obtain ⟨rfl, rfl⟩ := quoted_inj h
      rfl
    | _ => cases hkind
  | malformedExpression token position expected =>
    cases b with
    | malformedExpression token' position' expected' =>
      obtain ⟨rfl, rfl, rfl⟩ := expected_inj h
      rfl
    | _ => cases hkind
  | literalTooLarge token position =>
    cases b with
    | literalTooLarge token' position' =>
      obtain ⟨rfl, rfl⟩ := quoted_inj h
      rfl
    | _ => cases hkind
  | unexpectedEndOfInput position =>
    cases b with
    | unexpectedEndOfInput position' =>
      obtain rfl := placed_inj h
      rfl
    | _ => cases hkind

/-- The message of a contraction that fails says all about the cause, or that a divisor is zero. -/
theorem ContractionError.eq_or_of_message_eq {a b : ContractionError} (h : a.message = b.message) :
    a = b ∨ ∃ p q, a = .divisionByZero p ∧ b = .divisionByZero q := by
  have hkind := EvaluationError.kind_eq_of_message_eq (a := .contraction a) (b := .contraction b) h
  cases a with
  | divisionByZero position =>
    cases b with
    | divisionByZero position' => exact .inr ⟨position, position', rfl, rfl⟩
    | _ => cases hkind
  | overflow position =>
    cases b with
    | overflow position' =>
      obtain rfl := placed_inj h
      exact .inl rfl
    | _ => cases hkind
  | danglingIndex =>
    cases b with
    | danglingIndex => exact .inl rfl
    | _ => cases hkind

/-- Messages of different phases are different. -/
theorem reading_message_ne (cause : ReadError) (cause' : ContractionError) :
    cause.message ≠ cause'.message := by
  intro h
  have hkind :=
    EvaluationError.kind_eq_of_message_eq (a := .reading cause) (b := .contraction cause') h
  cases cause <;> cases cause' <;> cases hkind

/-- **What has the same message is the same error**, unless it is a division by zero: that does not
tell its position.  The message is that of the cause, whichever phase this comes from. -/
theorem EvaluationError.message_eq_iff (a b : EvaluationError) :
    (a.message = b.message ↔ a = b ∨
      ∃ p q, a = .contraction (.divisionByZero p) ∧ b = .contraction (.divisionByZero q)) ∧
    (∀ cause : ReadError, (EvaluationError.reading cause).message = cause.message) ∧
    ∀ cause : ContractionError, (EvaluationError.contraction cause).message = cause.message := by
  refine ⟨⟨fun h => ?_, ?_⟩, fun _ => rfl, fun _ => rfl⟩
  · cases a with
    | reading cause =>
      cases b with
      | reading cause' => exact .inl (congrArg reading (ReadError.message_inj h))
      | contraction cause' => exact absurd h (reading_message_ne cause cause')
    | contraction cause =>
      cases b with
      | reading cause' => exact absurd h.symm (reading_message_ne cause' cause)
      | contraction cause' =>
        rcases ContractionError.eq_or_of_message_eq h with rfl | ⟨p, q, rfl, rfl⟩
        · exact .inl rfl
        · exact .inr ⟨p, q, rfl, rfl⟩
  · rintro (rfl | ⟨p, q, rfl, rfl⟩)
    · rfl
    · rfl

/-- A word that looks like the end of a message is still quoted as it stands. -/
example : (ReadError.unexpectedToken "x' at position 3.".toList 0).message ≠
    (ReadError.unexpectedToken "x".toList 3).message := by
  decide

end OperatorChain
