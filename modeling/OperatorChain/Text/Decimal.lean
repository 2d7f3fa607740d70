/-!
# Decimal numerals

How integers are written and which texts are read as integers.

* `decimal` — the one canonical numeral of an integer: no leading zero, no `+`, a `-` only before
  a negative value.
* `readInteger?` — the value of any numeral: at most one sign, then one or more ASCII digits, with
  any number of leading zeros.
* `readInteger?_decimal` — reading undoes writing.
-/

namespace OperatorChain

/-! ## Writing -/

/-- The digits of a natural number, without leading zeros. -/
def naturalDecimal (n : Nat) : List Char :=
  Nat.toDigits 10 n

/-- The canonical numeral of an integer. -/
def decimal : Int → List Char
  | .ofNat n => naturalDecimal n
  | .negSucc n => '-' :: naturalDecimal (n + 1)

/-! ## Reading -/

/-- The value of a run of ASCII digits; `none` for the empty text and for any other character. -/
def readNatural? (text : List Char) : Option Nat :=
  if !text.isEmpty && text.all Char.isDigit then some (Nat.ofDigitChars 10 text 0) else none

/-- The value of a run of ASCII digits after at most one sign. -/
def readInteger? : List Char → Option Int
  | '+' :: digits => (readNatural? digits).map Int.ofNat
  | '-' :: digits => (readNatural? digits).map fun n => -Int.ofNat n
  | digits => (readNatural? digits).map Int.ofNat

/-! ## Reading undoes writing -/

theorem naturalDecimal_ne_nil (n : Nat) : naturalDecimal n ≠ [] :=
  Nat.toDigits_ne_nil

theorem isDigit_of_mem_naturalDecimal {n : Nat} {c : Char} (h : c ∈ naturalDecimal n) :
    c.isDigit = true :=
  Nat.isDigit_of_mem_toDigits (by decide) (by decide) h

theorem readNatural?_naturalDecimal (n : Nat) : readNatural? (naturalDecimal n) = some n := by
  have hdigits : (naturalDecimal n).all Char.isDigit = true :=
    List.all_eq_true.2 fun _ h => isDigit_of_mem_naturalDecimal h
  have hne : (naturalDecimal n).isEmpty = false := by
    simpa using naturalDecimal_ne_nil n
  rw [readNatural?, hdigits, hne]
  exact congrArg some Nat.ofDigitChars_ten_toDigits

/-- **Reading undoes writing.** -/
theorem readInteger?_decimal (value : Int) : readInteger? (decimal value) = some value := by
  cases value with
  | negSucc n =>
    simp only [decimal, readInteger?, readNatural?_naturalDecimal, Option.map_some]
    rfl
  | ofNat n =>
    simp only [decimal]
    unfold readInteger?
    split
    · next digits h =>
      have := isDigit_of_mem_naturalDecimal (n := n) (c := '+') (by simp [h])
      simp at this
    · next digits h =>
      have := isDigit_of_mem_naturalDecimal (n := n) (c := '-') (by simp [h])
      simp at this
    · simp [readNatural?_naturalDecimal]

end OperatorChain
