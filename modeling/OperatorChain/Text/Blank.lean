/-!
# Blank characters

The characters that stand between words and that trimming removes: those with the Unicode
property White_Space.

* `isBlank` — membership, read off the table `blankRanges`.
* `trim` — a text without the blanks at its two ends.
* `words` — the maximal runs of characters that are not blank, from left to right.
-/

namespace OperatorChain

/-- The code points with the property White_Space, as inclusive ranges in increasing order. -/
def blankRanges : List (Nat × Nat) :=
  [(0x0009, 0x000D), (0x0020, 0x0020), (0x0085, 0x0085), (0x00A0, 0x00A0), (0x1680, 0x1680),
   (0x2000, 0x200A), (0x2028, 0x2029), (0x202F, 0x202F), (0x205F, 0x205F), (0x3000, 0x3000)]

/-- Does the character have the property White_Space? -/
def isBlank (c : Char) : Bool :=
  blankRanges.any fun range => range.1 ≤ c.toNat && c.toNat ≤ range.2

/-- The text without the blanks that it ends with. -/
def trimEnd (text : List Char) : List Char :=
  (text.reverse.dropWhile isBlank).reverse

/-- The text without the blanks at its two ends. -/
def trim (text : List Char) : List Char :=
  trimEnd (text.dropWhile isBlank)

/-- The words of a text: its maximal runs of characters that are not blank.  Cutting at every
blank leaves an empty piece wherever two blanks meet or one stands at an end, and those pieces
are no words. -/
def words (text : List Char) : List (List Char) :=
  (text.splitOnP isBlank).filter fun piece => !piece.isEmpty

/-! ## Small facts -/

/-- The table holds 25 code points. -/
example : (blankRanges.map fun range => range.2 + 1 - range.1).sum = 25 := by decide

@[simp] theorem words_nil : words [] = [] := rfl

/-- A blank cuts a text into two parts whose words do not touch. -/
theorem words_append_cons {b : Char} (h : isBlank b = true) (left right : List Char) :
    words (left ++ b :: right) = words left ++ words right := by
  simp [words, List.splitOnP_append_cons left right h]

end OperatorChain
