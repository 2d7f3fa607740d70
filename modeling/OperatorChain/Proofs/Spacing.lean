import OperatorChain.Text.Blank

/-!
# Words and the blanks around them

The words of a text are said once as the pieces that are left when it is cut at its blanks.  Seen
from the other side, a text is a sequence of words with blanks before, between and behind them, and
each text is such a sequence in one way only.

* `IsWord`, `Spaced` — a word, and a text that consists of given words.
* `words_eq_iff` — the words of a text are those that it consists of.
-/

namespace OperatorChain

/-- One or more characters, none of them blank. -/
structure IsWord (word : List Char) : Prop where
  ne_nil : word ≠ []
  no_blank : ∀ c ∈ word, isBlank c = false

/-- Any number of blanks, and nothing else. -/
def IsGap (gap : List Char) : Prop :=
  ∀ c ∈ gap, isBlank c = true

/-- The text consists of the given pieces, in this order, with gaps before, between and behind them.
A gap may be empty, but not between two pieces: what follows a piece ends the text or begins with a
blank. -/
inductive Spaced : List (List Char) → List Char → Prop
  | gap {gap : List Char} : IsGap gap → Spaced [] gap
  | piece {gap piece rest : List Char} {pieces : List (List Char)} : IsGap gap →
      Spaced pieces rest → (∀ c ∈ rest.head?, isBlank c = true) →
      Spaced (piece :: pieces) (gap ++ piece ++ rest)

theorem IsGap.nil : IsGap [] := fun _ h => absurd h List.not_mem_nil

theorem IsGap.cons {b : Char} {gap : List Char} (hb : isBlank b = true) (h : IsGap gap) :
    IsGap (b :: gap) :=
  List.forall_mem_cons.2 ⟨hb, h⟩

theorem IsWord.singleton {c : Char} (h : isBlank c = false) : IsWord [c] :=
  ⟨List.cons_ne_nil c [], List.forall_mem_singleton.2 h⟩

theorem IsWord.cons {c : Char} {word : List Char} (hc : isBlank c = false) (h : IsWord word) :
    IsWord (c :: word) :=
  ⟨List.cons_ne_nil c word, List.forall_mem_cons.2 ⟨hc, h.no_blank⟩⟩

/-! ## Every text consists of words -/

/-- One more blank in front belongs to the gap there. -/
theorem Spaced.cons_blank {ws : List (List Char)} {text : List Char} {b : Char}
    (h : Spaced ws text) (hb : isBlank b = true) : Spaced ws (b :: text) := by
  cases h with
  | gap hgap => exact .gap (hgap.cons hb)
  | piece hgap hrest hhead => exact .piece (hgap.cons hb) hrest hhead

theorem exists_spaced (text : List Char) : ∃ ws, Spaced ws text ∧ ∀ word ∈ ws, IsWord word := by
  induction text with
  | nil => exact ⟨[], .gap .nil, by simp⟩
  | cons c text ih =>
    obtain ⟨ws, h, hwords⟩ := ih
    cases hc : isBlank c with
    | true => exact ⟨ws, h.cons_blank hc, hwords⟩
    | false =>
      by_cases hhead : ∀ d ∈ text.head?, isBlank d = true
      · exact ⟨[c] :: ws, .piece .nil h hhead, List.forall_mem_cons.2 ⟨.singleton hc, hwords⟩⟩
      · -- the character joins the word that the rest begins with
        cases h with
        | gap hgap => exact absurd (fun d hd => hgap d (List.mem_of_mem_head? hd)) hhead
        | @piece gap word rest ws hgap hrest hbehind =>
          obtain ⟨hword, hwords⟩ := List.forall_mem_cons.1 hwords
          cases gap with
          | nil =>
            exact ⟨(c :: word) :: ws, .piece .nil hrest hbehind,
              List.forall_mem_cons.2 ⟨hword.cons hc, hwords⟩⟩
          | cons b gap =>
            refine absurd ?_ hhead
            intro d hd
            cases hd
            exact hgap b (List.mem_cons_self ..)

/-! ## They are the words of the text -/

/-- A text without blanks is one word. -/
theorem IsWord.words_eq {word : List Char} (h : IsWord word) : words word = [word] := by
  rw [words, List.splitOnP_eq_singleton h.no_blank]
  simp [h.ne_nil]

theorem words_cons_blank {b : Char} (h : isBlank b = true) (text : List Char) :
    words (b :: text) = words text :=
  words_append_cons h [] text

/-- A gap in front of a text has no words. -/
theorem words_gap_append {gap : List Char} (h : IsGap gap) (text : List Char) :
    words (gap ++ text) = words text := by
  induction gap with
  | nil => rfl
  | cons b gap ih =>
    obtain ⟨hb, hgap⟩ := List.forall_mem_cons.1 h
    rw [List.cons_append, words_cons_blank hb, ih hgap]

theorem Spaced.words_eq {ws : List (List Char)} {text : List Char} (h : Spaced ws text)
    (hwords : ∀ word ∈ ws, IsWord word) : words text = ws := by
  induction h with
  | @gap gap hgap => rw [← List.append_nil gap, words_gap_append hgap, words_nil]
  | @piece gap word rest ws hgap hrest hhead ih =>
    obtain ⟨hword, hwords⟩ := List.forall_mem_cons.1 hwords
    rw [List.append_assoc, words_gap_append hgap, ← ih hwords]
    cases rest with
    | nil => rw [List.append_nil, hword.words_eq, words_nil]
    | cons b rest =>
      have hb := hhead b rfl
      rw [words_append_cons hb, hword.words_eq, words_cons_blank hb]
      rfl

/-- **The words of a text** are the words that it consists of, and no others. -/
theorem words_eq_iff {ws : List (List Char)} {text : List Char} :
    words text = ws ↔ Spaced ws text ∧ ∀ word ∈ ws, IsWord word := by
  constructor
  · rintro rfl
    obtain ⟨ws, h, hwords⟩ := exists_spaced text
    rw [h.words_eq hwords]
    exact ⟨h, hwords⟩
  · rintro ⟨h, hwords⟩
    exact h.words_eq hwords

end OperatorChain
