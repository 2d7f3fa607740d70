import Mathlib.Data.List.Induction
import OperatorChain.Proofs.Spacing
import OperatorChain.Proofs.Utf8

/-!
# Cutting behind line ends

Bytes that are read line by line and characters that are split into lines are cut at the same
places, and what the two ways leave of a line end makes no difference once the blanks around a line
are gone.

* `IsCut` — a list in pieces, each of which ends with the only separator in it, and the rest.
* `exists_isCut` — every list can be cut.
* `IsCut.lines_eq` — the lines of a text, read off its cut.
* `IsCut.encode` — the cut of a text is the cut of its bytes.
* `words_trim` — blanks around a text add no words to it.
-/

namespace OperatorChain

/-! ## Cuts -/

/-- The list is cut behind each separator: the finished pieces end with one, and the unfinished one
is what stands behind the last of them. -/
inductive IsCut {α : Type} (separator : α) : List α → List (List α) → List α → Prop
  | rest {rest : List α} : separator ∉ rest → IsCut separator rest [] rest
  | piece {body rest unfinished : List α} {finished : List (List α)} : separator ∉ body →
      IsCut separator rest finished unfinished →
      IsCut separator (body ++ separator :: rest) ((body ++ [separator]) :: finished) unfinished

/-- Every list can be cut. -/
theorem exists_isCut {α : Type} (separator : α) (whole : List α) :
    ∃ finished unfinished, IsCut separator whole finished unfinished := by
  induction whole with
  | nil => exact ⟨[], [], .rest List.not_mem_nil⟩
  | cons a whole ih =>
    obtain ⟨finished, unfinished, h⟩ := ih
    by_cases ha : separator = a
    · subst ha
      exact ⟨[separator] :: finished, unfinished, .piece List.not_mem_nil h⟩
    · -- the first piece grows by one element
      cases h with
      | rest hrest => exact ⟨[], a :: whole, .rest (List.not_mem_cons_of_ne_of_not_mem ha hrest)⟩
      | @piece body rest _ finished hbody hcut =>
        exact ⟨(a :: body ++ [separator]) :: finished, unfinished,
          .piece (List.not_mem_cons_of_ne_of_not_mem ha hbody) hcut⟩

section IsCut

variable {α : Type} {separator : α} {whole unfinished : List α} {finished : List (List α)}

theorem IsCut.exists_body (h : IsCut separator whole finished unfinished) :
    ∀ piece ∈ finished, ∃ body, piece = body ++ [separator] := by
  induction h with
  | rest => simp
  | @piece body rest unfinished finished hbody hcut ih =>
    exact List.forall_mem_cons.2 ⟨⟨body, rfl⟩, ih⟩

theorem IsCut.not_mem_unfinished (h : IsCut separator whole finished unfinished) :
    separator ∉ unfinished := by
  induction h with
  | rest hrest => exact hrest
  | piece _ _ ih => exact ih

/-- A list without separators is not split. -/
theorem splitOn_of_not_mem [DecidableEq α] (h : separator ∉ whole) :
    whole.splitOn separator = [whole] := by
  rw [List.splitOn_eq_splitOnP, List.splitOnP_eq_singleton]
  intro a ha
  rw [beq_eq_false_iff_ne]
  rintro rfl
  exact h ha

/-- Splitting at the separators leaves the pieces without them. -/
theorem IsCut.splitOn_eq [DecidableEq α] (h : IsCut separator whole finished unfinished) :
    whole.splitOn separator = finished.map List.dropLast ++ [unfinished] := by
  induction h with
  | rest hrest => exact splitOn_of_not_mem hrest
  | @piece body rest unfinished finished hbody hcut ih =>
    have hbody' := splitOn_of_not_mem hbody
    rw [List.splitOn_eq_splitOnP] at ih hbody' ⊢
    rw [List.splitOnP_append_cons body rest (by simp), hbody', ih]
    simp

/-- There are as many finished pieces as separators. -/
theorem IsCut.count_eq [DecidableEq α] (h : IsCut separator whole finished unfinished) :
    whole.count separator = finished.length := by
  induction h with
  | rest hrest => exact List.count_eq_zero.2 hrest
  | piece hbody hcut ih =>
    rw [List.count_append, List.count_eq_zero.2 hbody, List.count_cons_self, ih, Nat.zero_add,
      List.length_cons]

end IsCut

/-! ## Lines of texts -/

/-- The pieces that are read as lines: all that are finished, and the unfinished one if there is
something in it. -/
def readLines {α : Type} (finished : List (List α)) (unfinished : List α) : List (List α) :=
  if unfinished.isEmpty then finished else finished ++ [unfinished]

theorem readLines_cons {α : Type} (piece : List α) (finished : List (List α))
    (unfinished : List α) :
    readLines (piece :: finished) unfinished = piece :: readLines finished unfinished := by
  unfold readLines
  split <;> rfl

/-- A line without the line end that it is read with. -/
def dropLineEnd (line : List Char) : List Char :=
  if line.getLast? = some '\n' then dropReturn line.dropLast else line

/-- **The lines of a text** are the pieces that it is cut into, without their line ends. -/
theorem IsCut.lines_eq {text unfinished : List Char} {finished : List (List Char)}
    (h : IsCut '\n' text finished unfinished) :
    lines text = (readLines finished unfinished).map dropLineEnd := by
  have hfinished : finished.map dropLineEnd = (finished.map List.dropLast).map dropReturn := by
    rw [List.map_map]
    refine List.map_congr_left fun line hline => ?_
    obtain ⟨body, rfl⟩ := h.exists_body line hline
    simp [dropLineEnd]
  have hunfinished : dropLineEnd unfinished = unfinished := by
    refine if_neg fun hlast => ?_
    exact h.not_mem_unfinished (List.mem_of_getLast? hlast)
  rw [lines, h.splitOn_eq]
  simp only [List.dropLast_concat, List.getLastD_concat]
  rw [← hfinished, readLines]
  split
  · rfl
  · rw [List.map_append, List.map_singleton, hunfinished]

/-- **Texts and bytes are cut at the same places.** -/
theorem IsCut.encode {text unfinished : List Char} {finished : List (List Char)}
    (h : IsCut '\n' text finished unfinished) :
    IsCut Session.lineEnd (Utf8.encode text) (finished.map Utf8.encode)
      (Utf8.encode unfinished) := by
  have hline : Utf8.encode ['\n'] = [Session.lineEnd] := rfl
  induction h with
  | rest hrest => exact .rest (mt Utf8.lineEnd_mem_encode_iff.1 hrest)
  | @piece body rest unfinished finished hbody hcut ih =>
    have hpiece := IsCut.piece (mt Utf8.lineEnd_mem_encode_iff.1 hbody) ih
    rw [← List.singleton_append, Utf8.encode_append, Utf8.encode_append, hline, List.map_cons,
      Utf8.encode_append, hline]
    exact hpiece

/-- Bytes that are read as lines are read as the lines of their text. -/
theorem map_decodeLossy_readLines (finished : List (List Char)) (unfinished : List Char) :
    (readLines (finished.map Utf8.encode) (Utf8.encode unfinished)).map Utf8.decodeLossy =
      readLines finished unfinished := by
  have hfinished : (finished.map Utf8.encode).map Utf8.decodeLossy = finished := by
    rw [List.map_map]
    exact List.map_id'' Utf8.decodeLossy_encode finished
  have hempty : (Utf8.encode unfinished).isEmpty = unfinished.isEmpty := by
    cases unfinished with
    | nil => rfl
    | cons c rest => simp [Utf8.encode_cons]
  unfold readLines
  rw [hempty]
  split
  · exact hfinished
  · rw [List.map_append, hfinished, List.map_singleton, Utf8.decodeLossy_encode]

/-! ## Blanks around a line -/

theorem trimEnd_append_blank {text : List Char} {b : Char} (hb : isBlank b = true) :
    trimEnd (text ++ [b]) = trimEnd text := by
  simp [trimEnd, hb]

theorem trim_append_blank (text : List Char) {b : Char} (hb : isBlank b = true) :
    trim (text ++ [b]) = trim text := by
  rw [trim, trim, List.dropWhile_append]
  split
  · next hempty => simp [List.isEmpty_iff.1 hempty, hb, trimEnd]
  · exact trimEnd_append_blank hb

theorem trim_dropReturn (line : List Char) : trim (dropReturn line) = trim line := by
  unfold dropReturn
  split
  · next hlast =>
    obtain ⟨body, rfl⟩ := List.getLast?_eq_some_iff.1 hlast
    rw [List.dropLast_concat, trim_append_blank body (by decide)]
  · rfl

/-- A line end is only one more blank. -/
theorem trim_dropLineEnd (line : List Char) : trim (dropLineEnd line) = trim line := by
  unfold dropLineEnd
  split
  · next hlast =>
    obtain ⟨body, rfl⟩ := List.getLast?_eq_some_iff.1 hlast
    rw [List.dropLast_concat, trim_dropReturn, trim_append_blank body (by decide)]
  · rfl

/-- A blank behind a text adds no words. -/
theorem words_append_blank (text : List Char) {b : Char} (hb : isBlank b = true) :
    words (text ++ [b]) = words text := by
  rw [words_append_cons hb, words_nil, List.append_nil]

theorem words_trimEnd (text : List Char) : words (trimEnd text) = words text := by
  induction text using List.reverseRecOn with
  | nil => rfl
  | append_singleton text c ih =>
    cases hc : isBlank c with
    | true => rw [trimEnd_append_blank hc, ih, words_append_blank text hc]
    | false => simp [trimEnd, hc]

/-- **The blanks around a text have no words.** -/
theorem words_trim (text : List Char) : words (trim text) = words text := by
  rw [trim, words_trimEnd]
  induction text with
  | nil => rfl
  | cons c text ih =>
    cases hc : isBlank c with
    | true => rw [List.dropWhile_cons_of_pos hc, ih, words_cons_blank hc]
    | false => rw [List.dropWhile_cons_of_neg (by simp [hc])]

end OperatorChain
