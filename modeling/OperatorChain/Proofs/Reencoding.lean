import OperatorChain.Proofs.Decoding
import OperatorChain.Proofs.Dialogue

/-!
# How the input of a session is encoded

A session cuts its input behind the line ends and decodes each line on its own.  It might as well
decode the whole first: no ill-formed part reaches beyond the end of its line.  And what is left of
a line end is blank, so neither a carriage return before it nor its absence behind the last line can
be seen.

* `IsCut.decodeLossy` — cutting and decoding may change places.
* `withReturns`, `IsCut.withReturns` — a carriage return before each line end.
* `Session.run_eq_of_texts` — a session depends on the trimmed texts of its lines only.
* `Session.run_reencoded` — three changes of the encoding that a session does not see.
-/

namespace OperatorChain

/-! ## Cuts of decoded bytes -/

section IsCut

variable {input unfinished : List UInt8} {finished : List (List UInt8)}

/-- **Bytes and the text that they are read as are cut at the same places**, well formed or not. -/
theorem IsCut.decodeLossy (h : IsCut Session.lineEnd input finished unfinished) :
    IsCut '\n' (Utf8.decodeLossy input) (finished.map Utf8.decodeLossy)
      (Utf8.decodeLossy unfinished) := by
  have hnewline : ∀ {bytes : List UInt8}, Session.lineEnd ∉ bytes → '\n' ∉ Utf8.decodeLossy bytes :=
    mt Utf8.lineEnd_mem_of_newline_mem
  induction h with
  | rest hrest => exact .rest (hnewline hrest)
  | piece hbody _ ih =>
    rw [Utf8.decodeLossy_append_lineEnd, List.map_cons, Utf8.decodeLossy_append_lineEnd]
    exact .piece (hnewline hbody) ih

/-! ## Carriage returns -/

/-- The bytes with a carriage return before each line end. -/
def withReturns (bytes : List UInt8) : List UInt8 :=
  bytes.flatMap fun byte => if byte = Session.lineEnd then [0x0D, Session.lineEnd] else [byte]

theorem withReturns_of_not_mem {bytes : List UInt8} (h : Session.lineEnd ∉ bytes) :
    withReturns bytes = bytes := by
  induction bytes with
  | nil => rfl
  | cons byte bytes ih =>
    obtain ⟨hbyte, hbytes⟩ : Session.lineEnd ≠ byte ∧ Session.lineEnd ∉ bytes := by simpa using h
    rw [withReturns, List.flatMap_cons, if_neg (Ne.symm hbyte)]
    exact congrArg (byte :: ·) (ih hbytes)

theorem withReturns_append_lineEnd {body : List UInt8} (h : Session.lineEnd ∉ body)
    (rest : List UInt8) :
    withReturns (body ++ Session.lineEnd :: rest) =
      (body ++ [0x0D]) ++ Session.lineEnd :: withReturns rest := by
  have happend : withReturns (body ++ Session.lineEnd :: rest) =
      withReturns body ++ 0x0D :: Session.lineEnd :: withReturns rest := by
    simp [withReturns]
  rw [happend, withReturns_of_not_mem h, List.append_assoc, List.singleton_append]

theorem IsCut.withReturns (h : IsCut Session.lineEnd input finished unfinished) :
    IsCut Session.lineEnd (withReturns input) (finished.map withReturns) unfinished := by
  induction h with
  | rest hrest =>
    rw [withReturns_of_not_mem hrest]
    exact .rest hrest
  | @piece body rest unfinished finished hbody _ ih =>
    have hbody' : Session.lineEnd ∉ body ++ [0x0D] := by simpa [Session.lineEnd] using hbody
    rw [withReturns_append_lineEnd hbody, List.map_cons, withReturns_append_lineEnd hbody]
    exact .piece hbody' ih

/-- What is read of a line with a carriage return before its end differs in a blank only. -/
theorem trim_decodeLossy_withReturns (h : IsCut Session.lineEnd input finished unfinished) :
    ∀ line ∈ finished,
      trim (Utf8.decodeLossy (OperatorChain.withReturns line)) = trim (Utf8.decodeLossy line) := by
  induction h with
  | rest => simp
  | @piece body rest unfinished finished hbody _ ih =>
    refine List.forall_mem_cons.2 ⟨?_, ih⟩
    rw [withReturns_append_lineEnd hbody, Utf8.decodeLossy_append_lineEnd,
      Utf8.decodeLossy_append_cons body [] (by decide), Utf8.decodeLossy_append_lineEnd]
    exact (trim_append_blank _ (by decide)).trans <| (trim_append_blank _ (by decide)).trans
      (trim_append_blank _ (by decide)).symm

end IsCut

section Separator

variable {α : Type} {separator : α} {whole unfinished : List α} {finished : List (List α)}

/-- A separator behind the last piece finishes it. -/
theorem IsCut.append_separator (h : IsCut separator whole finished unfinished) :
    IsCut separator (whole ++ [separator]) (finished ++ [unfinished ++ [separator]]) [] := by
  induction h with
  | rest hrest => exact .piece hrest (.rest List.not_mem_nil)
  | piece hbody _ ih =>
    rw [List.append_assoc, List.cons_append, List.cons_append]
    exact .piece hbody ih

/-- Something is unfinished unless there is nothing at all or a separator stands at the end. -/
theorem IsCut.unfinished_ne_nil (h : IsCut separator whole finished unfinished) (hne : whole ≠ [])
    (hlast : whole.getLast? ≠ some separator) : unfinished ≠ [] := by
  induction h with
  | rest => exact hne
  | @piece body rest unfinished finished _ _ ih =>
    cases rest with
    | nil => exact absurd (by simp) hlast
    | cons a rest => exact ih (by simp) (by simpa [List.getLast?_cons] using hlast)

end Separator

/-! ## Sessions -/

namespace Session

/-- **A session depends on the trimmed texts of its lines only.** -/
theorem run_eq_of_texts (settings : Settings) {fault? : Option StreamFault}
    {input input' unfinished unfinished' : List UInt8} {finished finished' : List (List UInt8)}
    (h : IsCut lineEnd input finished unfinished) (h' : IsCut lineEnd input' finished' unfinished')
    (htexts : (texts fault? finished unfinished).map trim =
      (texts fault? finished' unfinished').map trim) :
    run settings input fault? = run settings input' fault? := by
  have hrun := yields_run settings fault? h
  have hrun' := yields_run settings fault? h'
  have hwritten := dialogue_congr settings htexts
  have hended := ending_congr fault? htexts
  rw [hwritten, hended] at hrun
  exact hrun.unique hrun'

theorem texts_eq (fault? : Option StreamFault) (finished : List (List UInt8))
    (unfinished : List UInt8) :
    texts fault? finished unfinished = finished.map Utf8.decodeLossy ++
      if fault?.isSome || unfinished.isEmpty then [] else [Utf8.decodeLossy unfinished] := by
  cases fault? with
  | some fault => simp [texts, readLines]
  | none => cases unfinished <;> simp [texts, readLines]

/-- What the lines of the input are read as can be read again. -/
theorem texts_map_encode (fault? : Option StreamFault) (finished : List (List UInt8))
    (unfinished : List UInt8) :
    texts fault? ((finished.map Utf8.decodeLossy).map Utf8.encode)
        (Utf8.encode (Utf8.decodeLossy unfinished)) =
      texts fault? finished unfinished := by
  have hempty : (Utf8.encode (Utf8.decodeLossy unfinished)).isEmpty = unfinished.isEmpty := by
    rw [Bool.eq_iff_iff, List.isEmpty_iff, List.isEmpty_iff, ← Utf8.decodeLossy_eq_nil_iff,
      Utf8.decodeLossy_encode, Utf8.decodeLossy_eq_nil_iff]
  have hfinished : ((finished.map Utf8.decodeLossy).map Utf8.encode).map Utf8.decodeLossy =
      finished.map Utf8.decodeLossy := by
    rw [List.map_map]
    exact List.map_id'' Utf8.decodeLossy_encode _
  rw [texts_eq, texts_eq, hempty, hfinished, Utf8.decodeLossy_encode]

/-- **Differences in the encoding of the input do not change a session.**  To any sink it writes the
same, and it ends in the same way, if each ill-formed part of the whole input gives way to the
replacement character beforehand, or if each line end has a carriage return before it; this holds
for an input that breaks off, too.  And if the input ends, it makes no difference whether a line end
stands behind the last line. -/
theorem run_reencoded (settings : Settings) (input : List UInt8) (fault? : Option StreamFault) :
    run settings (Utf8.encode (Utf8.decodeLossy input)) fault? = run settings input fault? ∧
      run settings (input.flatMap fun byte => if byte = lineEnd then [0x0D, lineEnd] else [byte])
          fault? = run settings input fault? ∧
      (input ≠ [] → input.getLast? ≠ some lineEnd →
        run settings (input ++ [lineEnd]) none = run settings input none) := by
  obtain ⟨finished, unfinished, hcut⟩ := exists_isCut lineEnd input
  refine ⟨?_, ?_, fun hne hlast => ?_⟩
  · refine run_eq_of_texts settings hcut.decodeLossy.encode hcut ?_
    rw [texts_map_encode]
  · refine run_eq_of_texts settings hcut.withReturns hcut ?_
    rw [texts_eq, texts_eq, List.map_append, List.map_append, List.map_map, List.map_map,
      List.map_map, List.map_congr_left]
    exact trim_decodeLossy_withReturns hcut
  · have hunfinished := hcut.unfinished_ne_nil hne hlast
    refine run_eq_of_texts settings hcut.append_separator hcut ?_
    have htrim : trim (Utf8.decodeLossy (unfinished ++ [lineEnd])) =
        trim (Utf8.decodeLossy unfinished) := by
      rw [Utf8.decodeLossy_append_lineEnd]
      exact trim_append_blank _ (by decide)
    simp [texts_eq, hunfinished, htrim]

/-- A product behind a sequence that is cut off by the line end, and no line end behind it. -/
theorem run_reencoded_cut_off :
    let input : List UInt8 := [0x31, 0xE2, 0x82, lineEnd] ++ Utf8.encode "2 * 3".toList
    let run := fun input => run ⟨.scan, false, true⟩ input none
    Utf8.decodeLossy input = "1\uFFFD\n2 * 3".toList ∧
      input ≠ [] ∧ input.getLast? ≠ some lineEnd ∧
      run (Utf8.encode "1\uFFFD\n2 * 3".toList) = run input ∧
      run ([0x31, 0xE2, 0x82, 0x0D, lineEnd] ++ Utf8.encode "2 * 3".toList) = run input ∧
      run (input ++ [lineEnd]) = run input := by
  intro input run
  have hdecode : Utf8.decodeLossy input = "1\uFFFD\n2 * 3".toList := by decide
  obtain ⟨hlossy, hreturns, hfinished⟩ := run_reencoded ⟨.scan, false, true⟩ input none
  rw [hdecode] at hlossy
  exact ⟨hdecode, by decide, by decide, hlossy, hreturns, hfinished (by decide) (by decide)⟩

end Session

end OperatorChain
