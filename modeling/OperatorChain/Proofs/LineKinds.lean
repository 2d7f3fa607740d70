import OperatorChain.Proofs.Decoding
import OperatorChain.Proofs.FrontEnds
import OperatorChain.Proofs.ReportLines

/-!
# What a line can be

Of each line a session asks whether it asks to leave, whether it is blank and whether it is an
expression, once ill-formed bytes have given way to the replacement character.  The answers do not
get in each other's way, since they are about different characters: an expression consists of
blanks, digits and the symbols of operators, the words that end a session consist of letters, and
the replacement character is none of these.

* `isExpressionChar` — the characters of expressions; `Graph.isExpressionChar_of_ofText`: no others.
* `isExpressionChar_of_isExit` — what asks to leave has none of them.
* `Graph.ofText_of_isExit` — so it is no expression.
* `mem_trim_of_mem`, `isExit_eq_false_of_mem`, `Graph.exists_error_of_mem` — what one character says
  of a text.
* `Session.Reads`, `Session.run_append` — the next line of a session, and what comes before it.
* `Session.run_line_kinds` — what becomes of expressions and of ill-formed lines.
-/

namespace OperatorChain

/-! ## The characters of expressions -/

/-- Can the character stand in an expression? -/
def isExpressionChar (c : Char) : Bool :=
  isBlank c || c.isDigit || (Operator.ofWord? [c]).isSome

theorem isExpressionChar_of_isDigit {c : Char} (h : c.isDigit = true) :
    isExpressionChar c = true := by
  simp [isExpressionChar, h]

theorem Operator.isExpressionChar_symbol (op : Operator) : isExpressionChar op.symbol = true := by
  cases op <;> rfl

theorem isBlank_eq_false_of_isExpressionChar {c : Char} (h : isExpressionChar c = false) :
    isBlank c = false := by
  simp only [isExpressionChar, Bool.or_eq_false_iff] at h
  exact h.1.1

/-- What is not blank stands in some word. -/
theorem exists_mem_words {text : List Char} {c : Char} (hc : c ∈ text)
    (hblank : isBlank c = false) : ∃ word ∈ words text, c ∈ word := by
  have hspaced := (words_eq_iff.1 (Eq.refl (words text))).1
  generalize words text = ws at hspaced ⊢
  induction hspaced with
  | gap hgap => exact absurd (hgap c hc) (by simp [hblank])
  | @piece gap piece rest pieces hgap _ _ ih =>
    simp only [List.mem_append] at hc
    rcases hc with (hc | hc) | hc
    · exact absurd (hgap c hc) (by simp [hblank])
    · exact ⟨piece, List.mem_cons_self, hc⟩
    · obtain ⟨word, hword, hmem⟩ := ih hc
      exact ⟨word, List.mem_cons_of_mem _ hword, hmem⟩

theorem Numeral.isExpressionChar {word : List Char} {value : Int} (h : Numeral word value) :
    ∀ c ∈ word, isExpressionChar c = true := by
  have hdigits : ∀ {ds : List Char} {n : Nat}, Digits ds n →
      ∀ c ∈ ds, OperatorChain.isExpressionChar c = true :=
    fun hds c hc => isExpressionChar_of_isDigit (hds.isDigit c hc)
  cases h with
  | bare hds => exact hdigits hds
  | plus hds => exact List.forall_mem_cons.2 ⟨rfl, hdigits hds⟩
  | minus hds => exact List.forall_mem_cons.2 ⟨rfl, hdigits hds⟩

/-- **An expression consists of blanks, digits and the symbols of operators.** -/
theorem Graph.isExpressionChar_of_ofText {text : List Char} {g : Graph}
    (h : Graph.ofText text = .ok g) : ∀ c ∈ text, isExpressionChar c = true := by
  intro c hc
  cases hblank : isBlank c with
  | true => simp [isExpressionChar, hblank]
  | false =>
    obtain ⟨word, hword, hmem⟩ := exists_mem_words hc hblank
    obtain ⟨i, hi⟩ := List.mem_iff_getElem?.1 hword
    have hallows := (Graph.exists_ofWords_iff.1 ⟨g, h⟩).fit i word hi
    generalize Expected.at i = expected at hallows
    cases expected with
    | number =>
      obtain ⟨value, hvalue, -⟩ := hallows
      exact hvalue.isExpressionChar c hmem
    | operator =>
      obtain ⟨op, rfl⟩ := hallows
      obtain rfl := List.mem_singleton.1 hmem
      exact op.isExpressionChar_symbol

/-- An expression is not blank. -/
theorem Graph.trim_ne_nil_of_ofText {text : List Char} {g : Graph} (h : Graph.ofText text = .ok g) :
    trim text ≠ [] := by
  intro hblank
  rw [Graph.ofText, ← words_trim, hblank] at h
  cases h

/-! ## The words that end a session -/

/-- No capital letter stands in an expression. -/
theorem isExpressionChar_capital : ∀ n < 26, isExpressionChar (Char.ofNat (65 + n)) = false := by
  decide

/-- So the characters of expressions are their own lower case. -/
theorem toLower_of_isExpressionChar {c : Char} (h : isExpressionChar c = true) : c.toLower = c := by
  refine dif_neg ?_
  rintro ⟨hlow, hhigh⟩
  have hlow : 65 ≤ c.toNat := UInt32.le_iff_toNat_le.1 hlow
  have hhigh : c.toNat ≤ 90 := UInt32.le_iff_toNat_le.1 hhigh
  have hcapital := isExpressionChar_capital (c.toNat - 65) (by omega)
  rw [Nat.add_sub_cancel' hlow, Char.ofNat_toNat, h] at hcapital
  cases hcapital

theorem isExpressionChar_of_mem_exitWords {word : List Char} (h : word ∈ Command.exitWords) :
    ∀ c ∈ word, isExpressionChar c = false := by
  have hnone :
      Command.exitWords.all (fun word => word.all fun c => !isExpressionChar c) = true := by
    decide
  simpa using List.all_eq_true.1 hnone word h

/-- **What asks to leave has no character of an expression**, apart from the blanks around it. -/
theorem isExpressionChar_of_isExit {text : List Char} (h : Command.isExit text = true) :
    ∀ c ∈ trim text, isExpressionChar c = false := by
  have hword : (trim text).map Char.toLower ∈ Command.exitWords := List.contains_iff_mem.1 h
  intro c hc
  have hlower := isExpressionChar_of_mem_exitWords hword _ (List.mem_map_of_mem hc)
  cases hchar : isExpressionChar c with
  | false => rfl
  | true => rw [toLower_of_isExpressionChar hchar, hchar] at hlower; exact hlower

/-- What asks to leave is one word. -/
theorem isWord_trim_of_isExit {text : List Char} (h : Command.isExit text = true) :
    IsWord (trim text) := by
  refine ⟨fun hblank => ?_, fun c hc =>
    isBlank_eq_false_of_isExpressionChar (isExpressionChar_of_isExit h c hc)⟩
  rw [Command.isExit, hblank] at h
  exact absurd h (by decide)

theorem words_of_isExit {text : List Char} (h : Command.isExit text = true) :
    words text = [trim text] := by
  rw [← words_trim, (isWord_trim_of_isExit h).words_eq]

/-- **What asks to leave is no expression**, and its word is what is wrong with it. -/
theorem Graph.ofText_of_isExit {text : List Char} (h : Command.isExit text = true) :
    Graph.ofText text = .error (.unexpectedToken (trim text) 0) := by
  obtain ⟨c, hc⟩ := List.exists_mem_of_ne_nil _ (isWord_trim_of_isExit h).ne_nil
  have hchar := isExpressionChar_of_isExit h c hc
  rw [Graph.ofText, words_of_isExit h]
  refine ofWords_of_firstOffence
    (.word allFit_nil (.unknown (fun value hvalue => ?_) fun op hop => ?_))
  · have hnumeral := hvalue.isExpressionChar c hc
    rw [hchar] at hnumeral
    cases hnumeral
  · rw [hop, List.mem_singleton] at hc
    rw [hc, op.isExpressionChar_symbol] at hchar
    cases hchar

/-! ## Characters that decide what a text is not -/

section Characters

variable {text : List Char} {c : Char}

theorem mem_dropWhile_of_eq_false {p : Char → Bool} (hc : c ∈ text) (hp : p c = false) :
    c ∈ text.dropWhile p := by
  rw [← List.takeWhile_append_dropWhile (p := p) (l := text), List.mem_append] at hc
  refine hc.resolve_left fun hmem => ?_
  rw [List.mem_takeWhile_imp hmem] at hp
  cases hp

/-- Trimming leaves what is not blank. -/
theorem mem_trim_of_mem (hc : c ∈ text) (hblank : isBlank c = false) : c ∈ trim text := by
  rw [trim, trimEnd, List.mem_reverse]
  exact mem_dropWhile_of_eq_false (List.mem_reverse.2 (mem_dropWhile_of_eq_false hc hblank)) hblank

/-- A character that no word for leaving has keeps a text from asking to leave. -/
theorem isExit_eq_false_of_mem (hc : c ∈ text) (hblank : isBlank c = false)
    (hword : ∀ word ∈ Command.exitWords, c.toLower ∉ word) : Command.isExit text = false := by
  rw [Bool.eq_false_iff]
  intro hexit
  have hlower : c.toLower ∈ (trim text).map Char.toLower :=
    List.mem_map_of_mem (mem_trim_of_mem hc hblank)
  exact hword _ (List.contains_iff_mem.1 hexit) hlower

/-- A character that no expression has keeps a text from being one. -/
theorem Graph.exists_error_of_mem (hc : c ∈ text) (hchar : isExpressionChar c = false) :
    ∃ cause, Graph.ofText text = .error cause := by
  cases hof : Graph.ofText text with
  | error cause => exact ⟨cause, rfl⟩
  | ok g =>
    rw [Graph.isExpressionChar_of_ofText hof c hc] at hchar
    cases hchar

end Characters

/-! ## The next line of a session -/

namespace Session

/-- A session reads the line where `rest` is the input behind it: the line goes up to its end, or it
is all that is left where the input ends without a fault. -/
inductive Reads : Option StreamFault → List UInt8 → List UInt8 → Prop
  | ended {fault? : Option StreamFault} {body rest : List UInt8} : lineEnd ∉ body →
      Reads fault? (body ++ [lineEnd]) rest
  | last {line : List UInt8} : lineEnd ∉ line → line ≠ [] → Reads none line []

variable {settings : Settings} {fault? : Option StreamFault}

theorem converse_of_reads {line rest : List UInt8} (h : Reads fault? line rest) :
    converse settings fault? #[] (line ++ rest) =
      answer settings line () (do Writing.write prompt; converse settings fault? #[] rest) := by
  cases h with
  | ended hbody =>
    rw [List.append_assoc]
    exact converse_line settings fault? hbody rest
  | last hline hne =>
    have hnothing : converse settings none #[] [] = pure () := rfl
    rw [converse_append settings none #[] hline, hnothing, converse, finish]
    simp [hne]

theorem answer_bind_of_stays {line : List UInt8}
    (hstays : Command.isExit (Utf8.decodeLossy line) = false) (goOn next : Writing Unit) :
    (do answer settings line () goOn; next) = answer settings line () (do goOn; next) := by
  unfold answer Command.ofLine Command.ofText
  rw [hstays]
  dsimp only
  cases (trim (Utf8.decodeLossy line)).isEmpty with
  | true => rfl
  | false => simp

/-- What is neither blank nor asks to leave is reported. -/
theorem answer_eq_report {line : List UInt8}
    (hstays : Command.isExit (Utf8.decodeLossy line) = false)
    (hfull : trim (Utf8.decodeLossy line) ≠ []) (goOn : Writing Unit) :
    answer settings line () goOn = (do
      let _ ← report settings (Utf8.decodeLossy line)
      goOn) := by
  rw [answer, Command.ofLine, Command.ofText, hstays, ← report_trim]
  simp [hfull]

/-- As long as no line asks to leave, a dialogue can be broken off and taken up again behind any
line. -/
theorem converse_append_of_stays {earlier unfinished : List UInt8} {finished : List (List UInt8)}
    (h : IsCut lineEnd earlier finished unfinished) (hended : unfinished = [])
    (hstays : ∀ piece ∈ finished, Command.isExit (Utf8.decodeLossy piece) = false)
    (more : List UInt8) :
    converse settings fault? #[] (earlier ++ more) = (do
      converse settings none #[] earlier
      converse settings fault? #[] more) := by
  induction h with
  | rest _ =>
    subst hended
    rfl
  | @piece body rest unfinished finished hbody _ ih =>
    obtain ⟨hpiece, hrest⟩ := List.forall_mem_cons.1 hstays
    rw [List.append_assoc, List.cons_append, converse_line settings fault? hbody, ih hended hrest,
      converse_line settings none hbody, answer_bind_of_stays hpiece, bind_assoc]

/-- **What comes before a line** is a session of its own, up to the prompt for the line. -/
theorem run_append {earlier : List UInt8} {finished : List (List UInt8)}
    (h : IsCut lineEnd earlier finished [])
    (hstays : ∀ piece ∈ finished, Command.isExit (Utf8.decodeLossy piece) = false)
    (more : List UInt8) :
    run settings (earlier ++ more) fault? = (do
      run settings earlier none
      converse settings fault? #[] more) := by
  rw [run, run, converse_append_of_stays h rfl hstays]
  simp

end Session

/-- The report of what is no expression. -/
theorem report_of_ofText_error {text : List Char} {cause : ReadError}
    (h : Graph.ofText text = .error cause) (settings : Settings) :
    report settings text = (do
      Writing.writeLine (failureLine cause.message)
      pure false) := by
  rw [report, Calculation.ofText, h]
  rfl

namespace Session

/-- **No line that can be calculated is swallowed, and no ill-formed one is calculated.**  Take a
line that a session reads behind lines none of which asks to leave.  If it is read as an expression,
then its bytes are well formed, it is not blank, and it does not ask to leave: it is reported, and
then the prompt stands again.  If its bytes are ill formed, then it is not blank, it does not ask to
leave, and it is no expression: it is answered by the one line that says why, and then the prompt
stands again.  And whatever asks to leave is no expression, for the word that it is. -/
theorem run_line_kinds (settings : Settings) {fault? : Option StreamFault}
    {earlier line rest : List UInt8} {finished : List (List UInt8)}
    (h : IsCut lineEnd earlier finished [])
    (hstays : ∀ piece ∈ finished, Command.isExit (Utf8.decodeLossy piece) = false)
    (hline : Reads fault? line rest) :
    let text := Utf8.decodeLossy line
    ((∃ g, Graph.ofText text = .ok g) →
      Utf8.decode? line = some text ∧ trim text ≠ [] ∧ Command.isExit text = false ∧
        run settings (earlier ++ line ++ rest) fault? = (do
          run settings earlier none
          let _ ← report settings text
          Writing.write prompt
          converse settings fault? #[] rest)) ∧
    (Utf8.decode? line = none →
      trim text ≠ [] ∧ Command.isExit text = false ∧
        ∃ cause : ReadError, Graph.ofText text = .error cause ∧ '\n' ∉ cause.message ∧
          run settings (earlier ++ line ++ rest) fault? = (do
            run settings earlier none
            Writing.writeLine ("error: ".toList ++ cause.message)
            Writing.write prompt
            converse settings fault? #[] rest)) ∧
    ∀ (strategy : Strategy) (command : List Char), Command.isExit command = true →
      evaluateText strategy command = .error (.reading (.unexpectedToken (trim command) 0)) := by
  intro text
  have hreported : Command.isExit text = false → trim text ≠ [] →
      run settings (earlier ++ line ++ rest) fault? = (do
        run settings earlier none
        let _ ← report settings text
        Writing.write prompt
        converse settings fault? #[] rest) := by
    intro hexit hfull
    rw [List.append_assoc, run_append h hstays, converse_of_reads hline,
      answer_eq_report hexit hfull]
  refine ⟨?_, ?_, ?_⟩
  · rintro ⟨g, hg⟩
    have hwell : Utf8.decode? line = some text := by
      refine (Utf8.decode?_eq_or line).resolve_right fun hill => ?_
      obtain ⟨cause, hcause⟩ := Graph.exists_error_of_mem hill.2 (by decide)
      cases hcause.symm.trans hg
    have hfull := Graph.trim_ne_nil_of_ofText hg
    have hexit : Command.isExit text = false := by
      rw [Bool.eq_false_iff]
      intro hexit
      cases (Graph.ofText_of_isExit hexit).symm.trans hg
    exact ⟨hwell, hfull, hexit, hreported hexit hfull⟩
  · intro hill
    have hmem : Utf8.replacement ∈ text := by
      rcases Utf8.decode?_eq_or line with hwell | ⟨-, hmem⟩
      · cases hill.symm.trans hwell
      · exact hmem
    have hfull : trim text ≠ [] := List.ne_nil_of_mem (mem_trim_of_mem hmem (by decide))
    have hexit : Command.isExit text = false := isExit_eq_false_of_mem hmem (by decide) (by decide)
    obtain ⟨cause, hcause⟩ := Graph.exists_error_of_mem hmem (by decide)
    refine ⟨hfull, hexit, cause, hcause, Graph.oneLine_of_ofText hcause, ?_⟩
    rw [hreported hexit hfull, report_of_ofText_error hcause]
    simp only [bind_assoc, pure_bind]
    rfl
  · intro strategy command hexit
    rw [evaluateText, Calculation.ofText, Graph.ofText_of_isExit hexit]
    rfl

/-- A product and a byte that stands for nothing, each behind a sum. -/
theorem run_line_kinds_product :
    let settings : Settings := ⟨.scan, false, true⟩
    let earlier := Utf8.encode "1 + 1".toList ++ [lineEnd]
    let product := Utf8.encode "2 * 3".toList ++ [lineEnd]
    let broken := [0x31, 0xFF] ++ [lineEnd]
    let rest := Utf8.encode "quit".toList
    IsCut lineEnd earlier [earlier] [] ∧
      (∀ piece ∈ [earlier], Command.isExit (Utf8.decodeLossy piece) = false) ∧
      Reads none product rest ∧ Reads none broken rest ∧
      (∃ g, Graph.ofText (Utf8.decodeLossy product) = .ok g) ∧
      run settings (earlier ++ product ++ rest) none = (do
        run settings earlier none
        let _ ← report settings (Utf8.decodeLossy product)
        Writing.write prompt
        converse settings none #[] rest) ∧
      Utf8.decode? broken = none ∧
      (∃ cause : ReadError, Graph.ofText (Utf8.decodeLossy broken) = .error cause ∧
        run settings (earlier ++ broken ++ rest) none = (do
          run settings earlier none
          Writing.writeLine ("error: ".toList ++ cause.message)
          Writing.write prompt
          converse settings none #[] rest)) ∧
      Command.isExit " QUIT\t".toList = true ∧
      evaluateText .queue " QUIT\t".toList =
        .error (.reading (.unexpectedToken "QUIT".toList 0)) := by
  intro settings earlier product broken rest
  have hcut : IsCut lineEnd earlier [earlier] [] := .piece (by decide) (.rest List.not_mem_nil)
  have hstays : ∀ piece ∈ [earlier], Command.isExit (Utf8.decodeLossy piece) = false := by decide
  have hproduct : Reads none product rest := .ended (by decide)
  have hbroken : Reads none broken rest := .ended (by decide)
  have hg : ∃ g, Graph.ofText (Utf8.decodeLossy product) = .ok g := ⟨_, rfl⟩
  have hill : Utf8.decode? broken = none := by decide
  obtain ⟨hreported, -, hexit⟩ := run_line_kinds settings hcut hstays hproduct
  obtain ⟨-, hrefused, -⟩ := run_line_kinds settings hcut hstays hbroken
  obtain ⟨-, -, cause, hcause, -, hanswered⟩ := hrefused hill
  exact ⟨hcut, hstays, hproduct, hbroken, hg, (hreported hg).2.2.2, hill,
    ⟨cause, hcause, hanswered⟩, by decide, hexit .queue _ (by decide)⟩

end Session

end OperatorChain
