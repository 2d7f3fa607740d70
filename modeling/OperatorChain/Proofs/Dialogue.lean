import OperatorChain.Proofs.Lines
import OperatorChain.Proofs.Output

/-!
# Sessions line by line

A session reads byte by byte and keeps what it has read in one buffer.  Seen from outside, it cuts
its input behind the line ends and answers each line on its own: nothing that stands on one line has
any bearing on what is written for another, except that nothing is written for those behind a line
that asks to leave.

* `Session.reply`, `Session.exchange` — what is written for one line, without and with its prompt.
* `Session.texts` — the lines that a session reads.
* `Session.dialogue`, `Session.ending` — what is written for several lines, and how they end.
* `dialogue_congr` — blanks around the lines make no difference.
* `converse_cons_of_ne`, `converse_cons_lineEnd` — what one byte does.
* `converse_line` — reading up to a line end answers the line and starts afresh behind it.
* `yields_converse`, `yields_run` — a session is the writing of its dialogue.
* `run_eq_exchanges` — the whole of it.
* `limited_eq_cut` — the part of it that a sink with a limit gets.
-/

namespace OperatorChain

namespace Session

/-! ## What is written for a line -/

/-- What is written in answer to a line that does not ask to leave: nothing if it is blank, and else
the report of what is on it. -/
def reply (settings : Settings) (text : List Char) : List UInt8 :=
  if (trim text).isEmpty then [] else (report settings (trim text)).output

/-- The prompt for a line, and what is written in answer to it. -/
def exchange (settings : Settings) (text : List Char) : List UInt8 :=
  Utf8.encode prompt ++ reply settings text

/-- What is written for several lines: an exchange for each of those before the first one that asks
to leave, and one more prompt, at which that one is read or the input ends. -/
def dialogue (settings : Settings) (texts : List (List Char)) : List UInt8 :=
  (texts.takeWhile fun text => !Command.isExit text).flatMap (exchange settings) ++
    Utf8.encode prompt

/-- How a session over these lines ends: well if one of them asks to leave, and else as the input
does. -/
def ending (fault? : Option StreamFault) (texts : List (List Char)) : Except StreamFault Unit :=
  if texts.any Command.isExit then .ok ()
  else
    match fault? with
    | none => .ok ()
    | some fault => .error fault

/-- The texts of the lines that a session reads.  What is left behind the last line end counts as a
line if there is anything and the input does not break off. -/
def texts (fault? : Option StreamFault) (finished : List (List UInt8)) (unfinished : List UInt8) :
    List (List Char) :=
  (readLines finished (if fault?.isSome then [] else unfinished)).map Utf8.decodeLossy

/-- The bytes of the greeting. -/
def greeting (settings : Settings) : List UInt8 :=
  if settings.quiet then [] else banner.flatMap fun text => Utf8.encode (text ++ ['\n'])

theorem dialogue_cons (settings : Settings) (text : List Char) (texts : List (List Char)) :
    dialogue settings (text :: texts) =
      Utf8.encode prompt ++
        if Command.isExit text then [] else reply settings text ++ dialogue settings texts := by
  cases hexit : Command.isExit text with
  | true => simp [dialogue, hexit]
  | false => simp [dialogue, hexit, exchange]

theorem ending_cons (fault? : Option StreamFault) (text : List Char) (texts : List (List Char)) :
    ending fault? (text :: texts) =
      if Command.isExit text then .ok () else ending fault? texts := by
  cases hexit : Command.isExit text <;> simp [ending, hexit]

theorem texts_cons (fault? : Option StreamFault) (piece : List UInt8)
    (finished : List (List UInt8)) (unfinished : List UInt8) :
    texts fault? (piece :: finished) unfinished =
      Utf8.decodeLossy piece :: texts fault? finished unfinished := by
  rw [texts, readLines_cons, List.map_cons, texts]

/-! ### Blanks around a line -/

theorem isExit_congr {text text' : List Char} (h : trim text = trim text') :
    Command.isExit text = Command.isExit text' := by
  rw [Command.isExit, Command.isExit, h]

theorem reply_congr (settings : Settings) {text text' : List Char} (h : trim text = trim text') :
    reply settings text = reply settings text' := by
  rw [reply, reply, h]

/-- **The blanks around a line make no difference** to what is written for it and the others. -/
theorem dialogue_congr (settings : Settings) {texts texts' : List (List Char)}
    (h : texts.map trim = texts'.map trim) :
    dialogue settings texts = dialogue settings texts' := by
  induction texts generalizing texts' with
  | nil => rw [List.map_eq_nil_iff.1 h.symm]
  | cons text texts ih =>
    obtain ⟨text', rest, rfl, htext, hrest⟩ := List.map_eq_cons_iff.1 h.symm
    rw [dialogue_cons, dialogue_cons, isExit_congr htext, reply_congr settings htext, ih hrest.symm]

theorem ending_congr (fault? : Option StreamFault) {texts texts' : List (List Char)}
    (h : texts.map trim = texts'.map trim) : ending fault? texts = ending fault? texts' := by
  induction texts generalizing texts' with
  | nil => rw [List.map_eq_nil_iff.1 h.symm]
  | cons text texts ih =>
    obtain ⟨text', rest, rfl, htext, hrest⟩ := List.map_eq_cons_iff.1 h.symm
    rw [ending_cons, ending_cons, isExit_congr htext, ih hrest.symm]

/-! ## One line -/

section Line

variable (settings : Settings) (fault? : Option StreamFault)

/-- What comes behind an answer comes behind what it goes on with. -/
theorem answer_bind {α β : Type} (line : List UInt8) {ended : α} {ended' : β} (goOn : Writing α)
    {next : α → Writing β} (h : next ended = pure ended') :
    (answer settings line ended goOn >>= next) = answer settings line ended' (goOn >>= next) := by
  unfold answer
  cases Command.ofLine line with
  | leave => rw [pure_bind, h]
  | skip => rfl
  | calculate expression => rw [bind_assoc]

/-- **One byte at a time.**  A byte that does not end the line goes into the buffer. -/
theorem converse_cons_of_ne (line : Array UInt8) {byte : UInt8} (h : byte ≠ lineEnd)
    (rest : List UInt8) :
    converse settings fault? line (byte :: rest) =
      converse settings fault? (line.push byte) rest := by
  rw [converse, receive, if_neg h, pure_bind]

/-- The byte that ends the line has it answered, and behind the prompt the dialogue goes on with an
empty buffer. -/
theorem converse_cons_lineEnd (line : Array UInt8) (rest : List UInt8) :
    converse settings fault? line (lineEnd :: rest) =
      answer settings (line.push lineEnd).toList ()
        (do Writing.write prompt; converse settings fault? #[] rest) := by
  rw [converse, receive, if_pos rfl]
  refine Eq.trans (answer_bind settings _ _ rfl) ?_
  simp only [bind_assoc, pure_bind]

/-- Bytes that do not end a line go into the buffer. -/
theorem converse_append (line : Array UInt8) {body : List UInt8} (h : lineEnd ∉ body)
    (rest : List UInt8) :
    converse settings fault? line (body ++ rest) =
      converse settings fault? (line ++ body) rest := by
  induction body generalizing line with
  | nil => rw [List.nil_append, Array.appendList_nil]
  | cons byte body ih =>
    obtain ⟨hbyte, hbody⟩ : lineEnd ≠ byte ∧ lineEnd ∉ body := by simpa using h
    rw [List.cons_append, converse_cons_of_ne settings fault? line hbyte.symm,
      ih (line.push byte) hbody, Array.appendList_cons]

/-- **Reading a line.**  Up to its end the line goes into the buffer, and behind it the dialogue
goes on with an empty one. -/
theorem converse_line {body : List UInt8} (h : lineEnd ∉ body) (rest : List UInt8) :
    converse settings fault? #[] (body ++ lineEnd :: rest) =
      answer settings (body ++ [lineEnd]) ()
        (do Writing.write prompt; converse settings fault? #[] rest) := by
  rw [converse_append settings fault? #[] h, converse_cons_lineEnd, Array.toList_push,
    Array.toList_appendList, List.nil_append]

end Line

/-- An answer is the reply to a line and what follows it, or nothing if the line asks to leave. -/
theorem yields_answer (settings : Settings) (line : List UInt8) {goOn : Writing Unit}
    {bytes : List UInt8} {result : Except StreamFault Unit} (h : goOn.Yields bytes result) :
    (answer settings line () goOn).Yields
      (if Command.isExit (Utf8.decodeLossy line) then []
        else reply settings (Utf8.decodeLossy line) ++ bytes)
      (if Command.isExit (Utf8.decodeLossy line) then .ok () else result) := by
  generalize htext : Utf8.decodeLossy line = text
  unfold answer Command.ofLine Command.ofText
  rw [htext]
  cases hexit : Command.isExit text with
  | true => exact Writing.yields_pure ()
  | false =>
    dsimp only
    cases hblank : (trim text).isEmpty with
    | true => simpa [reply, hblank] using h
    | false =>
      rw [reply, hblank]
      exact (yields_report_output settings (trim text)).bind_ok h

/-! ## All lines -/

/-- What stands behind the last line end is a line if something is there and the input ends well. -/
theorem yields_converse_rest (settings : Settings) (fault? : Option StreamFault) {rest : List UInt8}
    (h : lineEnd ∉ rest) :
    (do Writing.write prompt; converse settings fault? #[] rest : Writing Unit).Yields
      (dialogue settings (texts fault? [] rest)) (ending fault? (texts fault? [] rest)) := by
  have hbuffer := converse_append settings fault? #[] h []
  rw [List.append_nil] at hbuffer
  rw [hbuffer]
  have hprompt := Writing.yields_write prompt
  cases fault? with
  | some fault => exact hprompt.bind_ok (Writing.yields_breakOff fault)
  | none =>
    cases rest with
    | nil => exact hprompt.bind_ok (Writing.yields_pure ())
    | cons byte rest =>
      rw [converse, finish, if_neg (by simp), Array.toList_appendList, List.nil_append]
      have hanswer := yields_answer settings (byte :: rest) hprompt
      simp only [texts, readLines, Option.isSome_none, Bool.false_eq_true, if_false,
        List.isEmpty_cons, List.nil_append, List.map_singleton, dialogue_cons, ending_cons]
      refine hprompt.bind_ok ?_
      simpa [dialogue, ending] using hanswer

/-- **A dialogue over an input that is cut** is the dialogue over its lines. -/
theorem yields_converse (settings : Settings) (fault? : Option StreamFault)
    {input unfinished : List UInt8} {finished : List (List UInt8)}
    (h : IsCut lineEnd input finished unfinished) :
    (do Writing.write prompt; converse settings fault? #[] input : Writing Unit).Yields
      (dialogue settings (texts fault? finished unfinished))
      (ending fault? (texts fault? finished unfinished)) := by
  induction h with
  | rest hrest => exact yields_converse_rest settings fault? hrest
  | @piece body rest unfinished finished hbody hcut ih =>
    rw [converse_line settings fault? hbody, texts_cons, dialogue_cons, ending_cons]
    exact (Writing.yields_write prompt).bind_ok (yields_answer settings _ ih)

theorem yields_greet (settings : Settings) :
    (greet settings).Yields (greeting settings) (.ok ()) := by
  unfold greet greeting
  cases settings.quiet with
  | true => exact Writing.yields_pure ()
  | false => exact Writing.yields_writeLines banner

theorem yields_run (settings : Settings) (fault? : Option StreamFault)
    {input unfinished : List UInt8} {finished : List (List UInt8)}
    (h : IsCut lineEnd input finished unfinished) :
    (run settings input fault?).Yields
      (greeting settings ++ dialogue settings (texts fault? finished unfinished))
      (ending fault? (texts fault? finished unfinished)) := by
  rw [run, enter, bind_assoc]
  exact (yields_greet settings).bind_ok (yields_converse settings fault? h)

/-- **A session is a map over its lines, cut at the first that asks to leave.**  The input is cut
behind its line ends; what is left behind the last one counts as a line if there is anything and the
input does not break off.  After the greeting, each line before the first that asks to leave has its
prompt and its reply, and then the prompt stands once more.  The session ends well if some line asks
to leave or the input ends well. -/
theorem run_eq_exchanges (settings : Settings) (input : List UInt8) (fault? : Option StreamFault) :
    ∃ finished unfinished, IsCut lineEnd input finished unfinished ∧
      let lines :=
        if unfinished.isEmpty || fault?.isSome then finished else finished ++ [unfinished]
      let texts := lines.map Utf8.decodeLossy
      let before := texts.takeWhile fun text => !Command.isExit text
      (run settings input fault?).output =
          (if settings.quiet then []
            else banner.flatMap fun text => Utf8.encode (text ++ ['\n'])) ++
            before.flatMap (fun text => Utf8.encode prompt ++
              if (trim text).isEmpty then [] else (report settings (trim text)).output) ++
            Utf8.encode prompt ∧
        (run settings input fault?).outcome =
          if texts.any Command.isExit then .ok ()
          else
            match fault? with
            | none => .ok ()
            | some fault => .error fault := by
  obtain ⟨finished, unfinished, hcut⟩ := exists_isCut lineEnd input
  have hrun := yields_run settings fault? hcut
  have hlines : readLines finished (if fault?.isSome then [] else unfinished) =
      if unfinished.isEmpty || fault?.isSome then finished else finished ++ [unfinished] := by
    cases fault? <;> simp [readLines]
  refine ⟨finished, unfinished, hcut, ?_⟩
  dsimp only
  rw [hrun.output_eq, hrun.outcome_eq, texts, hlines, dialogue, ← List.append_assoc]
  exact ⟨rfl, rfl⟩

end Session

/-- **A sink that fails cuts a session or a report at exactly that byte.**  What comes before it is
written as it is where nothing limits the output; if anything comes after it, the fault of the sink
is the result, also where the input breaks off, and otherwise the result is the same. -/
theorem limited_eq_cut (settings : Settings) (input : List UInt8) (fault? : Option StreamFault)
    (expression : List Char) (limit : Nat) (fault : StreamFault) :
    Session.run settings input fault? (.limited limit fault) =
        Writing.cutAt limit fault (Session.run settings input fault? .unlimited) ∧
      report settings expression (.limited limit fault) =
        Writing.cutAt limit fault (report settings expression .unlimited) := by
  obtain ⟨finished, unfinished, hcut⟩ := exists_isCut Session.lineEnd input
  exact ⟨(Session.yields_run settings fault? hcut).limited limit fault,
    (yields_report settings expression).limited limit fault⟩

end OperatorChain
