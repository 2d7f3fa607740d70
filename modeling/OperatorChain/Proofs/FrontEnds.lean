import Mathlib.Data.List.TakeWhile
import OperatorChain.CommandLine.Program
import OperatorChain.Proofs.Dialogue

/-!
# One report, three ways to it

An expression is reported on its own, on a line of a script, or on a line of a session.  The report
is the same each time: the two ways of cutting a text into lines differ only in blanks that a report
does not see, and the exit codes follow from the reports.

* `IsFlags` — arguments that hold options only, behind which anything may come.
* `report_trim` — a report does not see the blanks around its expression.
* `yields_reportScript`, `yields_hold_encode` — the reports of a script, and a session on its text.
* `invoke_alone`, `invoke_script`, `invoke_session` — what three invocations with the same flags do.
* `front_ends_agree` — the three of them side by side.
-/

namespace OperatorChain

/-! ## Arguments that hold options only -/

/-- The arguments say this, name no operand, and leave nothing open when `--` ends the options. -/
def IsFlags (flags : List (List Char)) (options : Options) : Prop :=
  Options.ofArguments (flags ++ ["--".toList]) = .ok options ∧ options.operand = none

/-- The arguments of a session without its banner. -/
def quietly (flags : List (List Char)) (options : Options) : List (List Char) :=
  if options.quiet then flags else flags ++ ["-q".toList]

/-- Arguments are complete unless a strategy or a script has still to be named. -/
theorem Draft.finish_eq_ok_iff {draft : Draft} {options : Options} :
    draft.finish = .ok options ↔
      draft.mode ≠ .strategyName ∧
        (draft.options.file = true → draft.options.operand ≠ none) ∧ draft.options = options := by
  obtain ⟨drafted, mode⟩ := draft
  by_cases hmode : mode = .strategyName
  · simp [Draft.finish, hmode]
  · cases hfile : drafted.file <;> cases hoperand : drafted.operand <;>
      simp [Draft.finish, hmode, hfile, hoperand]

/-- There are flags for any settings. -/
theorem exists_isFlags (settings : Settings) :
    ∃ flags options, IsFlags flags options ∧ options.settings = settings := by
  obtain ⟨strategy, explain, quiet⟩ := settings
  refine ⟨["-s".toList, strategy.name] ++ (if explain then ["-e".toList] else []) ++
    (if quiet then ["-q".toList] else []), ⟨false, some strategy, explain, quiet, 0, none⟩, ?_, rfl⟩
  cases strategy <;> cases explain <;> cases quiet <;> exact ⟨rfl, rfl⟩

section Arguments

variable {flags : List (List Char)} {options : Options}

/-- More arguments are read from where the first ones left off. -/
theorem ofArguments_append {draft : Draft}
    (h : flags.foldlM Draft.accept ⟨.initial, .any⟩ = .ok draft) (rest : List (List Char)) :
    Options.ofArguments (flags ++ rest) = rest.foldlM Draft.accept draft >>= Draft.finish := by
  unfold Options.ofArguments
  rw [List.foldlM_append, h]
  rfl

/-- Behind flags, anything may come next: an option that waits for its value does not take `--` for
it, and behind an earlier `--` the second one would be an operand. -/
theorem IsFlags.accept_all (h : IsFlags flags options) :
    flags.foldlM Draft.accept ⟨.initial, .any⟩ = .ok ⟨options, .any⟩ := by
  obtain ⟨hread, hoperand⟩ := h
  cases hflags : flags.foldlM Draft.accept ⟨.initial, .any⟩ with
  | error refusal =>
    rw [Options.ofArguments, List.foldlM_append, hflags] at hread
    cases hread
  | ok draft =>
    obtain ⟨drafted, mode⟩ := draft
    rw [ofArguments_append hflags] at hread
    cases mode with
    | any =>
      have hfinish : (⟨drafted, .operand⟩ : Draft).finish = .ok options := hread
      obtain ⟨-, -, rfl⟩ := Draft.finish_eq_ok_iff.1 hfinish
      rfl
    | strategyName => cases hread
    | operand =>
      obtain ⟨file, strategy, explain, quiet, verbosity, operand⟩ := drafted
      cases operand with
      | some text => cases hread
      | none =>
        have hfinish : (⟨⟨file, strategy, explain, quiet, verbosity, some "--".toList⟩, .operand⟩ :
          Draft).finish = .ok options := hread
        obtain ⟨-, -, rfl⟩ := Draft.finish_eq_ok_iff.1 hfinish
        cases hoperand

/-- Flags do not announce a script, since they do not name it. -/
theorem IsFlags.file_eq_false (h : IsFlags flags options) : options.file = false := by
  have hread := h.1
  rw [ofArguments_append h.accept_all] at hread
  have hfinish : (⟨options, .operand⟩ : Draft).finish = .ok options := hread
  obtain ⟨-, hfile, -⟩ := Draft.finish_eq_ok_iff.1 hfinish
  exact Bool.eq_false_iff.2 fun hannounced => hfile hannounced h.2

/-- The options of flags, taken apart. -/
theorem IsFlags.exists_eq (h : IsFlags flags options) :
    ∃ strategy explain quiet verbosity,
      options = ⟨false, strategy, explain, quiet, verbosity, none⟩ := by
  have hfile := h.file_eq_false
  have hoperand := h.2
  obtain ⟨file, strategy, explain, quiet, verbosity, operand⟩ := options
  exact ⟨strategy, explain, quiet, verbosity, by rw [← hfile, ← hoperand]⟩

theorem IsFlags.ofArguments_alone (h : IsFlags flags options) (line : List Char) :
    Options.ofArguments (flags ++ ["--".toList, line]) =
      .ok { options with operand := some line } := by
  rw [ofArguments_append h.accept_all]
  obtain ⟨strategy, explain, quiet, verbosity, rfl⟩ := h.exists_eq
  rfl

theorem IsFlags.ofArguments_script (h : IsFlags flags options) (path : List Char) :
    Options.ofArguments (flags ++ ["-f".toList, "--".toList, path]) =
      .ok { options with file := true, operand := some path } := by
  rw [ofArguments_append h.accept_all]
  obtain ⟨strategy, explain, quiet, verbosity, rfl⟩ := h.exists_eq
  rfl

theorem IsFlags.ofArguments_quietly (h : IsFlags flags options) :
    Options.ofArguments (quietly flags options) = .ok { options with quiet := true } := by
  have haccept := h.accept_all
  obtain ⟨strategy, explain, quiet, verbosity, rfl⟩ := h.exists_eq
  cases quiet with
  | true =>
    have hread := ofArguments_append haccept []
    rw [List.append_nil] at hread
    exact hread
  | false => exact ofArguments_append haccept ["-q".toList]

end Arguments

/-! ## Blanks around an expression -/

theorem ofText_trim (strategy : Strategy) (text : List Char) :
    Calculation.ofText strategy (trim text) = Calculation.ofText strategy text := by
  simp only [Calculation.ofText, Graph.ofText, words_trim]

/-- **A report does not see the blanks around its expression.** -/
theorem report_trim (settings : Settings) (text : List Char) :
    report settings (trim text) = report settings text := by
  simp only [report, ofText_trim]

theorem reportLines_trim (settings : Settings) (text : List Char) :
    reportLines settings (trim text) = reportLines settings text := by
  simp only [reportLines, ofText_trim]

/-- What is written for a line: nothing if it is blank, and else its report. -/
theorem reply_eq (settings : Settings) (line : List Char) :
    Session.reply settings line =
      if (trim line).isEmpty then [] else (report settings line).output := by
  rw [Session.reply, report_trim]

/-! ## The reports of several expressions -/

/-- **A script is reported expression by expression**, and it succeeds if all of them do. -/
theorem yields_reportAll (settings : Settings) (expressions : List (List Char)) :
    (reportAll settings expressions).Yields
      (expressions.flatMap fun expression => (report settings expression).output)
      (.ok (expressions.all fun expression => (reportLines settings expression).2)) := by
  induction expressions with
  | nil => exact Writing.yields_pure true
  | cons expression rest ih =>
    have hrest : (do
        let othersSucceeded ← reportAll settings rest
        pure ((reportLines settings expression).2 && othersSucceeded)).Yields
          ((rest.flatMap fun expression => (report settings expression).output) ++ [])
          (.ok ((expression :: rest).all fun expression => (reportLines settings expression).2)) :=
      ih.bind_ok (Writing.yields_pure _)
    rw [List.append_nil] at hrest
    exact (yields_report_output settings expression).bind_ok hrest

/-- The lines of a text that are not blank. -/
def fullLines (text : List Char) : List (List Char) :=
  (lines text).filter fun line => !(trim line).isEmpty

/-- **A script is reported line by line**, without those that are blank. -/
theorem yields_reportScript (settings : Settings) (script : List Char) :
    (reportScript settings script).Yields
      ((fullLines script).flatMap fun line => (report settings line).output)
      (.ok ((fullLines script).all fun line => (reportLines settings line).2)) := by
  have hexpressions : scriptExpressions script = (fullLines script).map trim := by
    rw [scriptExpressions, List.filter_map]
    rfl
  have hall := yields_reportAll settings (scriptExpressions script)
  simp only [hexpressions, List.flatMap_map, List.all_map, Function.comp_def, report_trim,
    reportLines_trim] at hall
  rw [reportScript, hexpressions]
  exact hall

/-- Line ends make no difference to what a session writes. -/
theorem dialogue_map_dropLineEnd (settings : Settings) (texts : List (List Char)) :
    Session.dialogue settings (texts.map dropLineEnd) = Session.dialogue settings texts := by
  refine Session.dialogue_congr settings ?_
  rw [List.map_map]
  exact List.map_congr_left fun text _ => trim_dropLineEnd text

/-- If no line asks to leave, each has its exchange. -/
theorem Session.dialogue_of_stays (settings : Settings) {texts : List (List Char)}
    (h : ∀ text ∈ texts, Command.isExit text = false) :
    dialogue settings texts = texts.flatMap (exchange settings) ++ Utf8.encode prompt := by
  rw [dialogue, List.takeWhile_eq_self_iff.2 fun text htext => by simp [h text htext]]

/-- What a session writes on an input that ends; and it goes well. -/
theorem yields_hold (settings : Settings) {input unfinished : List UInt8}
    {finished : List (List UInt8)} (h : IsCut Session.lineEnd input finished unfinished) :
    (hold settings input).Yields
      (Session.greeting settings ++
        Session.dialogue settings (Session.texts none finished unfinished)) (.ok true) := by
  have hrun := Session.yields_run settings none h
  have hending : Session.ending none (Session.texts none finished unfinished) = .ok () := ite_self _
  rw [hending] at hrun
  rw [← List.append_nil (_ ++ _)]
  exact hrun.bind_ok (Writing.yields_pure true)

/-- **A session on a text is the dialogue over its lines.** -/
theorem yields_hold_encode (settings : Settings) (text : List Char) :
    (hold settings (Utf8.encode text)).Yields
      (Session.greeting settings ++ Session.dialogue settings (lines text)) (.ok true) := by
  obtain ⟨finished, unfinished, hcut⟩ := exists_isCut '\n' text
  have hhold := yields_hold settings hcut.encode
  rwa [Session.texts, Option.isSome_none, if_neg (by simp), map_decodeLossy_readLines,
    ← dialogue_map_dropLineEnd, ← hcut.lines_eq] at hhold

/-! ## Three invocations -/

section Invocations

variable {flags : List (List Char)} {options : Options}

/-- A computation that ends leaves its output and the code of its answer. -/
theorem Outcome.ofWriting_unlimited {action : Writing Bool} {bytes : List UInt8} {succeeded : Bool}
    (h : action.Yields bytes (.ok succeeded)) :
    Outcome.ofWriting action .unlimited = ⟨if succeeded then 0 else 1, bytes.toArray, []⟩ := by
  have hwritten : (Sink.unlimited.extend bytes).written = bytes.toArray :=
    Array.ext' (by simp [Sink.unlimited])
  rw [Outcome.ofWriting, h.apply_unlimited]
  cases succeeded <;> simp [hwritten]

/-- A script that can be read is reported line by line. -/
theorem Options.perform_script (hfile : options.file = true) {path text : List Char}
    (hpath : options.operand = some path) (input : List UInt8)
    {readFile? : List Char → Option (List UInt8)}
    (hread : (readFile? path).bind Utf8.decode? = some text) :
    options.perform ⟨input, readFile?, .unlimited⟩ =
      ⟨if (fullLines text).all fun line => (reportLines options.settings line).2 then 0 else 1,
        ((fullLines text).flatMap fun line =>
          (report options.settings line).output).toArray, []⟩ := by
  rw [← Outcome.ofWriting_unlimited (yields_reportScript options.settings text)]
  simp [perform, hpath, hfile, hread]

theorem invoke_alone (h : IsFlags flags options) (line : List Char) (input : List UInt8)
    (readFile? : List Char → Option (List UInt8)) :
    invoke (flags ++ ["--".toList, line]) ⟨input, readFile?, .unlimited⟩ =
      ⟨if (reportLines options.settings line).2 then 0 else 1,
        (report options.settings line).output.toArray, []⟩ := by
  rw [invoke, h.ofArguments_alone,
    ← Outcome.ofWriting_unlimited (yields_report_output options.settings line)]
  simp [Options.perform, h.file_eq_false, Options.settings]

theorem invoke_script (h : IsFlags flags options) (text path : List Char) (input : List UInt8)
    {readFile? : List Char → Option (List UInt8)}
    (hfile : readFile? path = some (Utf8.encode text)) :
    invoke (flags ++ ["-f".toList, "--".toList, path]) ⟨input, readFile?, .unlimited⟩ =
      ⟨if (fullLines text).all fun line => (reportLines options.settings line).2 then 0 else 1,
        ((fullLines text).flatMap fun line =>
          (report options.settings line).output).toArray, []⟩ := by
  rw [invoke, h.ofArguments_script]
  exact Options.perform_script rfl rfl input (by simp [hfile, Utf8.decode?_encode])

theorem invoke_session (h : IsFlags flags options) (text : List Char)
    (readFile? : List Char → Option (List UInt8)) :
    invoke (quietly flags options) ⟨Utf8.encode text, readFile?, .unlimited⟩ =
      ⟨0, (Session.dialogue { options.settings with quiet := true } (lines text)).toArray, []⟩ := by
  have hhold := yields_hold_encode { options.settings with quiet := true } text
  rw [invoke, h.ofArguments_quietly]
  simp only [Options.perform, h.2]
  exact Outcome.ofWriting_unlimited hhold

end Invocations

/-- **The three front ends agree.**  There are flags for any settings.  With any flags, take a text
in a file and on the input.  The file, run as a script, has the outputs that its lines that are not
blank have when each of them is the operand, and it succeeds if and only if all of these do.  If no
line asks to leave, a quiet session has the same outputs, with the prompt before each line, blank or
not, and once more behind the last; and it succeeds. -/
theorem front_ends_agree (settings : Settings) (text path : List Char) (input : List UInt8)
    {readFile? : List Char → Option (List UInt8)}
    (hfile : readFile? path = some (Utf8.encode text)) :
    (∃ flags options, IsFlags flags options ∧ options.settings = settings) ∧
      ∀ flags options, IsFlags flags options → options.settings = settings →
        let alone := fun line : List Char =>
          invoke (flags ++ ["--".toList, line]) ⟨input, readFile?, .unlimited⟩
        let script :=
          invoke (flags ++ ["-f".toList, "--".toList, path]) ⟨input, readFile?, .unlimited⟩
        let session := invoke (quietly flags options) ⟨Utf8.encode text, readFile?, .unlimited⟩
        let full := (lines text).filter fun line => !(trim line).isEmpty
        script.output.toList = full.flatMap (fun line => (alone line).output.toList) ∧
          (script.code = 0 ↔ ∀ line ∈ full, (alone line).code = 0) ∧
          ((∀ line ∈ lines text, Command.isExit line = false) →
            session.output.toList =
                (lines text).flatMap (fun line => Utf8.encode Session.prompt ++
                  if (trim line).isEmpty then [] else (alone line).output.toList) ++
                Utf8.encode Session.prompt ∧
              session.code = 0) := by
  refine ⟨exists_isFlags settings, fun flags options hflags _ => ?_⟩
  dsimp only
  rw [invoke_script hflags text path input hfile, invoke_session hflags text readFile?]
  simp only [invoke_alone hflags]
  refine ⟨rfl, ?_, fun hstays => ⟨?_, trivial⟩⟩
  · rw [← fullLines]
    simp
  · have hexchange : Session.exchange { options.settings with quiet := true } = fun line =>
        Utf8.encode Session.prompt ++
          if (trim line).isEmpty then [] else (report options.settings line).output :=
      funext fun line => congrArg (Utf8.encode Session.prompt ++ ·) (reply_eq _ line)
    rw [Session.dialogue_of_stays _ hstays, hexchange]

/-- A sum behind which a carriage return stands, a blank line, and a quotient that fails. -/
theorem front_ends_agree_failing_line :
    let text := "2 + 3 * 4\r\n \n7 / 0".toList
    let readFile? := fun path => if path = "sums".toList then some (Utf8.encode text) else none
    let flags := ["-s".toList, "queue".toList, "-e".toList]
    let alone := fun line : List Char =>
      (invoke (flags ++ ["--".toList, line]) ⟨[], readFile?, .unlimited⟩).output.toList
    let script :=
      invoke (flags ++ ["-f".toList, "--".toList, "sums".toList]) ⟨[], readFile?, .unlimited⟩
    let session := invoke (flags ++ ["-q".toList]) ⟨Utf8.encode text, readFile?, .unlimited⟩
    readFile? "sums".toList = some (Utf8.encode text) ∧
      IsFlags flags ⟨false, some .queue, true, false, 0, none⟩ ∧
      (∀ line ∈ lines text, Command.isExit line = false) ∧
      script.output.toList = alone "2 + 3 * 4".toList ++ alone "7 / 0".toList ∧
      script.code ≠ 0 ∧
      session.output.toList =
        Utf8.encode Session.prompt ++ alone "2 + 3 * 4".toList ++ Utf8.encode Session.prompt ++
          Utf8.encode Session.prompt ++ alone "7 / 0".toList ++ Utf8.encode Session.prompt ∧
      session.code = 0 := by
  intro text readFile? flags alone script session
  have hfile : readFile? "sums".toList = some (Utf8.encode text) := rfl
  have hflags : IsFlags flags ⟨false, some .queue, true, false, 0, none⟩ := ⟨rfl, rfl⟩
  have hlines : lines text = ["2 + 3 * 4".toList, " ".toList, "7 / 0".toList] := by decide
  have hstays : ∀ line ∈ lines text, Command.isExit line = false := by decide
  obtain ⟨houtput, hcode, hsession⟩ := (front_ends_agree ⟨.queue, true, false⟩ text "sums".toList []
    hfile).2 flags _ hflags rfl
  have hquiet : quietly flags ⟨false, some .queue, true, false, 0, none⟩ = flags ++ ["-q".toList] :=
    rfl
  have hfull : ((lines text).filter fun line => !(trim line).isEmpty) =
      ["2 + 3 * 4".toList, "7 / 0".toList] := by decide
  have hsum : (trim "2 + 3 * 4".toList).isEmpty = false := rfl
  have hblank : (trim " ".toList).isEmpty = true := rfl
  have hquotient : (trim "7 / 0".toList).isEmpty = false := rfl
  rw [hquiet] at hsession
  refine ⟨hfile, hflags, hstays, ?_, ?_, ?_, (hsession hstays).2⟩
  · rw [hfull] at houtput
    rw [houtput, List.flatMap_cons, List.flatMap_cons, List.flatMap_nil, List.append_nil]
  · intro hsucceeds
    have hlast := hcode.1 hsucceeds "7 / 0".toList
      (by rw [hfull]; exact List.mem_cons_of_mem _ List.mem_cons_self)
    simp only [invoke_alone hflags] at hlast
    cases hlast
  · rw [(hsession hstays).1, hlines]
    simp only [List.flatMap_cons, List.flatMap_nil, hsum, hblank, hquotient, if_true,
      List.append_nil, Bool.false_eq_true, if_false, List.append_assoc]
    rfl

end OperatorChain
