import OperatorChain.Proofs.FrontEnds
import OperatorChain.Proofs.Invocations
import OperatorChain.Proofs.ReportLines

/-!
# Options that concern the presentation only

How the next operator is found and how much is logged make no difference to an invocation.  Without
the banner a session lacks the banner and nothing else.  The steps are lines of their own, told from
the others by the blanks that they begin with, and whoever deletes them has the output without them.

* `withoutIndented` — the lines of an output that do not begin with two blanks.
* `withoutIndented_reports` — what is left of reports once the steps are deleted.
* `Options.expressions?`, `Options.perform_expressions` — what an invocation reports.
* `invoke_presented` — invocations whose options differ in the presentation.
-/

namespace OperatorChain

/-! ## Lines that begin with two blanks -/

/-- Do the bytes begin with two blanks? -/
def isIndented (line : List UInt8) : Bool :=
  List.isPrefixOf [0x20, 0x20] line

/-- The bytes without the lines that begin with two blanks. -/
def withoutIndented (bytes : List UInt8) : List UInt8 :=
  let pieces := bytes.splitOn Session.lineEnd
  let lines := pieces.dropLast.map (· ++ [Session.lineEnd]) ++ [pieces.getLastD []]
  (lines.filter fun line => !isIndented line).flatten

theorem IsCut.withoutIndented_eq {bytes unfinished : List UInt8} {finished : List (List UInt8)}
    (h : IsCut Session.lineEnd bytes finished unfinished) :
    withoutIndented bytes =
      ((finished ++ [unfinished]).filter fun line => !isIndented line).flatten := by
  have hfinished : (finished.map List.dropLast).map (· ++ [Session.lineEnd]) = finished := by
    rw [List.map_map]
    refine (List.map_congr_left fun piece hpiece => ?_).trans (List.map_id finished)
    obtain ⟨body, rfl⟩ := h.exists_body piece hpiece
    simp
  rw [withoutIndented, h.splitOn_eq]
  simp only [List.dropLast_concat, List.getLastD_concat]
  rw [hfinished]

/-- Lines that are printed are cut into these lines. -/
theorem isCut_lines {texts : List (List Char)} (h : ∀ text ∈ texts, OneLine text) :
    IsCut Session.lineEnd (texts.flatMap fun text => Utf8.encode (text ++ ['\n']))
      (texts.map fun text => Utf8.encode (text ++ ['\n'])) [] := by
  induction texts with
  | nil => exact .rest List.not_mem_nil
  | cons text texts ih =>
    rw [List.forall_mem_cons] at h
    have hline : Utf8.encode (text ++ ['\n']) = Utf8.encode text ++ [Session.lineEnd] :=
      Utf8.encode_append text ['\n']
    rw [List.flatMap_cons, List.map_cons, hline, List.append_assoc, List.singleton_append]
    exact .piece (mt Utf8.lineEnd_mem_encode_iff.1 h.1) (ih h.2)

theorem withoutIndented_lines {texts : List (List Char)} (h : ∀ text ∈ texts, OneLine text) :
    withoutIndented (texts.flatMap fun text => Utf8.encode (text ++ ['\n'])) =
      (texts.filter fun text => !isIndented (Utf8.encode (text ++ ['\n']))).flatMap fun text =>
        Utf8.encode (text ++ ['\n']) := by
  rw [(isCut_lines h).withoutIndented_eq, List.filter_append, List.filter_map, List.flatten_append,
    List.flatMap_def]
  exact List.append_nil _

/-- The line of a step begins with two blanks. -/
theorem isIndented_stepLine (step : Step) :
    isIndented (Utf8.encode (stepLine step ++ ['\n'])) = true :=
  rfl

theorem isIndented_of_ne_blank {c : Char} (h : c ≠ ' ') (rest : List Char) :
    isIndented (Utf8.encode (c :: rest)) = false := by
  have hblank : 0x20 ∉ String.utf8EncodeChar c := fun hmem =>
    h (Char.toNat_inj.1 ((Utf8.ofNat_mem_utf8EncodeChar_iff (by decide)).1 hmem))
  obtain ⟨byte, bytes, hbytes⟩ := List.exists_cons_of_ne_nil (@String.utf8EncodeChar_ne_nil c)
  rw [hbytes] at hblank
  have hbyte : (0x20 : UInt8) ≠ byte := fun heq => hblank (heq ▸ List.mem_cons_self)
  rw [Utf8.encode_cons, hbytes, List.cons_append, isIndented, List.isPrefixOf_cons_cons,
    beq_eq_false_iff_ne.2 hbyte, Bool.false_and]

/-- **Deleting the steps** of a report leaves the report without steps. -/
theorem filter_reportLines {explained plain : Settings} (hexplain : explained.explain = true)
    (hplain : plain.explain = false) (expression : List Char) :
    ((reportLines explained expression).1.filter fun text =>
      !isIndented (Utf8.encode (text ++ ['\n']))) = (reportLines plain expression).1 := by
  obtain ⟨-, steps, hsteps⟩ := reportLines_explained hexplain hplain expression
  rw [hsteps, List.filter_append, List.filter_eq_nil_iff.2, List.nil_append, List.filter_eq_self]
  · intro text htext
    obtain ⟨c, rest, rfl, hc⟩ := exists_eq_cons_of_mem_reportLines hplain htext
    rw [List.cons_append, isIndented_of_ne_blank hc]
    rfl
  · intro text htext
    obtain ⟨step, -, rfl⟩ := List.mem_map.1 htext
    rw [isIndented_stepLine]
    simp

/-- What several reports write is their lines. -/
theorem flatMap_output_report (settings : Settings) (expressions : List (List Char)) :
    (expressions.flatMap fun expression => (report settings expression).output) =
      (expressions.flatMap fun expression => (reportLines settings expression).1).flatMap
        fun text => Utf8.encode (text ++ ['\n']) := by
  rw [List.flatMap_assoc]
  exact List.flatMap_congr fun expression _ => (yields_report settings expression).output_eq

theorem oneLine_of_mem_reports {settings : Settings} {expressions : List (List Char)} :
    ∀ line ∈ expressions.flatMap fun expression => (reportLines settings expression).1,
      OneLine line := by
  intro line hline
  obtain ⟨expression, -, hmem⟩ := List.mem_flatMap.1 hline
  exact oneLine_of_mem_reportLines hmem

/-- The same for several reports. -/
theorem withoutIndented_reports {explained plain : Settings} (hexplain : explained.explain = true)
    (hplain : plain.explain = false) (expressions : List (List Char)) :
    withoutIndented (expressions.flatMap fun expression => (report explained expression).output) =
      expressions.flatMap fun expression => (report plain expression).output := by
  rw [flatMap_output_report, flatMap_output_report, withoutIndented_lines oneLine_of_mem_reports,
    List.filter_flatMap]
  simp only [filter_reportLines hexplain hplain]

/-- Only the value is left. -/
example : withoutIndented (report ⟨.scan, true, false⟩ "8 - 4 * 2".toList).output =
    Utf8.encode "0\n".toList := by decide +kernel

/-! ## What an invocation does -/

/-- A dialogue depends on the settings only as far as reports do. -/
theorem Session.dialogue_of_explain_eq {settings settings' : Settings}
    (h : settings.explain = settings'.explain) :
    Session.dialogue settings = Session.dialogue settings' := by
  have hexchange : Session.exchange settings = Session.exchange settings' := by
    funext text
    rw [Session.exchange, Session.exchange, Session.reply, Session.reply, report_congr h]
  funext texts
  rw [Session.dialogue, Session.dialogue, hexchange]

theorem hold_congr {settings settings' : Settings} (hexplain : settings.explain = settings'.explain)
    (hquiet : settings.quiet = settings'.quiet) : hold settings = hold settings' := by
  have hgreeting : Session.greeting settings = Session.greeting settings' := by
    rw [Session.greeting, Session.greeting, hquiet]
  funext input
  obtain ⟨finished, unfinished, hcut⟩ := exists_isCut Session.lineEnd input
  refine (yields_hold settings hcut).unique ?_
  rw [hgreeting, Session.dialogue_of_explain_eq hexplain]
  exact yields_hold settings' hcut

theorem reportAll_congr {settings settings' : Settings}
    (h : settings.explain = settings'.explain) : reportAll settings = reportAll settings' := by
  funext expressions
  induction expressions with
  | nil => rfl
  | cons expression rest ih => rw [reportAll, reportAll, report_congr h, ih]

/-- **The strategy and the detail of the log make no difference**, whatever the surroundings, and
with an operand the banner makes none. -/
theorem Options.perform_congr {options options' : Options} (hfile : options.file = options'.file)
    (hoperand : options.operand = options'.operand) (hexplain : options.explain = options'.explain)
    (hquiet : options.operand = none → options.quiet = options'.quiet) :
    options.perform = options'.perform := by
  have hreport := @report_congr options.settings options'.settings hexplain
  have hscript : reportScript options.settings = reportScript options'.settings := by
    funext script
    rw [reportScript, reportScript, @reportAll_congr options.settings options'.settings hexplain]
  funext surroundings
  unfold perform
  dsimp only
  rw [← hoperand, hfile, hreport, hscript]
  cases hgiven : options.operand with
  | none => rw [@hold_congr options.settings options'.settings hexplain (hquiet hgiven)]
  | some operand => rfl

/-- The expressions that are reported if an operand is given and can be read. -/
def Options.expressions? (options : Options) (readFile? : List Char → Option (List UInt8)) :
    Option (List (List Char)) :=
  options.operand.bind fun operand =>
    if options.file then ((readFile? operand).bind Utf8.decode?).map scriptExpressions
    else some [operand]

/-- **With an operand**, all expressions are reported, or it is said that there are none. -/
theorem Options.perform_expressions {options : Options} {operand : List Char}
    (h : options.operand = some operand) (input : List UInt8)
    (readFile? : List Char → Option (List UInt8)) :
    options.perform ⟨input, readFile?, .unlimited⟩ =
      match options.expressions? readFile? with
      | none => ⟨1, #[], unreadableText operand ++ ['\n']⟩
      | some expressions =>
        ⟨if expressions.all fun expression => (reportLines options.settings expression).2 then 0
            else 1,
          (expressions.flatMap fun expression =>
            (report options.settings expression).output).toArray, []⟩ := by
  unfold perform expressions?
  rw [h]
  dsimp only [Option.bind_some]
  cases options.file with
  | true =>
    rw [if_pos rfl, if_pos rfl]
    cases (readFile? operand).bind Utf8.decode? with
    | none => rfl
    | some script =>
      exact Outcome.ofWriting_unlimited
        (yields_reportAll options.settings (scriptExpressions script))
  | false =>
    rw [if_neg (by simp), if_neg (by simp)]
    have hreport := Outcome.ofWriting_unlimited (yields_report_output options.settings operand)
    simpa using hreport

/-- **Without an operand**, there is a session, which goes well. -/
theorem Options.perform_session {options : Options} (h : options.operand = none)
    {input unfinished : List UInt8} {finished : List (List UInt8)}
    (hcut : IsCut Session.lineEnd input finished unfinished)
    (readFile? : List Char → Option (List UInt8)) :
    options.perform ⟨input, readFile?, .unlimited⟩ =
      ⟨0, (Session.greeting options.settings ++ Session.dialogue options.settings
        (Session.texts none finished unfinished)).toArray, []⟩ := by
  rw [perform, h]
  exact Outcome.ofWriting_unlimited (yields_hold options.settings hcut)

/-! ## Invocations that differ in the presentation -/

/-- Options that are read can be carried out. -/
theorem Options.runnable_of_ofArguments {arguments : List (List Char)} {options : Options}
    (h : Options.ofArguments arguments = .ok options) : options.Runnable := by
  rw [ofArguments] at h
  cases hdraft : arguments.foldlM Draft.accept ⟨.initial, .any⟩ with
  | error refusal =>
    rw [hdraft] at h
    cases h
  | ok draft =>
    rw [hdraft] at h
    obtain ⟨-, hfile, rfl⟩ := Draft.finish_eq_ok_iff.1 h
    exact hfile

theorem invoke_of_ok {arguments : List (List Char)} {options : Options}
    (h : Options.ofArguments arguments = .ok options) (surroundings : Surroundings) :
    invoke arguments surroundings = options.perform surroundings := by
  rw [invoke, h]

/-- **Without the banner** a session writes what comes behind the banner, and nothing else
changes. -/
theorem Options.perform_quiet {loud : Options} (hloud : loud.quiet = false) (input : List UInt8)
    (readFile? : List Char → Option (List UInt8)) :
    let outcome := loud.perform ⟨input, readFile?, .unlimited⟩
    let outcome' := Options.perform { loud with quiet := true } ⟨input, readFile?, .unlimited⟩
    outcome'.code = outcome.code ∧ outcome'.errors = outcome.errors ∧
      outcome.output.toList =
        (if loud.operand = none then
          Session.banner.flatMap fun text => Utf8.encode (text ++ ['\n']) else []) ++
          outcome'.output.toList := by
  intro outcome outcome'
  cases hoperand : loud.operand with
  | none =>
    obtain ⟨finished, unfinished, hcut⟩ := exists_isCut Session.lineEnd input
    have houtcome : outcome = _ := perform_session hoperand hcut readFile?
    have houtcome' : outcome' = _ := @perform_session { loud with quiet := true } hoperand _ _ _
      hcut readFile?
    have hdialogue : Session.dialogue ({ loud with quiet := true } : Options).settings =
        Session.dialogue loud.settings := Session.dialogue_of_explain_eq rfl
    rw [houtcome, houtcome', hdialogue]
    refine ⟨rfl, rfl, ?_⟩
    rw [if_pos rfl, Session.greeting, Session.greeting]
    simp [settings, hloud]
  | some operand =>
    have hperform : Options.perform { loud with quiet := true } = loud.perform :=
      perform_congr rfl rfl rfl fun hnone => absurd (hnone.symm.trans hoperand) (by simp)
    have houtcome : outcome' = outcome := congrFun hperform _
    rw [houtcome, if_neg (by simp), List.nil_append]
    exact ⟨rfl, rfl, rfl⟩

/-- **With the steps** an invocation ends in the same way, and if an operand is given, the steps are
all that it writes besides. -/
theorem Options.perform_explain {plain : Options} (hplain : plain.explain = false)
    (input : List UInt8) (readFile? : List Char → Option (List UInt8)) :
    let outcome := plain.perform ⟨input, readFile?, .unlimited⟩
    let outcome' := Options.perform { plain with explain := true } ⟨input, readFile?, .unlimited⟩
    outcome'.code = outcome.code ∧ outcome'.errors = outcome.errors ∧
      (plain.operand ≠ none → withoutIndented outcome'.output.toList = outcome.output.toList) := by
  intro outcome outcome'
  cases hoperand : plain.operand with
  | none =>
    obtain ⟨finished, unfinished, hcut⟩ := exists_isCut Session.lineEnd input
    have houtcome : outcome = _ := perform_session hoperand hcut readFile?
    have houtcome' : outcome' = _ := @perform_session { plain with explain := true } hoperand _ _ _
      hcut readFile?
    rw [houtcome, houtcome']
    exact ⟨rfl, rfl, fun hgiven => absurd rfl hgiven⟩
  | some operand =>
    have houtcome : outcome = _ := perform_expressions hoperand input readFile?
    have houtcome' : outcome' = _ := @perform_expressions { plain with explain := true } _ hoperand
      input readFile?
    have hexpressions : ({ plain with explain := true } : Options).expressions? readFile? =
      plain.expressions? readFile? := rfl
    rw [houtcome, houtcome', hexpressions]
    cases plain.expressions? readFile? with
    | none => exact ⟨rfl, rfl, fun _ => rfl⟩
    | some expressions =>
      have hexplained : ({ plain with explain := true } : Options).settings.explain = true := rfl
      have hplain : plain.settings.explain = false := hplain
      have hcode : ∀ expression,
          (reportLines ({ plain with explain := true } : Options).settings expression).2 =
            (reportLines plain.settings expression).2 := fun expression =>
        (reportLines_explained hexplained hplain expression).1
      refine ⟨?_, rfl, fun _ => ?_⟩
      · simp only [hcode]
      · exact withoutIndented_reports hexplained hplain expressions

/-- **The presentation does not influence what is computed.**  It can be changed at will, and
whichever arguments say the change: another strategy and another number of `-v` change nothing,
whatever the invocation finds.  With `-q` the banner is missing from a session, and nothing else
changes.  With `-e` the code and the errors stay the same, and if an operand is given, deleting the
lines that begin with two blanks leaves the output without `-e`. -/
theorem invoke_presented {arguments : List (List Char)} {options : Options}
    (h : Options.ofArguments arguments = .ok options) :
    (∀ options' : Options, options'.file = options.file → options'.operand = options.operand →
      ∃ arguments', Options.ofArguments arguments' = .ok options') ∧
    (∀ strategy verbosity arguments', Options.ofArguments arguments' =
        .ok { options with strategy := strategy, verbosity := verbosity } →
      ∀ surroundings, invoke arguments' surroundings = invoke arguments surroundings) ∧
    (options.quiet = false → ∀ arguments',
      Options.ofArguments arguments' = .ok { options with quiet := true } → ∀ input readFile?,
        let loud := invoke arguments ⟨input, readFile?, .unlimited⟩
        let quiet := invoke arguments' ⟨input, readFile?, .unlimited⟩
        quiet.code = loud.code ∧ quiet.errors = loud.errors ∧
          loud.output.toList =
            (if options.operand = none then
              Session.banner.flatMap fun text => Utf8.encode (text ++ ['\n']) else []) ++
              quiet.output.toList) ∧
    (options.explain = false → ∀ arguments',
      Options.ofArguments arguments' = .ok { options with explain := true } → ∀ input readFile?,
        let plain := invoke arguments ⟨input, readFile?, .unlimited⟩
        let explained := invoke arguments' ⟨input, readFile?, .unlimited⟩
        explained.code = plain.code ∧ explained.errors = plain.errors ∧
          (options.operand ≠ none →
            withoutIndented explained.output.toList = plain.output.toList)) := by
  refine ⟨?_, ?_, ?_, ?_⟩
  · intro options' hfile hoperand
    obtain ⟨arguments', hsaid⟩ := options'.exists_says
    refine ⟨arguments', hsaid.ofArguments_eq_ok_iff.2 ⟨.refl _, ?_⟩⟩
    rw [Options.Runnable, hfile, hoperand]
    exact Options.runnable_of_ofArguments h
  · intro strategy verbosity arguments' h' surroundings
    have hperform : Options.perform { options with strategy := strategy, verbosity := verbosity } =
        options.perform := Options.perform_congr rfl rfl rfl fun _ => rfl
    rw [invoke_of_ok h', invoke_of_ok h, hperform]
  · intro hloud arguments' h' input readFile?
    rw [invoke_of_ok h', invoke_of_ok h]
    exact Options.perform_quiet hloud input readFile?
  · intro hplain arguments' h' input readFile?
    rw [invoke_of_ok h', invoke_of_ok h]
    exact Options.perform_explain hplain input readFile?

/-- A product as the operand, with its step and without, and a session. -/
theorem invoke_presented_product :
    let input := Utf8.encode "2 + 3".toList
    let product := "2 * 3".toList
    invoke ["-vv".toList, product, "-s".toList, "queue".toList] ⟨input, fun _ => none, .unlimited⟩ =
        invoke [product] ⟨input, fun _ => none, .unlimited⟩ ∧
      withoutIndented (invoke ["-e".toList, product]
          ⟨input, fun _ => none, .unlimited⟩).output.toList =
        (invoke [product] ⟨input, fun _ => none, .unlimited⟩).output.toList ∧
      (invoke [] ⟨input, fun _ => none, .unlimited⟩).output.toList =
        (Session.banner.flatMap fun text => Utf8.encode (text ++ ['\n'])) ++
          (invoke ["-q".toList] ⟨input, fun _ => none, .unlimited⟩).output.toList := by
  intro input product
  have hproduct : Options.ofArguments [product] =
      .ok ⟨false, none, false, false, 0, some product⟩ := rfl
  have hqueue : Options.ofArguments ["-vv".toList, product, "-s".toList, "queue".toList] =
      .ok ⟨false, some .queue, false, false, 2, some product⟩ := rfl
  have hexplain : Options.ofArguments ["-e".toList, product] =
      .ok ⟨false, none, true, false, 0, some product⟩ := rfl
  have hsession : Options.ofArguments [] = .ok ⟨false, none, false, false, 0, none⟩ := rfl
  have hquiet : Options.ofArguments ["-q".toList] = .ok ⟨false, none, false, true, 0, none⟩ := rfl
  obtain ⟨-, hsame, -, hsteps⟩ := invoke_presented hproduct
  obtain ⟨-, -, hbanner, -⟩ := invoke_presented hsession
  obtain ⟨-, -, hwithout⟩ := hsteps rfl _ hexplain input fun _ => none
  obtain ⟨-, -, hwritten⟩ := hbanner rfl _ hquiet input fun _ => none
  rw [if_pos rfl] at hwritten
  exact ⟨hsame _ _ _ hqueue _, hwithout (by simp), hwritten⟩

end OperatorChain
