import OperatorChain.Proofs.Presentation

/-!
# Output that gets lost

A program whose output breaks off must not end as if it had been read.  Whatever an invocation does,
it writes its output once, from the front, and ends well only behind the last byte of it; so a sink
that takes fewer bytes turns the outcome into a failure that names the fault, and a sink that takes
them all leaves the outcome as it is.

* `Outcome.cutAt` — what becomes of an outcome at a limit.
* `Options.perform_limited` — a limit cuts an invocation, and does nothing else to it.
* `Options.WritesNothing` — an unreadable script, or one of blank lines.
* `Options.output_eq_empty_iff` — every other invocation writes something.
* `invoke_full` — invocations on a full device.
-/

namespace OperatorChain

/-! ## Limits -/

/-- What becomes of an outcome when only the first `limit` bytes of its output are taken: if there
are others, they are missing, and the fault takes the place of code and errors. -/
def Outcome.cutAt (limit : Nat) (fault : StreamFault) (outcome : Outcome) : Outcome :=
  if limit < outcome.output.size then
    ⟨1, outcome.output.take limit, brokenOutputText fault ++ ['\n']⟩
  else outcome

/-- **A limit cuts the outcome of a computation that ends**, also of one whose answer is a failure
already. -/
theorem Outcome.ofWriting_limited {action : Writing Bool} {bytes : List UInt8} {succeeded : Bool}
    (h : action.Yields bytes (.ok succeeded)) (limit : Nat) (fault : StreamFault) :
    ofWriting action (.limited limit fault) = (ofWriting action .unlimited).cutAt limit fault := by
  have houtput : (action .unlimited).2.written = bytes.toArray := by
    rw [← h.output_eq, Writing.output]
  rw [ofWriting_unlimited h, ofWriting, h.limited limit fault, Writing.cutAt, houtput, cutAt]
  by_cases hlt : limit < bytes.toArray.size
  · rw [if_pos hlt, if_pos hlt]
  · have hend : (action .unlimited).1 = .ok succeeded := h.outcome_eq
    have htake : bytes.toArray.take limit = bytes.toArray := by
      rw [Array.take_eq_extract, Array.extract_eq_self_of_le (by omega)]
    rw [if_neg hlt, if_neg hlt, hend, htake]
    cases succeeded <;> rfl

/-- **A limit cuts an invocation**, whichever of the three things it does. -/
theorem Options.perform_limited (options : Options) (input : List UInt8)
    (readFile? : List Char → Option (List UInt8)) (limit : Nat) (fault : StreamFault) :
    options.perform ⟨input, readFile?, .limited limit fault⟩ =
      (options.perform ⟨input, readFile?, .unlimited⟩).cutAt limit fault := by
  unfold perform
  dsimp only
  cases options.operand with
  | none =>
    obtain ⟨finished, unfinished, hcut⟩ := exists_isCut Session.lineEnd input
    exact Outcome.ofWriting_limited (yields_hold options.settings hcut) limit fault
  | some operand =>
    cases options.file with
    | false =>
      exact Outcome.ofWriting_limited (yields_report_output options.settings operand) limit fault
    | true =>
      dsimp only
      rw [if_pos rfl, if_pos rfl]
      cases (readFile? operand).bind Utf8.decode? with
      | none => exact (if_neg (Nat.not_lt_zero limit)).symm
      | some script =>
        exact Outcome.ofWriting_limited (yields_reportScript options.settings script) limit fault

/-! ## Invocations that write something -/

theorem encode_line_ne_nil (text : List Char) : Utf8.encode (text ++ ['\n']) ≠ [] := by
  rw [Utf8.encode_append]
  exact List.append_ne_nil_of_right_ne_nil _ (List.cons_ne_nil _ _)

/-- Something is printed for every expression. -/
theorem output_report_ne_nil (settings : Settings) (expression : List Char) :
    (report settings expression).output ≠ [] := by
  rw [(yields_report settings expression).output_eq]
  rcases reportLines_cases with ⟨message, -, hlines⟩ | ⟨steps, value, -, hlines⟩
  · rw [hlines, List.flatMap_singleton]
    exact encode_line_ne_nil _
  · rw [hlines, List.flatMap_append, List.flatMap_singleton]
    exact List.append_ne_nil_of_right_ne_nil _ (encode_line_ne_nil _)

theorem output_reports_eq_nil_iff {settings : Settings} {expressions : List (List Char)} :
    (expressions.flatMap fun expression => (report settings expression).output) = [] ↔
      expressions = [] := by
  cases expressions with
  | nil => simp
  | cons expression rest => simp [output_report_ne_nil]

/-- Every session asks for a line. -/
theorem Session.dialogue_ne_nil (settings : Settings) (texts : List (List Char)) :
    dialogue settings texts ≠ [] :=
  List.append_ne_nil_of_right_ne_nil _ (by decide)

/-- The operand names a script that cannot be read, or one that has nothing but blank lines. -/
def Options.WritesNothing (options : Options)
    (readFile? : List Char → Option (List UInt8)) : Prop :=
  options.file = true ∧ ∃ path, options.operand = some path ∧
    ((readFile? path).bind Utf8.decode? = none ∨
      ∃ script, (readFile? path).bind Utf8.decode? = some script ∧
        ∀ line ∈ lines script, trim line = [])

theorem scriptExpressions_eq_nil_iff {script : List Char} :
    scriptExpressions script = [] ↔ ∀ line ∈ lines script, trim line = [] := by
  simp [scriptExpressions, List.filter_eq_nil_iff]

/-- **An invocation writes something**, unless there is nothing in its script. -/
theorem Options.output_eq_empty_iff (options : Options) (input : List UInt8)
    (readFile? : List Char → Option (List UInt8)) :
    (options.perform ⟨input, readFile?, .unlimited⟩).output = #[] ↔
      options.WritesNothing readFile? := by
  cases hoperand : options.operand with
  | none =>
    obtain ⟨finished, unfinished, hcut⟩ := exists_isCut Session.lineEnd input
    rw [perform_session hoperand hcut readFile?]
    simp [WritesNothing, hoperand, Session.dialogue_ne_nil]
  | some path =>
    rw [perform_expressions hoperand input readFile?]
    cases hscript : options.file with
    | false => simp [WritesNothing, expressions?, hoperand, hscript, output_report_ne_nil]
    | true =>
      have hexpressions : options.expressions? readFile? =
          ((readFile? path).bind Utf8.decode?).map scriptExpressions := by
        rw [expressions?, hoperand, Option.bind_some, if_pos hscript]
      have hnothing : options.WritesNothing readFile? ↔
          (readFile? path).bind Utf8.decode? = none ∨
            ∃ script, (readFile? path).bind Utf8.decode? = some script ∧
              ∀ line ∈ lines script, trim line = [] := by
        simp only [WritesNothing, hscript, hoperand, Option.some.injEq, exists_eq_left', true_and]
      rw [hexpressions, hnothing]
      generalize (readFile? path).bind Utf8.decode? = read
      cases read with
      | none => simp
      | some script =>
        rw [Option.map_some]
        simp [output_reports_eq_nil_iff, scriptExpressions_eq_nil_iff, -List.flatMap_eq_nil_iff]

/-! ## A full device -/

/-- **Lost output is never reported as success.**  Take any arguments that can be carried out, any
input and any files.  On a full device the invocation fails and says why if it writes anything at
all where nothing limits it, whatever its outcome is there; and else it has the same outcome.  All
that write nothing are those whose script cannot be read or has nothing but blank lines, so a
session and the report of one expression are never among them. -/
theorem invoke_full {arguments : List (List Char)} {options : Options}
    (h : Options.ofArguments arguments = .ok options) (input : List UInt8)
    (readFile? : List Char → Option (List UInt8)) :
    let working := invoke arguments ⟨input, readFile?, .unlimited⟩
    let full := invoke arguments ⟨input, readFile?, .limited 0 .noSpace⟩
    (working.output ≠ #[] → full.code = 1 ∧ full.output = #[] ∧
        full.errors = "I/O error: No space left on device (os error 28)\n".toList) ∧
      (working.output = #[] → full = working) ∧
      (working.output = #[] ↔ options.WritesNothing readFile?) ∧
      (options.operand = none ∨ options.file = false → working.output ≠ #[]) := by
  intro working full
  have hworking : working = options.perform ⟨input, readFile?, .unlimited⟩ := invoke_of_ok h _
  have hfull : full = working.cutAt 0 .noSpace := by
    rw [hworking, ← Options.perform_limited]
    exact invoke_of_ok h _
  have hempty : working.output = #[] ↔ options.WritesNothing readFile? := by
    rw [hworking]
    exact options.output_eq_empty_iff input readFile?
  refine ⟨fun hsome => ?_, fun hnone => ?_, hempty, fun hother hnone => ?_⟩
  · have hlt : 0 < working.output.size := Array.size_pos_iff.2 hsome
    rw [hfull, Outcome.cutAt, if_pos hlt]
    refine ⟨rfl, ?_, rfl⟩
    simp
  · rw [hfull, Outcome.cutAt, if_neg (by simp [hnone])]
  · obtain ⟨hfile, path, hoperand, -⟩ := hempty.1 hnone
    rcases hother with hsession | hexpression
    · cases hsession.symm.trans hoperand
    · cases hexpression.symm.trans hfile

/-- An expression that fails anyway, and a script of blank lines. -/
theorem invoke_full_quotient :
    let readFile? := fun path =>
      if path = "blank".toList then some (Utf8.encode " \n\t".toList) else none
    let quotient := invoke ["7 / 0".toList] ⟨[], readFile?, .limited 0 .noSpace⟩
    Options.ofArguments ["7 / 0".toList] = .ok ⟨false, none, false, false, 0, some "7 / 0".toList⟩ ∧
      quotient.code = 1 ∧
      quotient.errors = "I/O error: No space left on device (os error 28)\n".toList ∧
      invoke ["-f".toList, "blank".toList] ⟨[], readFile?, .limited 0 .noSpace⟩ = ⟨0, #[], []⟩ := by
  intro readFile? quotient
  have hquotient : Options.ofArguments ["7 / 0".toList] =
      .ok ⟨false, none, false, false, 0, some "7 / 0".toList⟩ := rfl
  have hblank : Options.ofArguments ["-f".toList, "blank".toList] =
      .ok ⟨true, none, false, false, 0, some "blank".toList⟩ := rfl
  obtain ⟨hlost, -, -, hwrites⟩ := invoke_full hquotient [] readFile?
  obtain ⟨hcode, -, herrors⟩ := hlost (hwrites (.inr rfl))
  obtain ⟨-, hsame, hnothing, -⟩ := invoke_full hblank [] readFile?
  have hscript : (readFile? "blank".toList).bind Utf8.decode? = some " \n\t".toList := by
    decide +kernel
  refine ⟨hquotient, hcode, herrors, ?_⟩
  rw [hsame (hnothing.2 ⟨rfl, _, rfl, .inr ⟨_, hscript, by decide⟩⟩)]
  decide +kernel

end OperatorChain
