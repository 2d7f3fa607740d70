import OperatorChain.Proofs.Completion
import OperatorChain.Workbench

/-!
# Requests in any order

A workbench is asked for this and that in any order.  Only taking up another calculation changes the
one that it holds, and only asking for the next contraction of a run changes that run, by one turn.
So each run goes its own way, whatever is asked for in between.

* `Request.Keeps` — the request does not replace the calculation.
* `calculation_handleAll` — requests that keep the calculation leave it as it is.
* `getElem?_runs_handleAll` — a run has had as many turns as were asked for.
* `handle_interleaved` — whatever is asked for in between, the answers are the same.
-/

namespace OperatorChain

/-- The request does not replace the calculation: if it brings a text, this is no expression. -/
def Request.Keeps : Request → Prop
  | .takeUp strategy text => ∃ cause, Calculation.ofText strategy text = .error cause
  | _ => True

theorem Run.getElem?_answers (count : Nat) (run : Run) :
    (run.answers (count + 1))[count]? = some (run.after count).next := by
  induction count generalizing run with
  | zero => rfl
  | succ count ih =>
    rw [answers, List.getElem?_cons_succ, ih]
    rfl

namespace Workbench

variable {bench : Workbench} {number : Nat} {run : Run}

/-! ## One request -/

/-- A request that does not replace the calculation leaves it as it is. -/
theorem calculation_handle {request : Request} (h : request.Keeps) (bench : Workbench) :
    (bench.handle request).2.calculation = bench.calculation := by
  cases request with
  | takeUp strategy text =>
    obtain ⟨cause, hcause⟩ := h
    rw [handle, hcause]
  | begin =>
    rw [handle]
    cases hheld : bench.calculation with
    | none => exact hheld
    | some calculation => rfl
  | next number =>
    rw [handle]
    cases bench.runs[number]? <;> rfl
  | graphOf number =>
    rw [handle]
    cases bench.runs[number]? <;> rfl
  | _ => rfl

/-- **A run has a turn when its next contraction is asked for**, and stays as it is when anything
else is. -/
theorem getElem?_runs_handle (h : bench.runs[number]? = some run) (request : Request) :
    (bench.handle request).2.runs[number]? =
      some (if request = .next number then run.next.2 else run) := by
  have hlt := (Array.getElem?_eq_some_iff.1 h).1
  cases request with
  | takeUp strategy text =>
    rw [handle]
    cases Calculation.ofText strategy text <;> exact h
  | begin =>
    rw [handle]
    cases bench.calculation with
    | none => exact h
    | some calculation =>
      simpa [Array.getElem?_push_lt hlt] using (Array.getElem?_eq_some_iff.1 h).2
  | next other =>
    rw [handle]
    by_cases hother : other = number
    · subst hother
      rw [if_pos rfl, h]
      simp [hlt]
    · rw [if_neg (by simpa using hother)]
      cases bench.runs[other]? with
      | none => exact h
      | some _ => simpa [Array.getElem?_setIfInBounds_ne hother] using h
  | graphOf other =>
    rw [handle]
    cases bench.runs[other]? <;> exact h
  | _ => exact h

theorem handle_next (h : bench.runs[number]? = some run) :
    (bench.handle (.next number)).1 = .next run.next.1 := by
  rw [handle, h]

theorem handle_graphOf (h : bench.runs[number]? = some run) :
    (bench.handle (.graphOf number)).1 = .graph run.graph := by
  rw [handle, h]

/-! ## Requests one after another -/

theorem handleAll_cons (bench : Workbench) (request : Request) (rest : List Request) :
    (bench.handleAll (request :: rest)).2 = ((bench.handle request).2.handleAll rest).2 :=
  rfl

/-- Requests that do not replace the calculation leave it as it is. -/
theorem calculation_handleAll {requests : List Request} (h : ∀ request ∈ requests, request.Keeps)
    (bench : Workbench) : (bench.handleAll requests).2.calculation = bench.calculation := by
  induction requests generalizing bench with
  | nil => rfl
  | cons request rest ih =>
    rw [List.forall_mem_cons] at h
    rw [handleAll_cons, ih h.2, calculation_handle h.1]

/-- **A run has had as many turns as were asked for.** -/
theorem getElem?_runs_handleAll (h : bench.runs[number]? = some run) (requests : List Request) :
    (bench.handleAll requests).2.runs[number]? =
      some (run.after (requests.count (.next number))) := by
  induction requests generalizing bench run with
  | nil => exact h
  | cons request rest ih =>
    rw [handleAll_cons, ih (getElem?_runs_handle h request), List.count_cons]
    by_cases hnext : request = .next number
    · rw [if_pos hnext, if_pos (beq_iff_eq.2 hnext)]
      rfl
    · rw [if_neg hnext, if_neg (mt beq_iff_eq.1 hnext)]
      rfl

/-! ## The answers -/

/-- **Whatever is asked for in between, the answers are the same.**  Let a workbench take up the
calculation of a text and then handle any requests that do not replace it.  It still answers for
this calculation, in which nothing is contracted.  A run that is begun now has its answers one by
one, and its graph after each of them, as the only run of the calculation would: whatever other
requests come in between, also if another calculation is taken up. -/
theorem handle_interleaved {strategy : Strategy} {text : List Char} {calculation : Calculation}
    (h : Calculation.ofText strategy text = .ok calculation) (bench : Workbench)
    {requests : List Request} (hkeeps : ∀ request ∈ requests, request.Keeps) :
    let bench := (bench.handleAll (.takeUp strategy text :: requests)).2
    bench.handle .value = (.value calculation.value, bench) ∧
      bench.handle .steps = (.steps calculation.steps, bench) ∧
      bench.handle .order = (.order calculation.order, bench) ∧
      bench.handle .graph = (.graph calculation.graph, bench) ∧
      (∀ edge ∈ calculation.graph.edges.toList, edge.contracted = false) ∧
      ∃ number begun, bench.handle .begin = (.begun number, begun) ∧
        ∀ others : List Request,
          let bench := (begun.handleAll others).2
          let count := others.count (.next number)
          (bench.handle (.graphOf number)).1 = .graph (calculation.start.after count).graph ∧
            ∃ outcome run, (calculation.start.answers (count + 1))[count]? = some (outcome, run) ∧
              (bench.handle (.next number)).1 = .next outcome ∧
              ((bench.handle (.next number)).2.handle (.graphOf number)).1 = .graph run.graph := by
  intro bench'
  have hheld : bench'.calculation = some calculation := by
    show (bench.handleAll _).2.calculation = _
    rw [handleAll_cons, calculation_handleAll hkeeps, handle, h]
  have hask : ∀ answer : Calculation → Answer, bench'.ask answer = answer calculation := by
    intro answer
    rw [ask, hheld]
  refine ⟨?_, ?_, ?_, ?_, ?_, ?_⟩
  · rw [handle, hask]
  · rw [handle, hask]
  · rw [handle, hask]
  · rw [handle, hask]
  · intro edge hmem
    obtain ⟨e, -, rfl⟩ := Calculation.ofText_eq_ok_iff.1 h
    exact Graph.contracted_eq_false_of_mem_layout hmem
  · refine ⟨bench'.runs.size, ⟨some calculation, bench'.runs.push calculation.start⟩, ?_, ?_⟩
    · rw [handle, hheld]
    · intro others later count
      have hrun : later.runs[bench'.runs.size]? = some (calculation.start.after count) :=
        getElem?_runs_handleAll (by simp) others
      have hturn := getElem?_runs_handle hrun (.next bench'.runs.size)
      rw [if_pos rfl] at hturn
      exact ⟨handle_graphOf hrun, _, _, calculation.start.getElem?_answers count, handle_next hrun,
        handle_graphOf hturn⟩

/-- One run fails before another is begun; then the calculation makes way for a sum, of which a
third run is begun, and the second one comes to its own failure. -/
theorem handle_interleaved_quotient :
    let requests : List Request := [.begin, .next 0, .value, .takeUp .scan "1 +".toList, .next 0]
    let others : List Request := [.next 1, .takeUp .scan "1 + 1".toList, .begin, .next 2]
    let bench := (Workbench.empty.handleAll (.takeUp .queue "2 * 3 / 0".toList :: requests)).2
    let later := ((bench.handle .begin).2.handleAll others).2
    (bench.handle .value).1 = .value (.error (.divisionByZero 1)) ∧
      (bench.handle .begin).1 = .begun 1 ∧
      (later.handle (.next 1)).1 = .next (some (.error (.divisionByZero 1))) := by
  intro requests others bench later
  let calculation : Calculation :=
    ⟨.layout (((Chain.single 2).snoc 0 .multiply 3).snoc 1 .divide 0) true, .queue⟩
  have hquotient : Calculation.ofText .queue "2 * 3 / 0".toList = .ok calculation := rfl
  have hkeeps : ∀ request ∈ requests, request.Keeps := by
    simp only [requests, List.forall_mem_cons]
    exact ⟨trivial, trivial, trivial, ⟨.unexpectedEndOfInput 2, rfl⟩, trivial, by simp⟩
  have hvalue : calculation.value = .error (.divisionByZero 1) := by decide +kernel
  have hturn : (calculation.start.after 1).next.1 = some (.error (.divisionByZero 1)) := by
    decide +kernel
  obtain ⟨hasked, -, -, -, -, number, begun, hbegun, hothers⟩ :=
    handle_interleaved hquotient Workbench.empty hkeeps
  have hone : (bench.handle .begin).1 = .begun 1 := rfl
  obtain rfl : number = 1 := by
    rw [hbegun] at hone
    cases hone
    rfl
  obtain ⟨-, outcome, run, hanswer, hnext, -⟩ := hothers others
  have hcount : others.count (.next 1) = 1 := rfl
  rw [hcount, Run.getElem?_answers] at hanswer
  rw [Option.some.inj hanswer] at hturn
  refine ⟨?_, hone, ?_⟩
  · rw [hasked, hvalue]
  · show (((bench.handle .begin).2.handleAll others).2.handle (.next 1)).1 = _
    rw [hbegun, hnext]
    exact congrArg Answer.next hturn

end Workbench

end OperatorChain
