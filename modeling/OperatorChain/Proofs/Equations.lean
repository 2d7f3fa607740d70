import OperatorChain.Proofs.Divisors
import OperatorChain.Proofs.Spelling

/-!
# Steps that can be checked

What is printed for a step can be checked without knowing how the run came to it.  The text of a
step is an equation behind a position.  All parts of the step can be read back from it, and the
equation is true: its left side is an expression, and its right side is the value of that.  The
position names the operator in the text of the calculation, and each operand comes from somewhere,
since an operand that is live is a literal until a turn makes it.

* `Step.operation`, `Step.ofText?` — the left side of the equation, and the reader of steps.
* `Step.ofText?_text` — reading undoes writing.
* `Step.evaluateText_operation` — the equation is true.
* `Shows.reaches_operands` — what is live is a literal or the result of a turn.
* `Calculation.Origin` — where the operand of a turn can come from.
* `Calculation.next_equation` — all of it about every step that a run answers.
-/

namespace OperatorChain

namespace Step

/-! ## The equation -/

/-- The left side of the equation: the operator between its operands. -/
def operation (step : Step) : List Char :=
  decimal step.left ++ ' ' :: step.operator.symbol :: ' ' :: decimal step.right

theorem text_eq (step : Step) :
    step.text = "#".toList ++ naturalDecimal step.position ++ ": ".toList ++ step.operation ++
      " = ".toList ++ decimal step.result := by
  simp [text, operation]

/-! ## Reading a step -/

/-- The position in front of the equation, with the marks around it. -/
def label (position : Nat) : List Char :=
  '#' :: (naturalDecimal position ++ [':'])

/-- The position in a label. -/
def readLabel? : List Char → Option Nat
  | '#' :: rest => if rest.getLast? = some ':' then readNatural? rest.dropLast else none
  | _ => none

/-- The step that a text tells, word by word. -/
def ofText? (text : List Char) : Option Step :=
  match words text with
  | [position, left, operator, right, ['='], result] => do
    let position ← readLabel? position
    let left ← readInteger? left
    let operator ← Operator.ofWord? operator
    let right ← readInteger? right
    let result ← readInteger? result
    return ⟨position, operator, left, right, result⟩
  | _ => none

theorem readLabel?_label (position : Nat) : readLabel? (label position) = some position := by
  simp [label, readLabel?, readNatural?_naturalDecimal]

theorem isWord_label (position : Nat) : IsWord (label position) := by
  refine .cons (by decide) ⟨by simp, fun c hc => ?_⟩
  rcases List.mem_append.1 hc with hc | hc
  · exact isBlank_of_isDigit (isDigit_of_mem_naturalDecimal hc)
  · rw [List.mem_singleton.1 hc]
    decide

theorem words_text (step : Step) :
    words step.text = [label step.position, decimal step.left, [step.operator.symbol],
      decimal step.right, ['='], decimal step.result] := by
  have hspace : isBlank ' ' = true := by decide
  have hequals : IsWord ['='] := .singleton (by decide)
  have hcut : step.text = label step.position ++ ' ' :: (decimal step.left ++
      ' ' :: step.operator.symbol :: ' ' :: (decimal step.right ++
        ' ' :: (['='] ++ ' ' :: decimal step.result))) := by
    simp [text, label]
  rw [hcut, words_append_cons hspace, words_append_symbol, words_append_cons hspace,
    words_append_cons hspace, (isWord_label step.position).words_eq, hequals.words_eq]
  simp [words_decimal]

/-- **Reading undoes writing.**  Nothing of a step is lost in its text. -/
theorem ofText?_text (step : Step) : ofText? step.text = some step := by
  simp [ofText?, words_text, readLabel?_label, readInteger?_decimal, Operator.ofWord?_symbol]

end Step

/-! ## The equation is true -/

/-- Where an operator can be applied does not depend on its position. -/
theorem Operator.apply_eq_ok_congr {op : Operator} {left right value : Int} {p : Nat}
    (h : op.apply left right p = .ok value) (q : Nat) : op.apply left right q = .ok value := by
  unfold apply at *
  split at h
  · cases h
  · split at h
    · rw [if_pos ‹_›]
      exact h
    · cases h

/-- The chain of one operator is answered as the operator. -/
theorem Chain.reference_pair (left : Int) (op : Operator) (right : Int) :
    ((Chain.single left).snoc 0 op right).reference = op.apply left right 0 := by
  have hfirst : ((Chain.single left).snoc 0 op right).First 0 left op right :=
    ⟨rfl, by simp [priorities]⟩
  rw [reference_of_first (by simp [positions]) hfirst]
  cases op.apply left right 0 with
  | error error => rfl
  | ok result => rfl

/-- The numeral of a value in range is an expression with this value. -/
theorem evaluateText_decimal {value : Int} (h : InRange value) (strategy : Strategy) :
    evaluateText strategy (decimal value) = .ok value := by
  have hread := @Chain.ofText?_text (.single value) (by simpa [Chain.operands] using h)
  exact evaluateText_of_ofText? hread strategy

namespace Step

/-- **The left side of the equation is an expression, and its value is the right side.** -/
theorem evaluateText_operation {step : Step} (hleft : InRange step.left)
    (hright : InRange step.right)
    (happly : step.operator.apply step.left step.right step.position = .ok step.result)
    (strategy : Strategy) : evaluateText strategy step.operation = .ok step.result := by
  have hread := @Chain.ofText?_text ((Chain.single step.left).snoc 0 step.operator step.right)
    (by simp [Chain.operands, hleft, hright])
  have hvalue := evaluateText_of_ofText? hread strategy
  have hpair : ((Chain.single step.left).snoc 0 step.operator step.right).renumber.reference =
      .ok step.result :=
    (Chain.reference_pair _ _ _).trans (Operator.apply_eq_ok_congr happly 0)
  rw [hpair] at hvalue
  exact hvalue

end Step

namespace Run

/-! ## Where operands come from -/

/-- A step tells the first operator of the chain and the values of its operands. -/
theorem Shows.first_of_next {run run' : Run} {c : Chain Nat} {step : Step} (h : run.Shows c)
    (hnext : run.next = (some (.ok step), run')) :
    (c.map run.graph.valueAt).First step.position step.left step.operator step.right := by
  rcases h.next_cases with ⟨-, heq⟩ | ⟨position, left, operator, right, hfirst,
    ⟨error, agenda, -, heq⟩ | ⟨result, run'', -, heq, -⟩⟩
  · rw [heq] at hnext
    cases hnext
  · rw [heq] at hnext
    cases hnext
  · rw [heq] at hnext
    cases hnext
    exact hfirst.map run.graph.valueAt

/-- **What is live comes from somewhere**: it has been live from the start, or it is the result of a
turn. -/
theorem Shows.reaches_operands {run run' : Run} {c : Chain Nat} {steps : List Step}
    (h : run.Shows c) (hr : run.Reaches steps run') :
    ∃ c', run'.Shows c' ∧ ∀ a ∈ (c'.map run'.graph.valueAt).operands,
      a ∈ (c.map run.graph.valueAt).operands ∨ a ∈ steps.map Step.result := by
  induction hr with
  | refl => exact ⟨c, h, fun a ha => .inl ha⟩
  | @next steps run₁ run₂ step _ hnext ih =>
    obtain ⟨c₁, h₁, horigin⟩ := ih
    obtain ⟨left, operator, right, -, -, hshows, hvalues⟩ := h₁.next_ok hnext
    refine ⟨_, hshows, fun a ha => ?_⟩
    rw [hvalues] at ha
    rw [List.map_append, List.mem_append]
    rcases Chain.mem_operands_splice ha with rfl | ha
    · exact .inr (.inr (List.mem_singleton_self _))
    · exact (horigin a ha).imp_right .inl

/-- A turn that answers a step comes behind turns that all do. -/
theorem Shows.exists_reaches_of_next {run : Run} {c : Chain Nat} (h : run.Shows c) {count : Nat}
    {step : Step} (hstep : (run.after count).next.1 = some (.ok step)) :
    ∃ steps, steps.length = count ∧ run.Reaches steps (run.after count) := by
  obtain ⟨steps, failure?, run', hr, hstops⟩ := h.exists_stops
  obtain rfl := hr.eq_after
  by_cases hlt : count < steps.length
  · exact ⟨steps.take count, List.length_take_of_le hlt.le, hr.take hlt.le⟩
  · -- from the stop on, no turn answers a step
    obtain ⟨more, rfl⟩ := Nat.exists_eq_add_of_le (Nat.le_of_not_lt hlt)
    rw [after_add] at hstep
    cases more with
    | zero =>
      rw [after, hstops.next_eq] at hstep
      cases failure? <;> cases hstep
    | succ more =>
      have hcount : failure?.toList.length ≤ more + 1 := by
        cases failure? <;> simp
      rw [(hstops.after hcount).1] at hstep
      cases hstep

end Run

namespace Calculation

/-! ## The steps of a run -/

/-- Where an operand of the turn after `count` turns can come from: it is the value of a numeral in
the text, or what an earlier turn has answered. -/
inductive Origin (calculation : Calculation) (text : List Char) (count : Nat) (value : Int) : Prop
  | literal {i : Nat} {word : List Char} : (words text)[2 * i]? = some word → Numeral word value →
      Origin calculation text count value
  | result {turn : Nat} {step : Step} : turn < count →
      (calculation.start.after turn).next.1 = some (.ok step) → step.result = value →
      Origin calculation text count value

section Next

variable {strategy : Strategy} {text : List Char} {e : Chain Int} {steps : List Step} {run : Run}

/-- What is live after some turns has an origin. -/
theorem origin_of_reaches (he : Chain.ofText? text = some e)
    (hr : (start ⟨.layout e true, strategy⟩).Reaches steps run) {value : Int}
    (hvalue : value ∈ e.operands ∨ value ∈ steps.map Step.result) :
    Origin ⟨.layout e true, strategy⟩ text steps.length value := by
  rcases hvalue with hliteral | hresult
  · obtain ⟨i, hi⟩ := List.mem_iff_getElem?.1 hliteral
    obtain ⟨word, hword, hnumeral⟩ := (Chain.spells_of_ofWords? he).getElem?_numeral hi
    exact .literal hword hnumeral
  · obtain ⟨step, hmem, rfl⟩ := List.mem_map.1 hresult
    obtain ⟨turn, hturn⟩ := List.mem_iff_getElem?.1 hmem
    exact .result (List.getElem?_eq_some_iff.1 hturn).1 (hr.next_after hturn) rfl

/-- What is live after some turns is in range. -/
theorem inRange_of_reaches (he : Chain.ofText? text = some e)
    (hr : (start ⟨.layout e true, strategy⟩).Reaches steps run) {value : Int}
    (hvalue : value ∈ e.operands ∨ value ∈ steps.map Step.result) : InRange value := by
  rcases hvalue with hliteral | hresult
  · exact Chain.inRange_of_ofText? he value hliteral
  · obtain ⟨step, hmem, rfl⟩ := List.mem_map.1 hresult
    exact Operator.inRange_of_apply (step_of_reaches he hr step hmem).2.2.1

/-- The operands of the next turn are literals, or have been made by the turns before it. -/
theorem operands_of_next (he : Chain.ofText? text = some e)
    (hr : (start ⟨.layout e true, strategy⟩).Reaches steps run) {run' : Run} {step : Step}
    (hnext : run.next = (some (.ok step), run')) :
    (step.left ∈ e.operands ∨ step.left ∈ steps.map Step.result) ∧
      (step.right ∈ e.operands ∨ step.right ∈ steps.map Step.result) := by
  obtain ⟨c, hc, hvalues⟩ := exists_shows_start strategy he
  obtain ⟨c', hc', hlive⟩ := hc.reaches_operands hr
  obtain ⟨hleft, hright⟩ := Chain.mem_operands_of_around? (hc'.first_of_next hnext).around
  rw [show c.map (start ⟨.layout e true, strategy⟩).graph.valueAt = e from hvalues] at hlive
  exact ⟨hlive _ hleft, hlive _ hright⟩

end Next

/-- **Every step that a run answers can be checked by what is printed.**  Its text is an equation
behind a position, and position, operator, operands and result can be read back from it.  Both sides
of the equation are expressions with the result for their value.  The operator stands at the
position in the text of the calculation, and each operand is a literal of this text or the result of
an earlier turn. -/
theorem next_equation {strategy : Strategy} {text : List Char} {calculation : Calculation}
    {count : Nat} {step : Step} (h : ofText strategy text = .ok calculation)
    (hstep : (calculation.start.after count).next.1 = some (.ok step)) :
    step.text = "#".toList ++ naturalDecimal step.position ++ ": ".toList ++ step.operation ++
        " = ".toList ++ decimal step.result ∧
      Step.ofText? step.text = some step ∧
      (∀ other : Step, other.text = step.text → other = step) ∧
      (∀ strategy, evaluateText strategy step.operation = .ok step.result) ∧
      (∀ strategy, evaluateText strategy (decimal step.result) = .ok step.result) ∧
      (words text)[2 * step.position + 1]? = some [step.operator.symbol] ∧
      Origin calculation text count step.left ∧ Origin calculation text count step.right := by
  obtain ⟨e, he, rfl⟩ := ofText_eq_ok_iff.1 h
  obtain ⟨c, hc, -⟩ := exists_shows_start strategy he
  obtain ⟨steps, rfl, hr⟩ := hc.exists_reaches_of_next hstep
  obtain ⟨run', hnext⟩ : ∃ run', ((start ⟨.layout e true, strategy⟩).after steps.length).next =
      (some (.ok step), run') := ⟨_, Prod.ext hstep rfl⟩
  obtain ⟨hleft, hright⟩ := operands_of_next he hr hnext
  -- the step as one of the turns that end with it
  obtain ⟨hlt, hop, happly, -⟩ :=
    step_of_reaches he (hr.next hnext) step (List.mem_append_right _ (List.mem_singleton_self step))
  refine ⟨step.text_eq, step.ofText?_text, fun other hother => ?_, fun strategy => ?_,
    fun strategy => ?_, ?_, origin_of_reaches he hr hleft, origin_of_reaches he hr hright⟩
  · have hread := other.ofText?_text
    rw [hother, step.ofText?_text] at hread
    exact (Option.some.inj hread).symm
  · exact Step.evaluateText_operation (inRange_of_reaches he hr hleft)
      (inRange_of_reaches he hr hright) happly strategy
  · exact evaluateText_decimal (Operator.inRange_of_apply happly) strategy
  · rw [Graph.size_edges_layout, ← e.length_operators] at hlt
    have hoperator := List.getElem?_eq_getElem hlt
    rw [← Graph.operatorAt_layout hoperator, ← hop] at hoperator
    exact (Chain.spells_of_ofWords? he).getElem?_symbol hoperator

/-- The least value as the result of one turn, and behind the minus sign of the next one. -/
theorem next_equation_minValue :
    ∃ calculation, ofText .queue "-1 - 8 * -1152921504606846976".toList = .ok calculation ∧
      (calculation.start.after 1).next.1 = some (.ok ⟨0, .subtract, -1, minValue, maxValue⟩) ∧
      Step.ofText? "#0: -1 - -9223372036854775808 = 9223372036854775807".toList =
        some ⟨0, .subtract, -1, minValue, maxValue⟩ ∧
      (∀ strategy, evaluateText strategy "-1 - -9223372036854775808".toList = .ok maxValue) ∧
      Origin calculation "-1 - 8 * -1152921504606846976".toList 1 minValue := by
  have hg : ofText .queue "-1 - 8 * -1152921504606846976".toList =
      .ok ⟨.layout (((Chain.single (-1)).snoc 0 .subtract 8).snoc 1 .multiply
        (-1152921504606846976)) true, .queue⟩ := rfl
  have hstep : ((start ⟨.layout (((Chain.single (-1)).snoc 0 .subtract 8).snoc 1 .multiply
      (-1152921504606846976)) true, .queue⟩).after 1).next.1 =
        some (.ok ⟨0, .subtract, -1, minValue, maxValue⟩) := rfl
  obtain ⟨-, hread, -, hvalue, -, -, -, horigin⟩ := next_equation hg hstep
  exact ⟨_, hg, hstep, hread, hvalue, horigin⟩

end Calculation

end OperatorChain
