import Mathlib.Order.Bounds.Defs
import OperatorChain.Proofs.Course

/-!
# Where a division by zero comes from

A product or a quotient has its turn before every operator that stands on its right.  So whatever
has been contracted before, the literal on its right is still its right operand: only left operands
are ever computed.  Hence no computation makes a divisor zero, and whether a quotient fails for its
divisor can be told from the text.

* `Graph.DividesByZero` — a quotient with zero for a literal on its right.
* `Logs.holder_single` — a literal is in its place as long as the operators on both sides of it are
  to come.
* `Run.TakesLiterals`, `Calculation.takesLiterals` — every product and quotient of a run has the
  literal for its right operand.
* `Calculation.fault_eq_divisionByZero_iff` — a run fails for a divisor just where one is zero from
  the start.
* `Calculation.divisionByZero_first` — which division by zero is told, and what may be told instead.
-/

namespace OperatorChain

/-- Only a quotient with divisor zero fails for its divisor. -/
theorem Operator.apply_eq_divisionByZero_iff {op : Operator} {left right : Int} {p q : Nat} :
    op.apply left right p = .error (.divisionByZero q) ↔ op = .divide ∧ right = 0 ∧ p = q := by
  rw [apply, result?_eq]
  by_cases hzero : op = .divide ∧ right = 0
  · simp [hzero]
  · rw [if_neg hzero]
    dsimp only
    split <;> simp <;> tauto

/-- A stretch of one literal has no operation in its tree. -/
theorem Tree.ofHistory_single (history : List Nat) (low : Nat) :
    ofHistory history low low = .literal low := by
  induction history with
  | nil => rfl
  | cons position earlier ih => rw [ofHistory_cons_of_not_mem (by omega), ih]

namespace Graph

/-! ## Literals that are still operands -/

/-- The operator at the position divides by the literal on its right, and that is zero. -/
def DividesByZero (g : Graph) (position : Nat) : Prop :=
  g.edges[position]?.map Edge.operator = some .divide ∧
    g.nodes[position + 1]?.map Node.value = some 0

instance (g : Graph) (position : Nat) : Decidable (g.DividesByZero position) :=
  inferInstanceAs (Decidable (_ ∧ _))

/-- There is a literal on the right of every operator. -/
theorem succ_lt_size_nodes_layout {c : Chain Int} {p : Nat} (h : p < (layout c true).edges.size) :
    p + 1 < (layout c true).nodes.size := by
  simpa using h

theorem dividesByZero_layout_iff {c : Chain Int} {p : Nat} :
    (layout c true).DividesByZero p ↔ p < (layout c true).edges.size ∧
      (layout c true).operatorAt p = .divide ∧ (layout c true).valueAt (p + 1) = 0 := by
  rw [DividesByZero, operatorAt, valueAt]
  by_cases hp : p < (layout c true).edges.size
  · have hp' := succ_lt_size_nodes_layout hp
    rw [Array.getElem?_eq_getElem hp, Array.getElem?_eq_getElem hp']
    simp only [hp, Option.map_some, Option.some.injEq, true_and]
  · rw [Array.getElem?_eq_none (Nat.le_of_not_lt hp)]
    simp only [hp, Option.map_none, reduceCtorEq, false_and]

/-- A literal with nothing done on either side of it holds its own stretch. -/
theorem Logs.holder_single {start g : Graph} {order : List Nat} {holder : Nat → Nat}
    (h : Logs start g order holder) {p : Nat} (hlt : p < g.edges.size) (hp : p ∉ order)
    (hnext : p + 1 ∉ order) : holder (p + 1) = p + 1 := by
  have hsingle : Stretch g.edges.size order.reverse (p + 1) (p + 1) := by
    refine ⟨Nat.le_refl _, hlt, fun q hq hq' => by omega, fun q hq => ?_, fun _ => ?_⟩
    · obtain rfl : p = q := by omega
      rwa [List.mem_reverse]
    · rwa [List.mem_reverse]
  -- the tree of the literal is the literal, and that stands below its own node only
  have htree := h.tree hsingle
  rw [Tree.ofHistory_single] at htree
  generalize hindex : holder (p + 1) = index at htree
  cases htree with
  | literal => rfl

/-- An edge that is pending names the nodes that hold the stretches beside it. -/
theorem Logs.eq_of_pending {start g : Graph} {order : List Nat} {holder : Nat → Nat}
    (h : Logs start g order holder) {p : Nat} {edge : Edge} (hedge : g.edges[p]? = some edge)
    (hpending : edge.contracted = false) :
    p < start.edges.size ∧ p ∉ order ∧
      edge =
        ⟨start.operatorAt p, p, holder (stretchStart order.reverse p), holder (p + 1), false⟩ := by
  obtain ⟨hlt, hnot⟩ := h.follows.represents.pending_iff.1 ⟨edge, hedge, hpending⟩
  have heq := hedge.symm.trans (h.follows.represents.edge (stretch_of_not_mem hlt hnot) hlt)
  rw [h.follows.size_edges] at hlt
  rw [List.mem_reverse] at hnot
  exact ⟨hlt, hnot, Option.some.inj heq⟩

/-- Before a product or a quotient come only products and quotients on its left. -/
theorem le_of_order {c : Chain Int} {before after : List Nat}
    (h : before ++ after = (layout c true).order) {p q : Nat} (hp : p ∈ before) (hq : q ∈ after)
    (hop : ((layout c true).operatorAt q).isSum = false) :
    ((layout c true).operatorAt p).isSum = false ∧ p ≤ q := by
  rcases priorityAt_le_iff.1 (priorityAt_le_of_order h hp hq) with ⟨-, hsum⟩ | ⟨hsame, hle⟩
  · rw [hop] at hsum
    cases hsum
  · exact ⟨hsame.trans hop, hle⟩

end Graph

/-- Every product and quotient takes the literal on its right, whether it is pending or has had its
turn. -/
structure Run.TakesLiterals (start : Graph) (steps : List Step) (run : Run) : Prop where
  /-- The literal is still the operand, and still has its value. -/
  pending : ∀ {p : Nat} {edge : Edge}, run.graph.edges[p]? = some edge → edge.contracted = false →
    edge.operator.isSum = false →
      edge.right = p + 1 ∧ run.graph.nodes[p + 1]? = start.nodes[p + 1]?
  step : ∀ step ∈ steps, step.operator.isSum = false →
    start.nodes[step.position + 1]?.map Node.value = some step.right

namespace Calculation

section Run

variable {strategy : Strategy} {text : List Char} {e : Chain Int} {steps : List Step} {run : Run}

/-- What has had no turn is still to come. -/
theorem mem_remaining (he : Chain.ofText? text = some e)
    (hr : (start ⟨.layout e true, strategy⟩).Reaches steps run) {p : Nat}
    (hlt : p < (Graph.layout e true).edges.size) (hp : p ∉ steps.map Step.position) :
    p ∈ run.graph.remaining := by
  obtain ⟨-, -, horder⟩ := reaches_logs he hr
  have hturn := (Graph.perm_order_layout e).mem_iff.2 (List.mem_range.2 hlt)
  rw [← horder] at hturn
  exact (List.mem_append.1 hturn).resolve_left hp

/-- **A product or a quotient that is still to come** has the literal on its right for its right
operand, because the operator behind that comes later. -/
theorem right_of_not_isSum (he : Chain.ofText? text = some e)
    (hr : (start ⟨.layout e true, strategy⟩).Reaches steps run) {holder : Nat → Nat}
    (hlogs : (Graph.layout e true).Logs run.graph (steps.map Step.position) holder) {p : Nat}
    (hlt : p < (Graph.layout e true).edges.size) (hp : p ∉ steps.map Step.position)
    (hop : ((Graph.layout e true).operatorAt p).isSum = false) :
    holder (p + 1) = p + 1 ∧ run.graph.nodes[p + 1]? = (Graph.layout e true).nodes[p + 1]? := by
  have hnext : p + 1 ∉ steps.map Step.position := by
    intro hmem
    obtain ⟨-, -, horder⟩ := reaches_logs he hr
    have hle := (Graph.le_of_order horder hmem (mem_remaining he hr hlt hp) hop).2
    omega
  exact ⟨hlogs.holder_single (by rwa [hlogs.follows.size_edges]) hp hnext,
    hlogs.literal (Graph.succ_lt_size_nodes_layout hlt)⟩

/-- **What every step of a run is**: its operator applied to its operands, the right one of a
product or quotient being a literal. -/
theorem step_of_reaches (he : Chain.ofText? text = some e)
    (hr : (start ⟨.layout e true, strategy⟩).Reaches steps run) :
    ∀ step ∈ steps, step.position < (Graph.layout e true).edges.size ∧
      step.operator = (Graph.layout e true).operatorAt step.position ∧
      step.operator.apply step.left step.right step.position = .ok step.result ∧
      (step.operator.isSum = false →
        step.right = (Graph.layout e true).valueAt (step.position + 1)) := by
  -- by induction on the turns, with the literals where they are before each of them
  induction hr with
  | refl => exact fun _ hmem => absurd hmem List.not_mem_nil
  | @next steps run₁ run₂ last hr hnext ih =>
    intro step hmem
    rcases List.mem_append.1 hmem with hmem | hlast
    · exact ih step hmem
    · obtain rfl := List.mem_singleton.1 hlast
      obtain ⟨⟨c, hc⟩, ⟨holder, hlogs⟩, -⟩ := reaches_logs he hr
      obtain ⟨-, ⟨edge, hedge, hpending⟩, -⟩ := hc.next_contracts hnext
      obtain ⟨hlt, hnot, -⟩ := hlogs.eq_of_pending hedge hpending
      obtain ⟨happly, hstep, -⟩ := hlogs.follows.contract_ok (Array.getElem?_eq_some_iff.1 hedge).1
        (fun hmem => hnot (List.mem_reverse.1 hmem)) (Run.contract_of_next hnext)
      have hop : step.operator = (Graph.layout e true).operatorAt step.position :=
        congrArg Step.operator hstep
      refine ⟨hlt, hop, ?_, fun hsum => ?_⟩
      · rw [hstep]
        exact happly
      · rw [hop] at hsum
        obtain ⟨hholder, hnode⟩ := right_of_not_isSum he hr hlogs hlt hnot hsum
        have hright : step.right = run₁.graph.valueAt (holder (step.position + 1)) :=
          congrArg Step.right hstep
        rw [hright, hholder, Graph.valueAt, Graph.valueAt, hnode]

/-- **All products and quotients of a run take literals.** -/
theorem takesLiterals (he : Chain.ofText? text = some e)
    (hr : (start ⟨.layout e true, strategy⟩).Reaches steps run) :
    run.TakesLiterals (.layout e true) steps := by
  constructor
  case pending =>
    intro p edge hedge hpending hop
    obtain ⟨-, ⟨holder, hlogs⟩, -⟩ := reaches_logs he hr
    obtain ⟨hlt, hnot, rfl⟩ := hlogs.eq_of_pending hedge hpending
    exact right_of_not_isSum he hr hlogs hlt hnot hop
  case step =>
    intro step hmem hop
    obtain ⟨hlt, -, -, hright⟩ := step_of_reaches he hr step hmem
    rw [hright hop, Graph.valueAt,
      Array.getElem?_eq_getElem (Graph.succ_lt_size_nodes_layout hlt), Option.map_some]

/-! ## The failure -/

/-- A quotient whose literal is zero has no turn that succeeds. -/
theorem not_mem_of_dividesByZero (he : Chain.ofText? text = some e)
    (hr : (start ⟨.layout e true, strategy⟩).Reaches steps run) {p : Nat}
    (hp : (Graph.layout e true).DividesByZero p) : p ∉ steps.map Step.position := by
  intro hmem
  obtain ⟨step, hstep, rfl⟩ := List.mem_map.1 hmem
  obtain ⟨-, hop, hzero⟩ := Graph.dividesByZero_layout_iff.1 hp
  obtain ⟨-, hoperator, happly, hright⟩ := step_of_reaches he hr step hstep
  rw [hop] at hoperator
  rw [hoperator] at hright happly
  rw [Operator.apply_eq_divisionByZero_iff.2 ⟨rfl, (hright rfl).trans hzero, rfl⟩] at happly
  cases happly

/-- **A run fails for a divisor just where the divisor is zero from the start.** -/
theorem fault_eq_divisionByZero_iff (he : Chain.ofText? text = some e)
    (hr : (start ⟨.layout e true, strategy⟩).Reaches steps run) {failure : Failure}
    (hstops : run.Stops (some failure)) :
    failure.fault = .divisionByZero ↔ (Graph.layout e true).DividesByZero failure.position := by
  obtain ⟨-, ⟨holder, hlogs⟩, -⟩ := reaches_logs he hr
  cases hstops with
  | @failed failure edge rest agenda hedge hpending happly _ _ =>
    obtain ⟨hlt, hnot, rfl⟩ := hlogs.eq_of_pending hedge hpending
    -- what is divided by is the literal
    have hright : (Graph.layout e true).operatorAt failure.position = .divide →
        run.graph.valueAt (holder (failure.position + 1)) =
          (Graph.layout e true).valueAt (failure.position + 1) := by
      intro hop
      obtain ⟨hholder, hnode⟩ := right_of_not_isSum he hr hlogs hlt hnot (by rw [hop]; rfl)
      rw [hholder, Graph.valueAt, Graph.valueAt, hnode]
    rw [Graph.dividesByZero_layout_iff]
    constructor
    · intro hfault
      rw [Failure.error, hfault] at happly
      obtain ⟨hop, hzero, -⟩ := Operator.apply_eq_divisionByZero_iff.1 happly
      exact ⟨hlt, hop, (hright hop).symm.trans hzero⟩
    · rintro ⟨-, hop, hzero⟩
      dsimp only at happly
      rw [Operator.apply_eq_divisionByZero_iff.2 ⟨hop, (hright hop).trans hzero, rfl⟩] at happly
      have herror : Fault.divisionByZero.at failure.position = failure.error :=
        Except.error.inj happly
      exact (Fault.at_inj.1 herror).1.symm

/-- A division by zero is the failure, or comes behind a product or quotient that fails. -/
theorem failure_le_of_dividesByZero (he : Chain.ofText? text = some e)
    (hr : (start ⟨.layout e true, strategy⟩).Reaches steps run) {failure? : Option Failure}
    (hstops : run.Stops failure?) {p : Nat} (hp : (Graph.layout e true).DividesByZero p) :
    ∃ failure, failure? = some failure ∧
      ((Graph.layout e true).operatorAt failure.position).isSum = false ∧ failure.position ≤ p := by
  obtain ⟨hlt, hop, -⟩ := Graph.dividesByZero_layout_iff.1 hp
  have hsum : ((Graph.layout e true).operatorAt p).isSum = false := by
    rw [hop]
    rfl
  have hremaining := mem_remaining he hr hlt (not_mem_of_dividesByZero he hr hp)
  obtain ⟨-, -, horder⟩ := reaches_logs he hr
  cases hstops with
  | done _ hnone =>
    rw [hnone] at hremaining
    exact absurd hremaining List.not_mem_nil
  | @failed failure edge rest agenda hedge hpending happly hfirst _ =>
    refine ⟨failure, rfl, ?_⟩
    rw [hfirst] at hremaining horder
    rcases List.mem_cons.1 hremaining with rfl | hrest
    · exact ⟨hsum, Nat.le_refl _⟩
    · rw [List.append_cons] at horder
      exact Graph.le_of_order horder (by simp) hrest hsum

end Run

/-- **Where a division by zero comes from.**  The right operand of every product and quotient is a
literal.  So a division by zero is told only of the first quotient with a literal zero on its right;
and if there is such a quotient there is no value, and nothing else is told but the overflow of a
product or a quotient on its left, whatever the sums and differences come to. -/
theorem divisionByZero_first {strategy : Strategy} {text : List Char} {calculation : Calculation}
    (h : ofText strategy text = .ok calculation) :
    (∀ {steps : List Step} {run : Run}, calculation.start.Reaches steps run →
        run.TakesLiterals calculation.graph steps) ∧
      (∀ {p : Nat}, calculation.value = .error (.divisionByZero p) →
        IsLeast {q | calculation.graph.DividesByZero q} p) ∧
      ((∀ p, ¬ calculation.graph.DividesByZero p) →
        ∀ p, calculation.value ≠ .error (.divisionByZero p)) ∧
      ∀ {p : Nat}, IsLeast {q | calculation.graph.DividesByZero q} p →
        calculation.value = .error (.divisionByZero p) ∨
          ∃ q < p, (calculation.graph.operatorAt q).isSum = false ∧
            calculation.value = .error (.overflow q) := by
  obtain ⟨e, he, rfl⟩ := ofText_eq_ok_iff.1 h
  obtain ⟨c, hc, -⟩ := exists_shows_start strategy he
  obtain ⟨steps, failure?, run, hr, hstops⟩ := hc.exists_stops
  have hvalue := value_eq_outcome he hr hstops
  have hfirst : ∀ {p : Nat}, Calculation.value ⟨.layout e true, strategy⟩ =
      .error (.divisionByZero p) → IsLeast {q | (Graph.layout e true).DividesByZero q} p := by
    intro p herror
    rw [hvalue] at herror
    obtain _ | failure := failure?
    · cases herror
    · obtain ⟨hfault, rfl⟩ := Fault.at_inj.1
        (show failure.error = Fault.divisionByZero.at p from Except.error.inj herror)
      refine ⟨(fault_eq_divisionByZero_iff he hr hstops).1 hfault, fun q hq => ?_⟩
      obtain ⟨_, heq, -, hle⟩ := failure_le_of_dividesByZero he hr hstops hq
      cases heq
      exact hle
  refine ⟨fun hr => takesLiterals he hr, hfirst,
    fun hnone p herror => hnone p (hfirst herror).1, ?_⟩
  rintro p ⟨hp, hleast⟩
  obtain ⟨⟨fault, q⟩, rfl, hsum, hle⟩ := failure_le_of_dividesByZero he hr hstops hp
  have hiff := fault_eq_divisionByZero_iff he hr hstops
  cases fault with
  | divisionByZero =>
    obtain rfl : q = p := Nat.le_antisymm hle (hleast (hiff.1 rfl))
    exact .inl hvalue
  | overflow =>
    refine .inr ⟨q, Nat.lt_of_le_of_ne hle ?_, hsum, hvalue⟩
    rintro rfl
    cases hiff.2 hp

/-- The first of two divisions by zero is told, and not the sum that has no room. -/
theorem divisionByZero_first_of_two :
    ∃ calculation,
      ofText .queue "9223372036854775807 + 1 - 6 / 0 - 3 / 0".toList = .ok calculation ∧
      calculation.graph.DividesByZero 4 ∧
      IsLeast {q | calculation.graph.DividesByZero q} 2 ∧
      calculation.value = .error (.divisionByZero 2) ∧
      Operator.add.apply maxValue 1 0 = .error (.overflow 0) := by
  have hg : ofText .queue "9223372036854775807 + 1 - 6 / 0 - 3 / 0".toList =
      .ok ⟨.layout ((((((Chain.single 9223372036854775807).snoc 0 .add 1).snoc 1 .subtract 6).snoc 2
        .divide 0).snoc 3 .subtract 3).snoc 4 .divide 0) true, .queue⟩ := rfl
  obtain ⟨-, hleast, -⟩ := divisionByZero_first hg
  exact ⟨_, hg, ⟨rfl, rfl⟩, hleast rfl, rfl, by decide⟩

end Calculation

end OperatorChain
