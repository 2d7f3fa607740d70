import OperatorChain.Calculation
import OperatorChain.Proofs.Agenda
import OperatorChain.Proofs.Reading

/-!
# How a run goes on

Seen from the live chain, a turn of a run is simple: the first operator of the chain and the two
nodes beside it give way to a new node, and nothing else happens to the chain.

* `Graph.Shows`, `Run.Shows` — the graph, or the run, has this live chain.
* `Shows.next_cases` — all that a turn of a run can be.
* `Run.Reaches` — what can be reached by turns that succeed.
* `Calculation.reaches_isLiveChain` — in every graph that is reached the links are in order, and no
  turn, whether it succeeds or not, touches what is done or meets an index that leads nowhere.
-/

namespace OperatorChain

namespace Graph

/-! ## Graphs and their live chain -/

/-- The nodes that hold the stretches of the graph, with the operators between them, are `c`. -/
def Shows (g : Graph) (c : Chain Nat) : Prop :=
  ∃ operator done holder, g.Represents operator done holder ∧
    c = stretchChain holder operator done g.edges.size

/-- Whatever is contracted in `g` is in `g'` with the same operands. -/
def Keeps (g g' : Graph) : Prop :=
  ∀ {q : Nat} {edge : Edge}, g.edges[q]? = some edge → edge.contracted = true →
    g'.edges[q]? = some edge

theorem Keeps.refl (g : Graph) : g.Keeps g := fun h _ => h

theorem Keeps.trans {g g' g'' : Graph} (h : g.Keeps g') (h' : g'.Keeps g'') : g.Keeps g'' :=
  fun hedge hc => h' (h hedge hc) hc

theorem keeps_mark (g : Graph) (position : Nat) : g.Keeps (g.mark position) := by
  intro q edge hedge hc
  rw [getElem?_edges_mark, hedge, Option.map_some, hc, Bool.true_or, ← hc]

theorem Represents.keeps_join {g : Graph} {operator : Nat → Operator} {done : List Nat}
    {holder : Nat → Nat} {position low high : Nat} (h : g.Represents operator done holder)
    (hleft : Stretch g.edges.size done low position)
    (hright : Stretch g.edges.size done (position + 1) high) (result : Int) :
    g.Keeps (g.join position low high result) := by
  intro q edge hedge hc
  have hq := List.mem_cons_of_mem position ((h.contracted_iff hedge).1 hc)
  rw [h.getElem?_edges_join_of_mem hleft hright result hq hedge, ← hc]

/-- A graph as it is laid out shows a chain of nodes that hold the values laid out. -/
theorem exists_shows_layout {e : Chain Int} (hnum : e.Numbered) :
    ∃ c, (layout e true).Shows c ∧ c.map (layout e true).valueAt = e := by
  refine ⟨_, ⟨_, _, _, represents_layout e, rfl⟩, ?_⟩
  rw [map_stretchChain, size_edges_layout]
  exact stretchChain_layout hnum

section Shows

variable {g : Graph} {c : Chain Nat}

theorem Shows.isLiveChain (h : g.Shows c) : g.IsLiveChain c := by
  obtain ⟨operator, done, holder, hrep, rfl⟩ := h
  exact hrep.isLiveChain

theorem Shows.eq_of_isLiveChain (h : g.Shows c) {c' : Chain Nat} (h' : g.IsLiveChain c') :
    c' = c := by
  obtain ⟨operator, done, holder, hrep, rfl⟩ := h
  exact hrep.eq_of_isLiveChain h'

theorem Shows.pending_eq (h : g.Shows c) : g.pending = c.priorities := by
  obtain ⟨operator, done, holder, hrep, rfl⟩ := h
  exact hrep.pending_eq

variable {position left right : Nat} {operator : Operator}

/-- **All that contracting an operator of the chain can be.**  An operator that cannot be applied is
marked, and nothing else changes.  One that can be applied is spliced: a new node holds the result
and takes the place of the two operands in the chain, and what was done before stays as it is. -/
theorem Shows.contract_cases (h : g.Shows c)
    (haround : c.around? position = some (left, operator, right)) :
    (∃ error,
        operator.apply (g.valueAt left) (g.valueAt right) position = .error error ∧
        g.contract position = (.error error, g.mark position)) ∨
      ∃ result g',
        operator.apply (g.valueAt left) (g.valueAt right) position = .ok result ∧
        g.contract position =
          (.ok ⟨position, operator, g.valueAt left, g.valueAt right, result⟩, g') ∧
        g'.Shows (c.splice position g.nodes.size) ∧
        (c.splice position g.nodes.size).map g'.valueAt =
          (c.map g.valueAt).splice position result ∧
        g.Keeps g' := by
  obtain ⟨op, done, holder, hrep, rfl⟩ := id h
  have hmem := Chain.mem_positions_of_around? haround
  simp only [positions_stretchChain, List.mem_filter, List.mem_range, decide_eq_true_eq] at hmem
  obtain ⟨hlt, hnot⟩ := hmem
  rw [around?_stretchChain hlt hnot] at haround
  cases haround
  have hleft := stretch_of_not_mem hlt hnot
  obtain ⟨high, hright⟩ := exists_stretch_succ hlt hnot
  have hcontract := hrep.contract_eq hleft hright
  cases happly : (op position).apply (g.valueAt (holder (stretchStart done position)))
      (g.valueAt (holder (position + 1))) position with
  | error error =>
    rw [happly] at hcontract
    exact Or.inl ⟨error, rfl, hcontract⟩
  | ok result =>
    rw [happly] at hcontract
    refine Or.inr ⟨result, _, rfl, hcontract, ?_, ?_, hrep.keeps_join hleft hright result⟩
    · refine ⟨op, position :: done, _, hrep.join hleft hright result, ?_⟩
      simp [splice_stretchChain hlt hnot]
    · have hold : ∀ x ∈ (stretchChain holder op done g.edges.size).operands,
          (g.join position (stretchStart done position) high result).valueAt x = g.valueAt x :=
        fun x hx => valueAt_splice_of_lt (h.isLiveChain.live hx).1
      rw [Chain.map_splice, Chain.map_congr hold, join, valueAt_splice_size]

end Shows

end Graph

namespace Run

/-! ## Turns of a run -/

/-- The run is under way, its graph shows the chain, and its agenda knows what is pending. -/
structure Shows (run : Run) (c : Chain Nat) : Prop where
  going : run.failed = false
  graph : run.graph.Shows c
  agenda : run.agenda.Holds run.graph

theorem shows_start {g : Graph} {c : Chain Nat} (strategy : Strategy) (h : g.Shows c) :
    (start strategy g).Shows c :=
  ⟨rfl, h, Agenda.holds_start strategy g⟩

/-- **All that a turn can be.**  Nothing, when no operator is left; else the first operator either
fails and the run with it, or it is spliced and the run goes on. -/
theorem Shows.next_cases {run : Run} {c : Chain Nat} (h : run.Shows c) :
    (c.priorities = [] ∧ run.next = (none, run)) ∨
      ∃ position left operator right, c.First position left operator right ∧
        ((∃ error agenda,
            operator.apply (run.graph.valueAt left) (run.graph.valueAt right) position =
              .error error ∧
            run.next = (some (.error error), ⟨run.graph.mark position, agenda, true⟩)) ∨
          ∃ result run',
            operator.apply (run.graph.valueAt left) (run.graph.valueAt right) position =
              .ok result ∧
            run.next = (some (.ok ⟨position, operator, run.graph.valueAt left,
              run.graph.valueAt right, result⟩), run') ∧
            run'.Shows (c.splice position run.graph.nodes.size) ∧
            (c.splice position run.graph.nodes.size).map run'.graph.valueAt =
              (c.map run.graph.valueAt).splice position result ∧
            run.graph.Keeps run'.graph) := by
  have hpending := h.graph.pending_eq
  have hgoing : ¬ run.failed = true := by simp [h.going]
  by_cases hempty : c.priorities = []
  · refine Or.inl ⟨hempty, ?_⟩
    simp [next, hgoing, h.agenda.next?_eq_none (hpending.trans hempty)]
  · have hnodup := h.graph.isLiveChain.increasing.imp Nat.ne_of_lt
    obtain ⟨position, left, operator, right, hfirst⟩ := Chain.exists_first hnodup hempty
    refine Or.inr ⟨position, left, operator, right, hfirst, ?_⟩
    obtain ⟨agenda, hnext, hholds⟩ := h.agenda.next?_eq
      (by rw [hpending]; exact hfirst.mem_priorities) (by rw [hpending]; exact hfirst.le)
    rw [next, if_neg hgoing, hnext]
    rcases h.graph.contract_cases hfirst.around with
      ⟨error, happly, hcontract⟩ | ⟨result, g', happly, hcontract, hshows, hvalues, hkeeps⟩
    · exact Or.inl ⟨error, agenda, happly, by simp only [hcontract]⟩
    · refine Or.inr ⟨result, ⟨g', agenda, false⟩, happly, ?_, ⟨rfl, hshows, ?_⟩, hvalues, hkeeps⟩
      · simp only [hcontract]
      · refine hholds g' ?_
        rw [hpending, hshows.pending_eq]
        exact Chain.perm_priorities_splice hfirst.around _

/-- A run that has failed goes no further. -/
theorem answers_of_failed {run : Run} (h : run.failed = true) (count : Nat) :
    ∀ answered ∈ run.answers count, answered = (none, run) := by
  have hnext : run.next = (none, run) := by rw [next, if_pos h]
  induction count with
  | zero => simp [answers]
  | succ count ih =>
    intro answered hmem
    simp only [answers, hnext] at hmem
    rcases List.mem_cons.1 hmem with rfl | hmem
    · rfl
    · exact ih answered hmem

/-- No answer of a run that goes on names an index that leads nowhere, and none of its turns touches
what is done. -/
theorem Shows.keeps_answers {run : Run} {c : Chain Nat} (h : run.Shows c) (count : Nat) :
    ∀ answered ∈ run.answers count,
      answered.1 ≠ some (.error .danglingIndex) ∧ run.graph.Keeps answered.2.graph := by
  induction count generalizing run c with
  | zero =>
    intro answered hmem
    exact absurd hmem List.not_mem_nil
  | succ count ih =>
    intro answered hmem
    unfold answers at hmem
    rcases h.next_cases with ⟨-, hnext⟩ | ⟨position, left, operator, right, -,
      ⟨error, agenda, happly, hnext⟩ | ⟨result, run', -, hnext, hshows, -, hkeeps⟩⟩
    · rw [hnext] at hmem
      rcases List.mem_cons.1 hmem with rfl | hmem
      · exact ⟨by simp, Graph.Keeps.refl _⟩
      · exact ih h answered hmem
    · have hne : error ≠ .danglingIndex := by
        rintro rfl
        exact Operator.apply_ne_danglingIndex _ _ _ _ happly
      rw [hnext] at hmem
      rcases List.mem_cons.1 hmem with rfl | hmem
      · exact ⟨by simpa using hne, Graph.keeps_mark _ _⟩
      · rw [answers_of_failed rfl count answered hmem]
        exact ⟨by simp, Graph.keeps_mark _ _⟩
    · rw [hnext] at hmem
      rcases List.mem_cons.1 hmem with rfl | hmem
      · exact ⟨by simp, hkeeps⟩
      · obtain ⟨hne, hkeeps'⟩ := ih hshows answered hmem
        exact ⟨hne, hkeeps.trans hkeeps'⟩

/-! ## Turns that succeed -/

/-- What can be reached from a run by turns that succeed, with their steps. -/
inductive Reaches (origin : Run) : List Step → Run → Prop
  | refl : Reaches origin [] origin
  | next {steps : List Step} {run run' : Run} {step : Step} : Reaches origin steps run →
      run.next = (some (.ok step), run') → Reaches origin (steps ++ [step]) run'

/-- What a turn that succeeds has done. -/
theorem Shows.next_ok {run run' : Run} {c : Chain Nat} {step : Step} (h : run.Shows c)
    (hnext : run.next = (some (.ok step), run')) :
    ∃ left operator right, c.First step.position left operator right ∧
      operator.apply (run.graph.valueAt left) (run.graph.valueAt right) step.position =
        .ok step.result ∧
      run'.Shows (c.splice step.position run.graph.nodes.size) ∧
      (c.splice step.position run.graph.nodes.size).map run'.graph.valueAt =
        (c.map run.graph.valueAt).splice step.position step.result := by
  rcases h.next_cases with ⟨-, heq⟩ | ⟨position, left, operator, right, hfirst,
    ⟨error, agenda, -, heq⟩ | ⟨result, run'', happly, heq, hshows, hvalues, -⟩⟩
  · rw [heq] at hnext
    cases hnext
  · rw [heq] at hnext
    cases hnext
  · rw [heq] at hnext
    cases hnext
    exact ⟨left, operator, right, hfirst, happly, hshows, hvalues⟩

/-- A run that is reached shows a chain, too. -/
theorem Shows.reaches {run run' : Run} {c : Chain Nat} {steps : List Step} (h : run.Shows c)
    (hr : run.Reaches steps run') : ∃ c', run'.Shows c' := by
  induction hr with
  | refl => exact ⟨c, h⟩
  | next _ hnext ih =>
    obtain ⟨c', h'⟩ := ih
    obtain ⟨left, operator, right, -, -, hshows, -⟩ := h'.next_ok hnext
    exact ⟨_, hshows⟩

end Run

namespace Calculation

/-- A calculation begins with the layout of the chain that its text reads as. -/
theorem ofText_eq_ok_iff {strategy : Strategy} {text : List Char} {calculation : Calculation} :
    ofText strategy text = .ok calculation ↔
      ∃ e, Chain.ofText? text = some e ∧ calculation = ⟨.layout e true, strategy⟩ := by
  unfold ofText
  cases hg : Graph.ofText text with
  | error cause =>
    constructor
    · intro h
      cases h
    · rintro ⟨e, he, -⟩
      rw [Graph.ofText_eq_ok_iff.2 ⟨e, he, rfl⟩] at hg
      cases hg
  | ok g =>
    obtain ⟨e, he, rfl⟩ := Graph.ofText_eq_ok_iff.1 hg
    simp [Except.map, he, eq_comm]

/-- A run of a calculation begins with a chain of nodes that hold the values of its text. -/
theorem exists_shows_start (strategy : Strategy) {text : List Char} {e : Chain Int}
    (he : Chain.ofText? text = some e) :
    ∃ c, (start ⟨.layout e true, strategy⟩).Shows c ∧ c.map (Graph.layout e true).valueAt = e := by
  obtain ⟨c, hc, hvalues⟩ := Graph.exists_shows_layout (Chain.numbered_of_ofText? he)
  exact ⟨c, Run.shows_start strategy hc, hvalues⟩

/-- **Links are in order throughout.**  After any number of turns that succeed, the nodes that are
left and the pending operators are one chain, linked both ways; the operands of a pending operator
are among these nodes.  No later turn, whether it succeeds or not, meets an index that leads nowhere
or changes an edge that is contracted. -/
theorem reaches_isLiveChain {strategy : Strategy} {text : List Char} {calculation : Calculation}
    (h : ofText strategy text = .ok calculation) {steps : List Step} {run : Run}
    (hr : calculation.start.Reaches steps run) :
    (∃ c, run.graph.IsLiveChain c ∧ ∀ c', run.graph.IsLiveChain c' → c' = c) ∧
      (∀ {q : Nat} {edge : Edge}, run.graph.edges[q]? = some edge → edge.contracted = false →
        run.graph.Live edge.left ∧ run.graph.Live edge.right) ∧
      ∀ count, ∀ answered ∈ run.answers count,
        answered.1 ≠ some (.error .danglingIndex) ∧ run.graph.Keeps answered.2.graph := by
  obtain ⟨e, he, rfl⟩ := ofText_eq_ok_iff.1 h
  obtain ⟨c₀, hstart, -⟩ := exists_shows_start strategy he
  obtain ⟨c, hc⟩ := hstart.reaches hr
  have hlive := hc.graph.isLiveChain
  refine ⟨⟨c, hlive, fun c' hc' => hc.graph.eq_of_isLiveChain hc'⟩, ?_, hc.keeps_answers⟩
  exact fun hedge hpending => hlive.live_of_pending hedge hpending

/-- After the product, a difference is left, and the run carries on with it. -/
theorem reaches_isLiveChain_difference :
    ∃ calculation run, ofText .queue "8 - 4 * 2".toList = .ok calculation ∧
      calculation.start.Reaches [⟨1, .multiply, 4, 2, 8⟩] run ∧
      (∃ c, run.graph.IsLiveChain c ∧ ∀ c', run.graph.IsLiveChain c' → c' = c) ∧
      ∀ answered ∈ run.answers 2, run.graph.Keeps answered.2.graph := by
  have hg : ofText .queue "8 - 4 * 2".toList =
      .ok ⟨.layout (((Chain.single 8).snoc 0 .subtract 4).snoc 1 .multiply 2) true, .queue⟩ := rfl
  have hr : (start ⟨.layout (((Chain.single 8).snoc 0 .subtract 4).snoc 1 .multiply 2) true,
      .queue⟩).Reaches [⟨1, .multiply, 4, 2, 8⟩] _ := Run.Reaches.next .refl rfl
  obtain ⟨hchain, -, hanswers⟩ := reaches_isLiveChain hg hr
  exact ⟨_, _, hg, hr, hchain, fun answered hmem => (hanswers 2 answered hmem).2⟩

end Calculation

end OperatorChain
