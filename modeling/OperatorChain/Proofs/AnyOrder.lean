import Mathlib.Data.List.Perm.Subperm
import OperatorChain.Proofs.LiveChain
import OperatorChain.Proofs.Reading

/-!
# Contracting in any order

Nothing in a graph prescribes the order in which its operators are contracted.  Whatever the order
is, a stretch of operators that have been contracted stands for a binary tree over its literals: the
operator contracted last is at the root, and the stretches that it joined are its subtrees.

* `Graph.contractAll` — contractions one after the other, whatever their outcomes.
* `Tree`, `Tree.ofHistory` — the tree of a run of literals under an order of contraction.
* `Graph.Follows` — the invariant: the graph represents the stretches, and the node that holds a
  stretch has the value of its tree.  `Follows.join` keeps it over one contraction, and
  `Follows.contractAll` over any number of them.
* `contractAll_any_order` — what all this says about the graph of a text.
-/

namespace OperatorChain

/-! ## Trees -/

/-- How literals were joined: each operation stands at its position, between two subtrees. -/
inductive Tree where
  | literal (index : Nat)
  | operation (position : Nat) (left right : Tree)
  deriving DecidableEq, Repr

namespace Tree

/-- The tree of the literals from `low` to `high`, the history of contractions given from the
latest to the earliest: the latest one among these literals is the root. -/
def ofHistory : (latestFirst : List Nat) → (low high : Nat) → Tree
  | [], low, _ => .literal low
  | position :: earlier, low, high =>
    if low ≤ position ∧ position < high then
      .operation position (ofHistory earlier low position) (ofHistory earlier (position + 1) high)
    else ofHistory earlier low high

/-- The literals from left to right. -/
def literals : Tree → List Nat
  | .literal index => [index]
  | .operation _ left right => left.literals ++ right.literals

/-- The value of a tree, with literals and operators from a graph and every operation checked. -/
def value (g : Graph) : Tree → Except ContractionError Int
  | .literal index =>
    match g.nodes[index]? with
    | some node => .ok node.value
    | none => .error .danglingIndex
  | .operation position left right => do
    let a ← left.value g
    let b ← right.value g
    (g.operatorAt position).apply a b position

theorem value_literal {g : Graph} {index : Nat} (h : index < g.nodes.size) :
    (Tree.literal index).value g = .ok (g.valueAt index) := by
  have hnode := Array.getElem?_eq_getElem h
  simp [value, hnode, Graph.valueAt_of_getElem? hnode]

theorem value_operation {g : Graph} {position : Nat} {left right : Tree} {a b : Int}
    (ha : left.value g = .ok a) (hb : right.value g = .ok b) :
    (Tree.operation position left right).value g =
      (g.operatorAt position).apply a b position := by
  rw [value, ha, hb]
  rfl

/-- A contraction at a position outside a run of literals does not change its tree. -/
theorem ofHistory_cons_of_not_mem {position : Nat} {earlier : List Nat} {low high : Nat}
    (h : ¬ (low ≤ position ∧ position < high)) :
    ofHistory (position :: earlier) low high = ofHistory earlier low high :=
  if_neg h

/-- A contraction at a position inside a run of literals is the root of its tree. -/
theorem ofHistory_cons_of_mem {position : Nat} {earlier : List Nat} {low high : Nat}
    (h : low ≤ position ∧ position < high) :
    ofHistory (position :: earlier) low high =
      .operation position (ofHistory earlier low position)
        (ofHistory earlier (position + 1) high) :=
  if_pos h

/-- What holds of single literals, and of an operation if it holds of both sides, holds of the tree
of a run of literals whose operators are all done. -/
theorem ofHistory_induction {motive : Nat → Nat → Tree → Prop} {history : List Nat}
    (literal : ∀ low, motive low low (.literal low))
    (operation : ∀ low position high left right, low ≤ position → position < high →
      motive low position left → motive (position + 1) high right →
      motive low high (.operation position left right))
    {low high : Nat} (hle : low ≤ high) (h : ∀ q, low ≤ q → q < high → q ∈ history) :
    motive low high (ofHistory history low high) := by
  induction history generalizing low high with
  | nil =>
    have heq : high = low := by
      by_contra hne
      exact absurd (h low (Nat.le_refl low) (by omega)) List.not_mem_nil
    subst heq
    exact literal high
  | cons position earlier ih =>
    by_cases hin : low ≤ position ∧ position < high
    · obtain ⟨hlow, hhigh⟩ := hin
      rw [ofHistory_cons_of_mem ⟨hlow, hhigh⟩]
      exact operation low position high _ _ hlow hhigh
        (ih hlow fun q hq hlt => List.mem_of_ne_of_mem (by omega) (h q hq (by omega)))
        (ih hhigh fun q hq hlt => List.mem_of_ne_of_mem (by omega) (h q (by omega) hlt))
    · rw [ofHistory_cons_of_not_mem hin]
      refine ih hle fun q hq hlt => List.mem_of_ne_of_mem ?_ (h q hq hlt)
      rintro rfl
      exact hin ⟨hq, hlt⟩

/-- The tree of a run of literals whose operators are all done has exactly these literals, from
left to right. -/
theorem literals_ofHistory {history : List Nat} {low high : Nat} (hle : low ≤ high)
    (h : ∀ q, low ≤ q → q < high → q ∈ history) :
    (ofHistory history low high).literals = List.range' low (high + 1 - low) := by
  refine ofHistory_induction
    (motive := fun low high tree => tree.literals = List.range' low (high + 1 - low)) ?_ ?_ hle h
  · intro low
    simp [literals, List.range'_one]
  · intro low position high left right hlow hhigh hleft hright
    rw [literals, hleft, hright,
      show high + 1 - low = (position + 1 - low) + (high + 1 - (position + 1)) by omega,
      ← List.range'_append_1, show low + (position + 1 - low) = position + 1 by omega]

end Tree

namespace Graph

/-! ## Contractions one after the other -/

/-- Contracts at each position in turn, whatever the outcomes. -/
def contractAll (g : Graph) : List Nat → List (Except ContractionError Step) × Graph
  | [] => ([], g)
  | position :: rest =>
    let (outcome, g) := g.contract position
    let (outcomes, g) := g.contractAll rest
    (outcome :: outcomes, g)

theorem contractAll_cons (g : Graph) (position : Nat) (rest : List Nat) :
    g.contractAll (position :: rest) =
      ((g.contract position).1 :: ((g.contract position).2.contractAll rest).1,
        ((g.contract position).2.contractAll rest).2) := rfl

/-- Contractions of stored edges never meet an index that leads nowhere. -/
theorem InBounds.contractAll_ne_danglingIndex {g : Graph} (h : g.InBounds) {order : List Nat}
    (hlt : ∀ position ∈ order, position < g.edges.size) :
    ∀ outcome ∈ (g.contractAll order).1, outcome ≠ .error .danglingIndex := by
  induction order generalizing g with
  | nil =>
    intro outcome hmem
    exact absurd hmem List.not_mem_nil
  | cons position rest ih =>
    obtain ⟨hne, hbounds, hsize⟩ := h.contract (hlt position (List.mem_cons_self ..))
    intro outcome hmem
    rw [contractAll_cons] at hmem
    rcases List.mem_cons.1 hmem with rfl | hrest
    · exact hne
    · refine ih hbounds (fun q hq => ?_) outcome hrest
      rw [hsize]
      exact hlt q (List.mem_cons_of_mem _ hq)

/-! ## The invariant -/

/-- `g` comes from `start` by contracting the operators in `done`, the latest one first, each with
success. -/
structure Follows (start g : Graph) (done : List Nat) (holder : Nat → Nat) : Prop where
  represents : g.Represents start.operatorAt done holder
  size_edges : g.edges.size = start.edges.size
  /-- The node that holds a stretch has the value of its tree. -/
  value : ∀ {low high : Nat}, Stretch g.edges.size done low high →
    (Tree.ofHistory done low high).value start = .ok (g.valueAt (holder low))
  /-- The node stored last holds a stretch. -/
  last_held : ∃ low high, Stretch g.edges.size done low high ∧ holder low + 1 = g.nodes.size

theorem follows_layout (c : Chain Int) : Follows (layout c true) (layout c true) [] id := by
  refine ⟨represents_layout c, rfl, ?_, c.size, c.size, ?_, ?_⟩
  · intro low high hs
    obtain ⟨rfl, hle⟩ := stretch_nil_iff.1 hs
    rw [size_edges_layout] at hle
    exact Tree.value_literal (by rw [size_nodes_layout]; omega)
  · rw [size_edges_layout]
    exact stretch_nil_iff.2 ⟨rfl, Nat.le_refl _⟩
  · rw [size_nodes_layout]
    rfl

/-- **One more contraction.**  If it succeeds, the tree of the stretch that it makes has its
operator at the root, over the trees of the stretches that it joins. -/
theorem Follows.join {start g : Graph} {done : List Nat} {holder : Nat → Nat}
    {position low high : Nat} {result : Int} (h : Follows start g done holder)
    (hleft : Stretch g.edges.size done low position)
    (hright : Stretch g.edges.size done (position + 1) high)
    (happly : (start.operatorAt position).apply (g.valueAt (holder low))
      (g.valueAt (holder (position + 1))) position = .ok result) :
    Follows start (g.join position low high result) (position :: done)
      (Function.update holder low g.nodes.size) := by
  have hle := hleft.le
  have hle' := hright.le
  have hlt : position < g.edges.size := hright.lt_size
  have hnot : position ∉ done := hleft.not_mem_after hlt
  refine ⟨h.represents.join hleft hright result, ?_, ?_, low, high, ?_, ?_⟩
  · simp [h.size_edges]
  · intro a b hs
    rw [size_edges_join] at hs
    rcases (stretch_cons_iff hleft hright).1 hs with ⟨rfl, rfl⟩ | ⟨hold, ha, ha'⟩
    · rw [Tree.ofHistory_cons_of_mem ⟨hle, by omega⟩,
        Tree.value_operation (h.value hleft) (h.value hright), happly, Function.update_self,
        Graph.join, valueAt_splice_size]
    · have hout : ¬ (a ≤ position ∧ position < b) := fun hin => hnot (hold.mem position hin.1 hin.2)
      rw [Tree.ofHistory_cons_of_not_mem hout, h.value hold, Function.update_of_ne ha, Graph.join,
        valueAt_splice_of_lt (h.represents.holder_lt hold)]
  · rw [size_edges_join]
    exact hleft.join hright
  · simp [Graph.join, nodes_splice]

/-- **What the next contraction is.**  Contracting an operator that is not done applies it to the
values of the stretches on its two sides; a success joins them and keeps the invariant. -/
theorem Follows.contract_eq {start g : Graph} {done : List Nat} {holder : Nat → Nat}
    {position : Nat} (h : Follows start g done holder) (hlt : position < g.edges.size)
    (hnot : position ∉ done) :
    ∃ high, Stretch g.edges.size done (position + 1) high ∧
      g.contract position =
        match (start.operatorAt position).apply (g.valueAt (holder (stretchStart done position)))
          (g.valueAt (holder (position + 1))) position with
        | .error error => (.error error, g.mark position)
        | .ok result =>
          (.ok ⟨position, start.operatorAt position,
              g.valueAt (holder (stretchStart done position)),
              g.valueAt (holder (position + 1)), result⟩,
            g.join position (stretchStart done position) high result) := by
  obtain ⟨high, hright⟩ := exists_stretch_succ hlt hnot
  exact ⟨high, hright, h.represents.contract_eq (stretch_of_not_mem hlt hnot) hright⟩

/-- A contraction that succeeds is a step on the values of the two stretches beside its operator,
and the graph after it follows the longer history. -/
theorem Follows.contract_ok {start g g' : Graph} {done : List Nat} {holder : Nat → Nat}
    {position : Nat} {step : Step} (h : Follows start g done holder)
    (hlt : position < g.edges.size) (hnot : position ∉ done)
    (hc : g.contract position = (.ok step, g')) :
    (start.operatorAt position).apply (g.valueAt (holder (stretchStart done position)))
        (g.valueAt (holder (position + 1))) position = .ok step.result ∧
      step = ⟨position, start.operatorAt position, g.valueAt (holder (stretchStart done position)),
        g.valueAt (holder (position + 1)), step.result⟩ ∧
      (∃ high, Stretch g.edges.size done (position + 1) high ∧
        g' = g.join position (stretchStart done position) high step.result) ∧
      Follows start g' (position :: done)
        (Function.update holder (stretchStart done position) g.nodes.size) := by
  obtain ⟨high, hright, heq⟩ := h.contract_eq hlt hnot
  rw [hc] at heq
  cases happly : (start.operatorAt position).apply
      (g.valueAt (holder (stretchStart done position))) (g.valueAt (holder (position + 1)))
      position with
  | error error =>
    rw [happly] at heq
    cases heq
  | ok result =>
    rw [happly] at heq
    cases heq
    exact ⟨rfl, rfl, ⟨high, hright, rfl⟩, h.join (stretch_of_not_mem hlt hnot) hright happly⟩

/-- **Any number of contractions.**  Contractions of different operators, each with success, keep
the invariant, and their positions go on record with the latest first. -/
theorem Follows.contractAll {start g : Graph} {done : List Nat} {holder : Nat → Nat}
    {order : List Nat} (h : Follows start g done holder) (hdistinct : order.Nodup)
    (hlt : ∀ position ∈ order, position < g.edges.size) (hnew : ∀ position ∈ order, position ∉ done)
    (hok : ∀ outcome ∈ (g.contractAll order).1, ∃ step, outcome = .ok step) :
    ∃ holder', Follows start (g.contractAll order).2 (order.reverse ++ done) holder' := by
  induction order generalizing g done holder with
  | nil => exact ⟨holder, h⟩
  | cons position rest ih =>
    rw [contractAll_cons] at hok ⊢
    obtain ⟨step, hstep⟩ := hok _ (List.mem_cons_self ..)
    obtain ⟨hhead, hrest⟩ := List.nodup_cons.1 hdistinct
    have hpos := hlt position (List.mem_cons_self ..)
    obtain ⟨-, -, ⟨high, -, hg⟩, hnext⟩ :=
      h.contract_ok hpos (hnew position (List.mem_cons_self ..)) (Prod.ext hstep rfl)
    obtain ⟨holder', h'⟩ := ih hnext hrest
      (fun q hq => by
        rw [hg, size_edges_join]
        exact hlt q (List.mem_cons_of_mem _ hq))
      (fun q hq => by
        rw [List.mem_cons, not_or]
        exact ⟨fun heq => hhead (heq ▸ hq), hnew q (List.mem_cons_of_mem _ hq)⟩)
      (fun outcome hout => hok outcome (List.mem_cons_of_mem _ hout))
    refine ⟨holder', ?_⟩
    rwa [List.reverse_cons, List.append_assoc]

/-! ## What a graph shows after contractions in some order -/

/-- The node and the operators on either side of the literals from `low` to `high` name each
other. -/
structure Spans (g : Graph) (low high index : Nat) : Prop where
  node : ∃ value,
    g.nodes[index]? = some ⟨value, operatorBefore low, operatorAfter g.edges.size high⟩
  before : ∀ q, low = q + 1 → ∃ edge, g.edges[q]? = some edge ∧ edge.right = index
  after : high < g.edges.size → ∃ edge, g.edges[high]? = some edge ∧ edge.left = index

/-- The graph after the operators of `start` at the positions in `order` have been contracted in
that order. -/
structure ContractedInOrder (start : Graph) (order : List Nat) (g : Graph) : Prop where
  /-- Every stretch is held by exactly one live node, which has the value of the tree over its
  literals. -/
  stretch : ∀ {low high : Nat}, Stretch start.edges.size order low high →
    (Tree.ofHistory order.reverse low high).literals = List.range' low (high + 1 - low) ∧
    ∃ index, (g.Live index ∧ g.Spans low high index) ∧
      (∀ other, g.Live other → g.Spans low high other → other = index) ∧
      (Tree.ofHistory order.reverse low high).value start = .ok (g.valueAt index)
  /-- There are no other live nodes. -/
  live : ∀ {index : Nat}, g.Live index →
    ∃ low high, Stretch start.edges.size order low high ∧ g.Spans low high index
  /-- Every other operator joins two stretches, and contracting it next answers what it gives for
  their values. -/
  next : ∀ {position : Nat}, position < start.edges.size → position ∉ order →
    ∃ low high left right, Stretch start.edges.size order low position ∧
      Stretch start.edges.size order (position + 1) high ∧
      (Tree.ofHistory order.reverse low position).value start = .ok left ∧
      (Tree.ofHistory order.reverse (position + 1) high).value start = .ok right ∧
      (g.contract position).1 =
        ((start.operatorAt position).apply left right position).map fun result =>
          ⟨position, start.operatorAt position, left, right, result⟩
  /-- Once all operators are done, the node stored last has the value of the whole tree. -/
  last : order.length = start.edges.size → ∃ node, g.nodes.back? = some node ∧
    (Tree.ofHistory order.reverse 0 start.edges.size).value start = .ok node.value

theorem Represents.spans_holder {g : Graph} {operator : Nat → Operator} {done : List Nat}
    {holder : Nat → Nat} (h : g.Represents operator done holder) {low high : Nat}
    (hs : Stretch g.edges.size done low high) : g.Spans low high (holder low) := by
  refine ⟨h.node hs, ?_, fun hlt => ⟨_, h.edge hs hlt, rfl⟩⟩
  rintro q rfl
  have hlt : q < g.edges.size := hs.lt_size
  exact ⟨_, h.edge (stretch_of_not_mem hlt (hs.not_mem_before q rfl)) hlt, rfl⟩

theorem Represents.eq_holder_of_spans {g : Graph} {operator : Nat → Operator} {done : List Nat}
    {holder : Nat → Nat} (h : g.Represents operator done holder) {low high index : Nat}
    (hlive : g.Live index) (hspans : g.Spans low high index) : index = holder low := by
  obtain ⟨low', high', hs, rfl⟩ := h.exists_stretch_of_live hlive
  obtain ⟨value, hnode⟩ := hspans.node
  rw [h.getElem?_nodes_holder hs] at hnode
  have hbefore := (Node.mk.inj (Option.some.inj hnode)).2.1
  rw [operatorBefore_injective hbefore]

/-- When all operators are done, the node stored last has the value of the whole tree. -/
theorem Follows.exists_back {start g : Graph} {done : List Nat} {holder : Nat → Nat}
    (h : Follows start g done holder) (hall : ∀ q, q < start.edges.size → q ∈ done) :
    ∃ node, g.nodes.back? = some node ∧
      (Tree.ofHistory done 0 start.edges.size).value start = .ok node.value := by
  obtain ⟨low, high, hs, hlast⟩ := h.last_held
  have hvalue := h.value hs
  have hnode := h.represents.getElem?_nodes_holder hs
  rw [h.size_edges] at hs
  obtain ⟨rfl, rfl⟩ := hs.eq_of_forall_mem hall
  rw [valueAt_of_getElem? hnode] at hvalue
  refine ⟨_, ?_, hvalue⟩
  rw [Array.back?_eq_getElem?, ← hlast, Nat.add_sub_cancel, hnode]

/-- A graph that follows from contractions in some order shows what that order says. -/
theorem Follows.contractedInOrder {start g : Graph} {order : List Nat} {holder : Nat → Nat}
    (h : Follows start g order.reverse holder) (hdistinct : order.Nodup)
    (hlt : ∀ position ∈ order, position < start.edges.size) :
    ContractedInOrder start order g := by
  have hreverse : ∀ {low high}, Stretch start.edges.size order low high →
      Stretch g.edges.size order.reverse low high := by
    intro low high hs
    rw [h.size_edges]
    exact hs.congr fun q => List.mem_reverse.symm
  constructor
  case stretch =>
    intro low high hs
    have hs' := hreverse hs
    refine ⟨Tree.literals_ofHistory hs'.le hs'.mem, holder low,
      ⟨h.represents.live_holder hs', h.represents.spans_holder hs'⟩, ?_, h.value hs'⟩
    exact fun other hlive hspans => h.represents.eq_holder_of_spans hlive hspans
  case live =>
    intro index hlive
    obtain ⟨low, high, hs, rfl⟩ := h.represents.exists_stretch_of_live hlive
    refine ⟨low, high, ?_, h.represents.spans_holder hs⟩
    rw [h.size_edges] at hs
    exact hs.congr fun q => List.mem_reverse
  case next =>
    intro position hlt' hnot
    have hleft := stretch_of_not_mem hlt' hnot
    obtain ⟨high, hright⟩ := exists_stretch_succ hlt' hnot
    refine ⟨_, high, _, _, hleft, hright, h.value (hreverse hleft), h.value (hreverse hright), ?_⟩
    rw [h.represents.contract_eq (hreverse hleft) (hreverse hright)]
    cases (start.operatorAt position).apply _ _ position <;> rfl
  case last =>
    intro hlength
    refine h.exists_back fun q hq => List.mem_reverse.2 ?_
    -- there are as many positions in the order as there are operators, so all of them are in it
    have hsub : order ⊆ List.range start.edges.size :=
      fun position hp => List.mem_range.2 (hlt position hp)
    have hperm := (hdistinct.subperm hsub).perm_of_length_le (by simp [hlength])
    exact hperm.mem_iff.2 (List.mem_range.2 hq)

/-- **Contraction is right in every order.**  Take the graph of any text and any different positions
in it.  Contracting at them one after the other never meets an index that leads nowhere; and as long
as every contraction succeeds, the graph shows exactly what the order says: one live node for each
stretch, with the value of the tree of that stretch, and nothing else. -/
theorem contractAll_any_order {text : List Char} {g : Graph} (hg : ofText text = .ok g)
    {order : List Nat} (hdistinct : order.Nodup)
    (hlt : ∀ position ∈ order, position < g.edges.size) :
    (∀ outcome ∈ (g.contractAll order).1, outcome ≠ .error .danglingIndex) ∧
      ((∀ outcome ∈ (g.contractAll order).1, ∃ step, outcome = .ok step) →
        ContractedInOrder g order (g.contractAll order).2) := by
  obtain ⟨c, -, rfl⟩ := ofText_eq_ok_iff.1 hg
  have hstart := follows_layout c
  refine ⟨hstart.represents.inBounds.contractAll_ne_danglingIndex hlt, fun hok => ?_⟩
  obtain ⟨holder, hfollows⟩ := hstart.contractAll hdistinct hlt (fun _ _ => List.not_mem_nil) hok
  rw [List.append_nil] at hfollows
  exact hfollows.contractedInOrder hdistinct hlt

/-- The sum first, then the difference, then the product of the two. -/
theorem contractAll_product_last :
    ∃ g, ofText "8 - 4 * 2 + 1".toList = .ok g ∧ [2, 0, 1].Nodup ∧
      (∀ position ∈ [2, 0, 1], position < g.edges.size) ∧
      (g.contractAll [2, 0, 1]).1 =
        [.ok ⟨2, .add, 2, 1, 3⟩, .ok ⟨0, .subtract, 8, 4, 4⟩, .ok ⟨1, .multiply, 4, 3, 12⟩] ∧
      ContractedInOrder g [2, 0, 1] (g.contractAll [2, 0, 1]).2 := by
  have hg : ofText "8 - 4 * 2 + 1".toList =
      .ok (layout ((((Chain.single 8).snoc 0 .subtract 4).snoc 1 .multiply 2).snoc 2 .add 1)
        true) := rfl
  refine ⟨_, hg, by decide, by decide, rfl, ?_⟩
  refine (contractAll_any_order hg (by decide) (by decide)).2 fun outcome hmem => ?_
  have hsteps : ∀ outcome ∈ [Except.ok (Step.mk 2 .add 2 1 3), .ok ⟨0, .subtract, 8, 4, 4⟩,
      .ok ⟨1, .multiply, 4, 3, 12⟩],
      ∃ step, (outcome : Except ContractionError Step) = .ok step := by
    simp
  exact hsteps outcome hmem

end Graph

end OperatorChain
