import OperatorChain.Proofs.Numerals
import OperatorChain.Proofs.Printing

/-!
# All ways of writing an expression

Values with operators between them can be written in many ways: each value in any of its spellings,
and any blanks around the words.  The graph is the same for all of them, and every graph that a text
has is the graph of values and operators that the text is a way of writing.

* `Spells` — words that are a way of writing given values and operators.
* `Graph.wired` — the graph of values and operators, given node by node and edge by edge.
* `ofWords_eq_ok_iff_spells` — the builder answers the graph of what the words spell.
* `ofText_eq_ok_iff_spelled` — the same for texts; and what a graph holds may be written and read
  again.
-/

namespace OperatorChain

/-- The words are a way of writing the values with the operators between them. -/
inductive Spells : List Int → List Operator → List (List Char) → Prop
  | single {value : Int} {word : List Char} : Spelling value word → Spells [value] [] [word]
  | snoc {values : List Int} {operators : List Operator} {ws : List (List Char)}
      {operator : Operator} {value : Int} {word : List Char} : Spells values operators ws →
      Spelling value word →
      Spells (values ++ [value]) (operators ++ [operator]) (ws ++ [[operator.symbol], word])

theorem readLiteral?_eq_some_iff_spelling {word : List Char} {value : Int} :
    readLiteral? word = some value ↔ Spelling value word ∧ InRange value := by
  rw [readLiteral?_eq_some_iff, readInteger?_eq_some_iff, numeral_iff_spelling]

namespace Spells

variable {values : List Int} {operators : List Operator} {ws : List (List Char)}

theorem isWord (h : Spells values operators ws) : ∀ word ∈ ws, IsWord word := by
  induction h with
  | single hword => exact List.forall_mem_singleton.2 (numeral_iff_spelling.2 hword).isWord
  | @snoc values operators ws operator value word _ hword ih =>
    refine List.forall_mem_append.2 ⟨ih, List.forall_mem_cons.2 ⟨operator.isWord_symbol, ?_⟩⟩
    exact List.forall_mem_singleton.2 (numeral_iff_spelling.2 hword).isWord

theorem length_eq (h : Spells values operators ws) : values.length = operators.length + 1 := by
  induction h with
  | single _ => rfl
  | snoc _ _ ih => simp [ih]

theorem length_words (h : Spells values operators ws) : ws.length = 2 * operators.length + 1 := by
  induction h with
  | single _ => rfl
  | snoc _ _ ih =>
    simp only [List.length_append, List.length_cons, List.length_nil, ih]
    omega

/-- The operators are the words at the odd places. -/
theorem getElem?_symbol (h : Spells values operators ws) {p : Nat} {operator : Operator}
    (hp : operators[p]? = some operator) : ws[2 * p + 1]? = some [operator.symbol] := by
  induction h with
  | single _ => cases hp
  | @snoc values operators ws last value word h _ ih =>
    have hlength := h.length_words
    rw [List.getElem?_append] at hp
    split at hp
    · rw [List.getElem?_append_left (by omega)]
      exact ih hp
    · rw [List.getElem?_singleton, Option.ite_none_right_eq_some] at hp
      obtain ⟨hzero, hlast⟩ := hp
      cases hlast
      rw [List.getElem?_append_right (by omega), show 2 * p + 1 - ws.length = 0 by omega]
      rfl

/-- The values are written by the words at the even places. -/
theorem getElem?_numeral (h : Spells values operators ws) {i : Nat} {value : Int}
    (hi : values[i]? = some value) : ∃ word, ws[2 * i]? = some word ∧ Numeral word value := by
  induction h with
  | @single only word hword =>
    rw [List.getElem?_singleton, Option.ite_none_right_eq_some] at hi
    obtain ⟨rfl, honly⟩ := hi
    cases honly
    exact ⟨word, rfl, numeral_iff_spelling.2 hword⟩
  | @snoc values operators ws operator last word h hword ih =>
    have hvalues := h.length_eq
    have hlength := h.length_words
    rw [List.getElem?_append] at hi
    split at hi
    · rw [List.getElem?_append_left (by omega)]
      exact ih hi
    · rw [List.getElem?_singleton, Option.ite_none_right_eq_some] at hi
      obtain ⟨hzero, hlast⟩ := hi
      cases hlast
      refine ⟨word, ?_, numeral_iff_spelling.2 hword⟩
      rw [List.getElem?_append_right (by omega), show 2 * i - ws.length = 1 by omega]
      rfl

end Spells

namespace Chain

/-- What the words spell is read from them. -/
theorem exists_ofWords?_of_spells {values : List Int} {operators : List Operator}
    {ws : List (List Char)} (h : Spells values operators ws) (hrange : ∀ a ∈ values, InRange a) :
    ∃ c, ofWords? ws = some c ∧ c.operands = values ∧ c.operators = operators := by
  induction h with
  | @single value word hword =>
    have hread := readLiteral?_eq_some_iff_spelling.2
      ⟨hword, hrange value (List.mem_singleton_self value)⟩
    refine ⟨.single value, ?_, rfl, rfl⟩
    simp [ofWords?, hread, extend?]
  | @snoc values operators ws operator value word _ hword ih =>
    obtain ⟨c, hc, rfl, rfl⟩ := ih fun a ha => hrange a (List.mem_append_left _ ha)
    have hread := readLiteral?_eq_some_iff_spelling.2
      ⟨hword, hrange value (List.mem_append_right _ (List.mem_singleton_self value))⟩
    refine ⟨c.snoc c.size operator value, ?_, rfl, rfl⟩
    rw [ofWords?_append _ hc, extend?, Operator.ofWord?_symbol, hread]
    rfl

/-- Words behind a chain that spells other words spell, together with these, the chain that they
extend it to. -/
theorem spells_of_extend? {c c' : Chain Int} {front ws : List (List Char)}
    (hfront : Spells c.operands c.operators front) (h : c.extend? ws = some c') :
    Spells c'.operands c'.operators (front ++ ws) := by
  induction c, ws using extend?.induct generalizing front with
  | case1 c =>
    cases h
    rwa [List.append_nil]
  | case2 c word => cases h
  | case3 c symbol numeral rest operator value hv hop ih =>
    rw [extend?, hop, hv] at h
    have hsymbol := Operator.ofWord?_eq_some_iff.1 hop
    have hword := (readLiteral?_eq_some_iff_spelling.1 hv).1
    have hmore : Spells (c.operands ++ [value]) (c.operators ++ [operator])
        (front ++ [symbol, numeral]) := hsymbol ▸ hfront.snoc hword
    have hrest := ih hmore h
    rwa [List.append_assoc] at hrest
  | case4 c symbol numeral rest hnot =>
    obtain ⟨operator, value, hop, hv, -⟩ := extend?_cons_cons_eq_some_iff.1 h
    exact absurd hv (hnot operator value hop)

/-- What is read from words is what they spell. -/
theorem spells_of_ofWords? {c : Chain Int} {ws : List (List Char)} (h : ofWords? ws = some c) :
    Spells c.operands c.operators ws := by
  cases ws with
  | nil => cases h
  | cons numeral rest =>
    obtain ⟨value, hv, hrest⟩ := ofWords?_cons_eq_some_iff.1 h
    have hfirst : Spells (single value).operands (single value).operators [numeral] :=
      .single (readLiteral?_eq_some_iff_spelling.1 hv).1
    exact spells_of_extend? hfirst hrest

end Chain

namespace Graph

/-- The graph of values with operators between them.  Node `i` holds value `i` and is tied to the
operators on its two sides, if there are any; edge `q` is operator `q`, between the nodes `q` and
`q + 1`, and is pending. -/
def wired (values : List Int) (operators : List Operator) : Graph where
  nodes := (values.mapIdx fun i value =>
    ⟨value, operatorBefore i, operatorAfter operators.length i⟩).toArray
  edges := (operators.mapIdx fun q operator => ⟨operator, q, q, q + 1, false⟩).toArray

section Wired

variable {values : List Int} {operators : List Operator}

@[simp] theorem size_nodes_wired : (wired values operators).nodes.size = values.length := by
  simp [wired]

@[simp] theorem size_edges_wired : (wired values operators).edges.size = operators.length := by
  simp [wired]

theorem getElem?_nodes_wired (i : Nat) :
    (wired values operators).nodes[i]? = values[i]?.map fun value =>
      ⟨value, operatorBefore i, operatorAfter operators.length i⟩ := by
  simp [wired]

theorem getElem?_edges_wired (q : Nat) :
    (wired values operators).edges[q]? = operators[q]?.map fun operator =>
      ⟨operator, q, q, q + 1, false⟩ := by
  simp [wired]

end Wired

/-- To lay a chain out step by step is to give its graph node by node and edge by edge. -/
theorem layout_eq_wired (c : Chain Int) : layout c true = wired c.operands c.operators := by
  have hnodes : (layout c true).nodes = (wired c.operands c.operators).nodes := by
    refine Array.ext_getElem? fun i => ?_
    rw [getElem?_nodes_layout, getElem?_nodes_wired, Chain.length_operators]
    rfl
  have hedges : (layout c true).edges = (wired c.operands c.operators).edges := by
    refine Array.ext_getElem? fun q => ?_
    rw [getElem?_edges_layout, getElem?_edges_wired]
  exact congrArg₂ Graph.mk hnodes hedges

/-- **The builder answers the graph of what the words spell.** -/
theorem ofWords_eq_ok_iff_spells {ws : List (List Char)} {g : Graph} :
    ofWords ws = .ok g ↔ ∃ values operators, (∀ a ∈ values, InRange a) ∧
      Spells values operators ws ∧ g = wired values operators := by
  rw [ofWords_eq_ok_iff]
  constructor
  · rintro ⟨c, hc, rfl⟩
    exact ⟨c.operands, c.operators, Chain.inRange_of_ofWords? hc, Chain.spells_of_ofWords? hc,
      layout_eq_wired c⟩
  · rintro ⟨values, operators, hrange, hspells, rfl⟩
    obtain ⟨c, hc, rfl, rfl⟩ := Chain.exists_ofWords?_of_spells hspells hrange
    exact ⟨c, hc, (layout_eq_wired c).symm⟩

/-- The numbers of the operators play no part in a layout. -/
theorem layout_renumber (c : Chain Int) (isLast : Bool) :
    layout c.renumber isLast = layout c isLast := by
  induction c generalizing isLast with
  | single => rfl
  | snoc front position operator value ih => simp [Chain.renumber, layout, ih]

/-- The canonical text of a chain has the graph of its values and operators. -/
theorem ofText_text {c : Chain Int} (h : ∀ a ∈ c.operands, InRange a) :
    ofText c.text = .ok (wired c.operands c.operators) :=
  ofText_eq_ok_iff.2 ⟨c.renumber, Chain.ofText?_text h, by rw [layout_renumber, layout_eq_wired]⟩

/-- **All ways of writing an expression, and no other texts, have its graph.**  A text has a graph
exactly when it is a way of writing some values in range with operators between them, and then it is
the graph of these.  The values and operators that the graph holds make up a chain, and the
canonical text of that chain has the same graph. -/
theorem ofText_eq_ok_iff_spelled (text : List Char) (g : Graph) :
    (ofText text = .ok g ↔ ∃ values operators ws, (∀ a ∈ values, InRange a) ∧
        Spells values operators ws ∧ Spaced ws text ∧ g = wired values operators) ∧
      (ofText text = .ok g → ∃ c : Chain Int, c.operands = g.nodes.toList.map Node.value ∧
        c.operators = g.edges.toList.map Edge.operator ∧ ofText c.text = .ok g) := by
  refine ⟨?_, fun h => ?_⟩
  · rw [ofText, ofWords_eq_ok_iff_spells]
    constructor
    · rintro ⟨values, operators, hrange, hspells, hg⟩
      exact ⟨values, operators, words text, hrange, hspells, (words_eq_iff.1 rfl).1, hg⟩
    · rintro ⟨values, operators, ws, hrange, hspells, hspaced, hg⟩
      exact ⟨values, operators, hrange, hspaced.words_eq hspells.isWord ▸ hspells, hg⟩
  · obtain ⟨c, hc, rfl⟩ := ofText_eq_ok_iff.1 h
    refine ⟨c, (map_value_nodes_layout c true).symm, (map_operator_edges_layout c true).symm, ?_⟩
    rw [ofText_text (Chain.inRange_of_ofText? hc), layout_eq_wired]

/-- Signs, zeros and blanks of all kinds. -/
example : ofText "\t+007 *\u00a0-0\n".toList = .ok (wired [7, 0] [.multiply]) := rfl

end Graph

end OperatorChain
