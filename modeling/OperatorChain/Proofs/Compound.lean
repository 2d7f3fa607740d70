import OperatorChain.Proofs.Offences
import OperatorChain.Proofs.Spelling

/-!
# Two expressions with an operator between them

What becomes of a text that is put together from two texts and the symbol of an operator between
them is decided by what becomes of the two alone.  If both have graphs, theirs make up its graph; if
not, it is refused for what is wrong with one of them, or because the symbol stands where a number
has to stand.

* `Graph.compound` — two graphs with an operator between them, the second one renumbered.
* `ReadError.after` — an error as it shows when other words stand before its text.
* `wired_append`, `FirstOffence.after`, `FirstOffence.append`, `firstOffence_symbol` — graphs and
  offences of a sequence of words, from those of its parts.
* `ofText_compoundText` — the graph of a compound text, or why it is refused.
-/

namespace OperatorChain

/-- Two texts with the symbol of an operator between them, set off by spaces. -/
def compoundText (first : List Char) (op : Operator) (second : List Char) : List Char :=
  first ++ ' ' :: op.symbol :: ' ' :: second

/-! ## Graphs -/

/-- The node, tied to operators that stand `count` places further to the right. -/
def Node.shift (count : Nat) (node : Node) : Node :=
  { node with left := node.left.map (· + count), right := node.right.map (· + count) }

/-- The edge, `count` places further to the right, between nodes that are as far further on. -/
def Edge.shift (count : Nat) (edge : Edge) : Edge :=
  { edge with
    position := edge.position + count, left := edge.left + count, right := edge.right + count }

namespace Graph

/-- Two graphs with an operator between them.  The first graph keeps its indices, and the second one
is shifted behind the operator.  The last node of the first graph and the first node of the second
are tied to the operator, and all other links stay as they are. -/
def compound (g : Graph) (op : Operator) (g' : Graph) : Graph :=
  let between := g.edges.size
  { nodes :=
      (g.nodes.modify (g.nodes.size - 1) fun node => { node with right := some between }) ++
        (g'.nodes.map (Node.shift (between + 1))).modify 0 fun node =>
          { node with left := some between }
    edges := g.edges ++ #[⟨op, between, between, between + 1, false⟩] ++
      g'.edges.map (Edge.shift (between + 1)) }

variable {values values' : List Int} {operators operators' : List Operator}

theorem operatorBefore_shift (count i : Nat) (h : i ≠ 0) :
    (operatorBefore i).map (· + count) = operatorBefore (count + i) := by
  cases i with
  | zero => exact absurd rfl h
  | succ q => simp [operatorBefore, Nat.add_comm]

theorem operatorAfter_shift (count size i : Nat) :
    (operatorAfter size i).map (· + count) = operatorAfter (count + size) (count + i) := by
  by_cases h : i < size
  · simp [operatorAfter, h, Nat.add_comm]
  · simp [operatorAfter, h]

theorem nodes_wired_append (op : Operator) (h : values.length = operators.length + 1) :
    (wired (values ++ values') (operators ++ op :: operators')).nodes =
      ((wired values operators).compound op (wired values' operators')).nodes := by
  have hlength : (operators ++ op :: operators').length = values.length + operators'.length := by
    simp
    omega
  refine Array.ext_getElem? fun i => ?_
  rw [getElem?_nodes_wired, hlength, compound, size_nodes_wired, size_edges_wired]
  rcases Nat.lt_or_ge i values.length with hi | hi
  · -- in the first part, only the last node gets another operator on its right
    rw [List.getElem?_append_left hi, Array.getElem?_append_left (by simpa using hi),
      Array.getElem?_modify, getElem?_nodes_wired, operatorAfter_of_lt (by omega)]
    by_cases hlast : values.length - 1 = i
    · rw [if_pos hlast, Option.map_map, show operators.length = i by omega]
      rfl
    · rw [if_neg hlast, operatorAfter_of_lt (by omega)]
  · -- in the second part, only the first node gets another operator on its left
    obtain ⟨j, rfl⟩ := Nat.exists_eq_add_of_le hi
    rw [List.getElem?_append_right hi, Array.getElem?_append_right (by simp),
      Array.size_modify, size_nodes_wired, Nat.add_sub_cancel_left, Array.getElem?_modify,
      Array.getElem?_map, getElem?_nodes_wired, ← h, ← operatorAfter_shift]
    by_cases hfirst : 0 = j
    · subst hfirst
      rw [if_pos rfl, Option.map_map, Option.map_map, Nat.add_zero, h]
      rfl
    · rw [if_neg hfirst, Option.map_map, ← operatorBefore_shift _ _ (Ne.symm hfirst)]
      rfl

theorem edges_wired_append (op : Operator) :
    (wired (values ++ values') (operators ++ op :: operators')).edges =
      ((wired values operators).compound op (wired values' operators')).edges := by
  have hshift : (operators'.mapIdx fun q operator => (⟨operator, q + 1 + operators.length,
      q + 1 + operators.length, q + 1 + operators.length + 1, false⟩ : Edge)) =
      (operators'.mapIdx fun q operator => ⟨operator, q, q, q + 1, false⟩).map
        (Edge.shift (operators.length + 1)) := by
    refine List.ext_getElem? fun q => ?_
    simp only [List.getElem?_mapIdx, List.getElem?_map, Option.map_map, Function.comp_def,
      Edge.shift]
    congr 2
    funext operator
    congr 1 <;> omega
  simp [wired, compound, List.mapIdx_append, List.mapIdx_cons, hshift]

/-- **The graph of two sequences with an operator between them** is made up of their graphs. -/
theorem wired_append (op : Operator) (h : values.length = operators.length + 1) :
    wired (values ++ values') (operators ++ op :: operators') =
      (wired values operators).compound op (wired values' operators') :=
  congrArg₂ Graph.mk (nodes_wired_append op h) (edges_wired_append op)

end Graph

/-- Two ways of writing, with a symbol between them, are a way of writing. -/
theorem Spells.append {values values' : List Int} {operators operators' : List Operator}
    {ws ws' : List (List Char)} (op : Operator) (h : Spells values operators ws)
    (h' : Spells values' operators' ws') :
    Spells (values ++ values') (operators ++ op :: operators') (ws ++ [op.symbol] :: ws') := by
  induction h' with
  | single hword => exact h.snoc hword
  | @snoc values' operators' ws' operator value word _ hword ih =>
    have hmore : Spells (values ++ values' ++ [value]) (operators ++ op :: operators' ++ [operator])
        (ws ++ [op.symbol] :: ws' ++ [[operator.symbol], word]) := ih.snoc hword
    rwa [List.append_assoc, List.append_assoc, List.append_assoc] at hmore

/-! ## Errors -/

namespace ReadError

/-- The error as it shows when `count` words stand before its text, the last of them an operator:
all positions are that much larger, and a text without words lacks the number that has to follow. -/
def after (count : Nat) : ReadError → ReadError
  | .emptyExpression => .unexpectedEndOfInput count
  | .unexpectedToken token position => .unexpectedToken token (position + count)
  | .malformedExpression token position expected =>
    .malformedExpression token (position + count) expected
  | .literalTooLarge token position => .literalTooLarge token (position + count)
  | .unexpectedEndOfInput position => .unexpectedEndOfInput (position + count)

/-- The error is about a word of its text, and not about words that are missing. -/
def AtWord : ReadError → Prop
  | .emptyExpression | .unexpectedEndOfInput _ => False
  | .unexpectedToken .. | .malformedExpression .. | .literalTooLarge .. => True

end ReadError

/-- An even number of words does not change what the words behind them have to be. -/
theorem Expected.at_add {count : Nat} (h : count % 2 = 0) (index : Nat) :
    Expected.at (count + index) = Expected.at index := by
  unfold Expected.at
  rw [show (count + index) % 2 = index % 2 by omega]

theorem AllFit.append {front ws : List (List Char)} (hfront : AllFit front)
    (heven : front.length % 2 = 0) (h : AllFit ws) : AllFit (front ++ ws) := by
  intro i word hi
  rcases Nat.lt_or_ge i front.length with hlt | hge
  · rw [List.getElem?_append_left hlt] at hi
    exact hfront i word hi
  · obtain ⟨j, rfl⟩ := Nat.exists_eq_add_of_le hge
    rw [List.getElem?_append_right hge, Nat.add_sub_cancel_left] at hi
    rw [Expected.at_add heven]
    exact h j word hi

theorem Misfit.after {position : Nat} {word : List Char} {expected : Expected} {error : ReadError}
    (h : Misfit position word expected error) (count : Nat) :
    Misfit (position + count) word expected (error.after count) := by
  cases h with
  | unknown hnumeral hsymbol => exact .unknown hnumeral hsymbol
  | symbol hword => exact .symbol hword
  | numeral hvalue => exact .numeral hvalue
  | tooLarge hvalue hrange => exact .tooLarge hvalue hrange

/-- **Words that fit in front** of others, an even number of them, leave the first offence of these
what it is. -/
theorem FirstOffence.after {front ws : List (List Char)} {error : ReadError}
    (hfront : AllFit front) (hne : front ≠ []) (heven : front.length % 2 = 0)
    (h : FirstOffence ws error) : FirstOffence (front ++ ws) (error.after front.length) := by
  cases h with
  | noWords =>
    rw [List.append_nil]
    exact .noEnd hne heven hfront
  | @word front' rest word error hfit hmisfit =>
    have hlength : (front ++ front').length = front'.length + front.length := by
      rw [List.length_append, Nat.add_comm]
    rw [← List.append_assoc]
    refine .word (hfront.append heven hfit) ?_
    rw [hlength, Nat.add_comm, Expected.at_add heven, Nat.add_comm]
    exact hmisfit.after front.length
  | noEnd _ heven' hfit =>
    have hlength : (front ++ ws).length = ws.length + front.length := by
      rw [List.length_append, Nat.add_comm]
    have hend : FirstOffence (front ++ ws) (.unexpectedEndOfInput (front ++ ws).length) :=
      .noEnd (by simp [hne]) (by omega) (hfront.append heven hfit)
    rwa [hlength] at hend

/-- **Words behind** an offence that is about a word play no part in it. -/
theorem FirstOffence.append {ws : List (List Char)} {error : ReadError} (h : FirstOffence ws error)
    (hword : error.AtWord) (rest : List (List Char)) : FirstOffence (ws ++ rest) error := by
  cases h with
  | noWords => exact hword.elim
  | noEnd _ _ _ => exact hword.elim
  | word hfit hmisfit =>
    rw [List.append_assoc, List.cons_append]
    exact .word hfit hmisfit

/-- **A symbol where a number has to stand** is the first offence, whatever follows. -/
theorem firstOffence_symbol {ws : List (List Char)} (hfit : AllFit ws)
    (heven : ws.length % 2 = 0) (op : Operator) (rest : List (List Char)) :
    FirstOffence (ws ++ [op.symbol] :: rest)
      (.malformedExpression [op.symbol] ws.length .number) := by
  refine .word hfit ?_
  rw [Expected.at, if_pos heven]
  exact .symbol rfl

/-- The words of a text that ends too early fit, as far as they go. -/
theorem FirstOffence.of_noEnd {ws : List (List Char)} {position : Nat}
    (h : FirstOffence ws (.unexpectedEndOfInput position)) : AllFit ws ∧ ws.length % 2 = 0 := by
  cases h with
  | @word front rest word error _ hmisfit =>
    -- no word is missing where there is one to blame
    generalize Expected.at front.length = expected at hmisfit
    cases hmisfit
  | noEnd _ heven hfit => exact ⟨hfit, heven⟩

namespace Graph

theorem ofText_compoundText_eq (first : List Char) (op : Operator) (second : List Char) :
    ofText (compoundText first op second) =
      ofWords (words first ++ [op.symbol] :: words second) := by
  rw [ofText, compoundText, words_append_symbol]

/-- **What becomes of a compound text.**  Two texts with graphs make a text with the graph made up
of theirs.  If only the first has a graph, the text is refused for the second, with all positions
shifted behind the symbol.  If the first is refused for one of its words, the text is refused for
the same, whatever follows.  If the first has no words, or lacks a number at its end, the symbol is
refused in the place of that number. -/
theorem ofText_compoundText (first : List Char) (op : Operator) (second : List Char) :
    (∀ g g', ofText first = .ok g → ofText second = .ok g' →
        ofText (compoundText first op second) = .ok (g.compound op g')) ∧
      (∀ g error, ofText first = .ok g → ofText second = .error error →
        ofText (compoundText first op second) =
          .error (error.after ((words first).length + 1))) ∧
      (∀ error, ofText first = .error error → error.AtWord →
        ofText (compoundText first op second) = .error error) ∧
      ((words first = [] ∨ ∃ position, ofText first = .error (.unexpectedEndOfInput position)) →
        ofText (compoundText first op second) =
          .error (.malformedExpression [op.symbol] (words first).length .number)) := by
  rw [ofText_compoundText_eq]
  refine ⟨?_, ?_, ?_, ?_⟩
  · intro g g' h h'
    obtain ⟨values, operators, hrange, hspells, rfl⟩ := ofWords_eq_ok_iff_spells.1 h
    obtain ⟨values', operators', hrange', hspells', rfl⟩ := ofWords_eq_ok_iff_spells.1 h'
    refine ofWords_eq_ok_iff_spells.2 ⟨_, _, ?_, hspells.append op hspells', ?_⟩
    · intro a ha
      exact (List.mem_append.1 ha).elim (hrange a) (hrange' a)
    · rw [wired_append op hspells.length_eq]
  · intro g error h h'
    obtain ⟨hodd, hfit⟩ := exists_ofWords_iff.1 ⟨g, h⟩
    have hop : (Expected.at (words first).length).Allows [op.symbol] := by
      rw [Expected.at, if_neg (by omega)]
      exact ⟨op, rfl⟩
    have hoffence := (ofWords_eq_error_iff.1 h').after (allFit_append_singleton.2 ⟨hfit, hop⟩)
      (by simp) (by rw [List.length_append, List.length_singleton]; omega)
    rw [List.append_assoc, List.length_append, List.length_singleton] at hoffence
    exact ofWords_eq_error_iff.2 hoffence
  · intro error h hword
    exact ofWords_eq_error_iff.2 ((ofWords_eq_error_iff.1 h).append hword _)
  · intro h
    have hfit : AllFit (words first) ∧ (words first).length % 2 = 0 := by
      rcases h with hempty | ⟨position, hend⟩
      · rw [hempty]
        exact ⟨allFit_nil, rfl⟩
      · exact (ofWords_eq_error_iff.1 hend).of_noEnd
    exact ofWords_eq_error_iff.2 (firstOffence_symbol hfit.1 hfit.2 op _)

/-- A symbol in the place of a number, and nothing behind it is looked at. -/
example : ofText (compoundText "1 +".toList .multiply "x".toList) =
    .error (.malformedExpression ['*'] 2 .number) := rfl

end Graph

end OperatorChain
