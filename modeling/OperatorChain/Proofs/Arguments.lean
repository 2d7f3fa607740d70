import OperatorChain.CommandLine.Program
import OperatorChain.Proofs.Items

/-!
# How arguments spell what they say

What an invocation says can be spelled in many ways: in any order, with long names or letters,
letters on their own or in groups, the strategy attached to its option or behind it, the operand
among the options or behind `--`.  `Says` is the grammar of all this, and reading is shown to be
about what is said only.

* `Phrase`, `Says` — what one or two arguments say that belong together, and what all of them say.
* `Says.ofArguments_eq` — arguments are read item by item, however they are spelled.
-/

namespace OperatorChain

/-! ## How it is spelled -/

/-- The letter of a flag. -/
def Flag.letter : Flag → Char
  | .file => 'f'
  | .explain => 'e'
  | .quiet => 'q'
  | .verbose => 'v'
  | .version => 'V'
  | .help => 'h'

/-- The long name of a flag. -/
def Flag.longName : Flag → List Char
  | .file => "file".toList
  | .explain => "explain".toList
  | .quiet => "quiet".toList
  | .verbose => "verbose".toList
  | .version => "version".toList
  | .help => "help".toList

/-- The name stands attached to the letter of its option, with or without a `=` before it. -/
def Attached (name value : List Char) : Prop :=
  value = '=' :: name ∨ value = name ∧ name ≠ [] ∧ name.head? ≠ some '='

/-- The arguments belong together and say the items. -/
inductive Phrase : List (List Char) → List Item → Prop
  | operand {text : List Char} : text.head? ≠ some '-' ∨ text = ['-'] →
      Phrase [text] [.operand text]
  | longFlag (flag : Flag) : Phrase ["--".toList ++ flag.longName] [.flag flag]
  | letters {flags : List Flag} : flags ≠ [] →
      Phrase ['-' :: flags.map Flag.letter] (flags.map .flag)
  | attached (flags : List Flag) {name value : List Char} : Attached name value →
      Phrase ['-' :: flags.map Flag.letter ++ 's' :: value] (flags.map .flag ++ [.strategy name])
  | awaited (flags : List Flag) (name : List Char) :
      Phrase ['-' :: flags.map Flag.letter ++ ['s'], name] (flags.map .flag ++ [.strategy name])
  | longAttached (name : List Char) : Phrase ["--strategy=".toList ++ name] [.strategy name]
  | longAwaited (name : List Char) : Phrase ["--strategy".toList, name] [.strategy name]

/-- The arguments say the items, in this order.  Behind `--` there are operands only. -/
inductive Says : List (List Char) → List Item → Prop
  | nil : Says [] []
  | ended (texts : List (List Char)) : Says ("--".toList :: texts) (texts.map .operand)
  | cons {part arguments : List (List Char)} {said items : List Item} : Phrase part said →
      Says arguments items → Says (part ++ arguments) (said ++ items)

/-! ## Reading a part -/

theorem OptionName.ofLetter?_letter (flag : Flag) :
    OptionName.ofLetter? flag.letter = some (.flag flag) := by
  cases flag <;> rfl

namespace Draft

theorem short_letter_cons (flag : Flag) (rest : List Char) (options : Options) :
    short options (flag.letter :: rest) =
      options.switch flag >>= fun options => short options rest := by
  conv => lhs; unfold short
  rw [OptionName.ofLetter?_letter]

/-- The letters of flags are read one by one. -/
theorem short_map_letter (flags : List Flag) (rest : List Char) (options : Options) :
    short options (flags.map Flag.letter ++ rest) =
      flags.foldlM Options.switch options >>= fun options => short options rest := by
  induction flags generalizing options with
  | nil => rfl
  | cons flag flags ih =>
    rw [List.map_cons, List.cons_append, short_letter_cons, List.foldlM_cons]
    cases options.switch flag with
    | error refusal => rfl
    | ok options => exact ih options

theorem short_attached {name value : List Char} (h : Attached name value) (options : Options) :
    short options ('s' :: value) =
      (options.choose name).map fun options => ⟨options, .any⟩ := by
  rcases h with rfl | ⟨rfl, hne, hhead⟩
  · rfl
  · cases value with
    | nil => exact absurd rfl hne
    | cons c rest =>
      have hc : c ≠ '=' := by simpa using hhead
      conv => lhs; unfold short
      have hletter : OptionName.ofLetter? 's' = some .strategy := rfl
      simp [hletter, hc]

end Draft

theorem foldlM_add_map_flag (flags : List Flag) (options : Options) :
    (flags.map Item.flag).foldlM Options.add options = flags.foldlM Options.switch options := by
  rw [List.foldlM_map]
  rfl

/-- No strategy has a name that looks like an option. -/
theorem choose_of_isOption {name : List Char} (h : Draft.isOption name = true) (options : Options) :
    options.choose name = .error .usage := by
  have hnone : Strategy.ofName? name = none := by
    cases hname : Strategy.ofName? name with
    | none => rfl
    | some strategy =>
      rw [Strategy.eq_name_of_ofName? hname] at h
      cases strategy <;> cases h
  rw [Options.choose, hnone]
  cases options.strategy <;> rfl

/-- A name is read where one is awaited. -/
theorem foldlM_accept_name (options : Options) (name : List Char) :
    [name].foldlM Draft.accept ⟨options, .strategyName⟩ =
      (options.choose name).map fun options => ⟨options, .any⟩ := by
  cases hname : Draft.isOption name with
  | true => simp [Draft.accept, hname, choose_of_isOption, Except.map]
  | false => simp [Draft.accept, hname]

theorem accept_operand {text : List Char} (h : text.head? ≠ some '-' ∨ text = ['-'])
    (options : Options) :
    Draft.accept ⟨options, .any⟩ text =
      (options.giveOperand text).map fun options => ⟨options, .any⟩ := by
  rcases h with hhead | rfl
  · cases text with
    | nil => rfl
    | cons c rest =>
      have hc : c ≠ '-' := by simpa using hhead
      simp [Draft.accept, hc]
  · rfl

theorem accept_letters {flags : List Flag} {rest : List Char}
    (h : flags ≠ [] ∨ rest.head? = some 's') (options : Options) :
    Draft.accept ⟨options, .any⟩ ('-' :: (flags.map Flag.letter ++ rest)) =
      flags.foldlM Options.switch options >>= fun options => Draft.short options rest := by
  rw [← Draft.short_map_letter]
  cases flags with
  | nil =>
    obtain ⟨rest, rfl⟩ : ∃ value, rest = 's' :: value := by
      cases rest with
      | nil => simp at h
      | cons c rest => exact ⟨rest, by simpa using h⟩
    rfl
  | cons flag flags => cases flag <;> rfl

/-- The items of a group of letters are its flags, and then the strategy. -/
theorem foldlM_add_group (flags : List Flag) (name : List Char) (options : Options) :
    (flags.map Item.flag ++ [Item.strategy name]).foldlM Options.add options =
      flags.foldlM Options.switch options >>= fun options => options.choose name := by
  rw [List.foldlM_append, foldlM_add_map_flag]
  simp [Options.add]

/-- **A part is read item by item.** -/
theorem Phrase.foldlM_accept {part : List (List Char)} {said : List Item} (h : Phrase part said)
    (options : Options) :
    part.foldlM Draft.accept ⟨options, .any⟩ =
      (said.foldlM Options.add options).map fun options => ⟨options, .any⟩ := by
  have hpart : ∀ argument : List Char, [argument].foldlM Draft.accept ⟨options, .any⟩ =
      Draft.accept ⟨options, .any⟩ argument := by
    simp
  have hsaid : ∀ item : Item, [item].foldlM Options.add options = options.add item := by
    simp
  cases h with
  | operand htext =>
    rw [hpart, hsaid, accept_operand htext]
    rfl
  | longFlag flag =>
    rw [hpart, hsaid]
    cases flag <;> rfl
  | @letters flags hne =>
    have hread := @accept_letters flags [] (.inl hne) options
    rw [List.append_nil] at hread
    rw [hpart, hread, foldlM_add_map_flag]
    cases flags.foldlM Options.switch options <;> rfl
  | @attached flags name value hvalue =>
    rw [hpart, List.cons_append, accept_letters (.inr rfl), foldlM_add_group]
    cases flags.foldlM Options.switch options with
    | error refusal => rfl
    | ok options => exact Draft.short_attached hvalue options
  | awaited flags name =>
    rw [List.cons_append, List.foldlM_cons, accept_letters (.inr rfl), foldlM_add_group]
    cases flags.foldlM Options.switch options with
    | error refusal => rfl
    | ok options => exact foldlM_accept_name options name
  | longAttached name =>
    rw [hpart, hsaid]
    rfl
  | longAwaited name =>
    have hwaits : Draft.accept ⟨options, .any⟩ "--strategy".toList =
        .ok ⟨options, .strategyName⟩ := rfl
    rw [List.foldlM_cons, hwaits, hsaid]
    exact foldlM_accept_name options name

/-! ## Reading all arguments -/

theorem accept_behind_end (text : List Char) (options : Options) :
    Draft.accept ⟨options, .operand⟩ text =
      (options.giveOperand text).map fun options => ⟨options, .operand⟩ := by
  simp [Draft.accept]

theorem foldlM_accept_operand (texts : List (List Char)) (options : Options) :
    texts.foldlM Draft.accept ⟨options, .operand⟩ =
      ((texts.map Item.operand).foldlM Options.add options).map fun options =>
        ⟨options, .operand⟩ := by
  induction texts generalizing options with
  | nil => rfl
  | cons text texts ih =>
    rw [List.foldlM_cons, List.map_cons, List.foldlM_cons, accept_behind_end, Options.add]
    cases options.giveOperand text with
    | error refusal => rfl
    | ok options => exact ih options

/-- **Arguments are read item by item**, from wherever what was said before has left off. -/
theorem Says.foldlM_accept {arguments : List (List Char)} {items : List Item}
    (h : Says arguments items) (options : Options) :
    ∃ mode, mode ≠ .strategyName ∧ arguments.foldlM Draft.accept ⟨options, .any⟩ =
      (items.foldlM Options.add options).map fun options => ⟨options, mode⟩ := by
  induction h generalizing options with
  | nil => exact ⟨.any, by simp, rfl⟩
  | ended texts => exact ⟨.operand, by simp, foldlM_accept_operand texts options⟩
  | @cons part arguments said items hpart hrest ih =>
    rw [List.foldlM_append, hpart.foldlM_accept, List.foldlM_append]
    cases said.foldlM Options.add options with
    | error refusal => exact ⟨.any, by simp, rfl⟩
    | ok options => exact ih options

theorem Says.ofArguments_eq {arguments : List (List Char)} {items : List Item}
    (h : Says arguments items) :
    Options.ofArguments arguments = items.foldlM Options.add .initial >>= Options.complete := by
  obtain ⟨mode, hmode, hread⟩ := h.foldlM_accept .initial
  rw [Options.ofArguments, hread]
  cases items.foldlM Options.add .initial with
  | error refusal => rfl
  | ok options =>
    show Draft.finish ⟨options, mode⟩ = options.complete
    simp [Draft.finish, Options.complete, hmode]

end OperatorChain
