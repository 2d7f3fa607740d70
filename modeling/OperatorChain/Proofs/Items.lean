import OperatorChain.CommandLine.Options

/-!
# What options amount to

Arguments say one thing after another, and the options are what all of it amounts to.  The order
does not matter: options are made up by the items that they amount to, each said once, and `verbose`
any number of times; and an item is refused only if something that was said before excludes it.

* `Item`, `Options.items` — one thing that can be said, and all that options amount to.
* `Item.Clash` — two things that cannot both be said.
* `Options.add` — one more item.
* `Options.eq_of_perm_items` — the items determine the options.
* `Options.foldlM_add_eq_ok_iff` — items make up the options that amount to them.
-/

namespace OperatorChain

/-! ## What is said -/

/-- One thing that arguments can say. -/
inductive Item where
  /-- A flag is set. -/
  | flag (flag : Flag)
  /-- The strategy is that of the name, if there is one. -/
  | strategy (name : List Char)
  /-- The operand is this text. -/
  | operand (text : List Char)
  deriving DecidableEq, Repr

/-- The flags that the options amount to. -/
def Options.flags (options : Options) : List Flag :=
  (if options.file then [.file] else []) ++ (if options.explain then [.explain] else []) ++
    (if options.quiet then [.quiet] else []) ++ List.replicate options.verbosity .verbose

/-- Do the options amount to the flag? -/
def Options.isSet (options : Options) : Flag → Bool
  | .file => options.file
  | .explain => options.explain
  | .quiet => options.quiet
  | .verbose => 0 < options.verbosity
  | .version | .help => false

/-- All that the options amount to: each thing once, and `verbose` as often as it was said. -/
def Options.items (options : Options) : List Item :=
  options.flags.map .flag ++
    options.strategy.toList.map (fun strategy => .strategy strategy.name) ++
    options.operand.toList.map .operand

/-- The two cannot both be said, and neither can one of them twice. -/
def Item.Clash : Item → Item → Prop
  | .flag first, .flag second => first = second ∧ first ≠ .verbose
  | .strategy _, .strategy _ => True
  | .operand _, .operand _ => True
  | _, _ => False

/-- Something else is asked for than to run. -/
def Item.Asks (item : Item) : Prop :=
  item = .flag .version ∨ item = .flag .help

/-- Adds what an item says. -/
def Options.add (options : Options) : Item → Except Refusal Options
  | .flag flag => options.switch flag
  | .strategy name => options.choose name
  | .operand text => options.giveOperand text

/-- A script must have been named if one was announced. -/
def Options.complete (options : Options) : Except Refusal Options :=
  if options.file && options.operand.isNone then .error .usage else .ok options

theorem Strategy.eq_name_of_ofName? {name : List Char} {strategy : Strategy}
    (h : Strategy.ofName? name = some strategy) : name = strategy.name := by
  have hname := List.find?_some h
  exact (of_decide_eq_true hname).symm

theorem Strategy.ofName?_name (strategy : Strategy) :
    Strategy.ofName? strategy.name = some strategy := by
  cases strategy <;> rfl

theorem Strategy.name_inj {first second : Strategy} :
    first.name = second.name ↔ first = second := by
  refine ⟨fun h => ?_, congrArg name⟩
  have hname := Strategy.ofName?_name first
  rw [h, Strategy.ofName?_name] at hname
  exact (Option.some.inj hname).symm

theorem Item.Clash.not_asks {first second : Item} (h : first.Clash second)
    (hsecond : ¬ second.Asks) : ¬ first.Asks := by
  rintro (rfl | rfl) <;> cases second with
  | flag flag =>
    obtain ⟨rfl, -⟩ := h
    simp [Item.Asks] at hsecond
  | _ => exact h

theorem Item.Clash.symm {first second : Item} (h : first.Clash second) : second.Clash first := by
  cases first <;> cases second <;> first | exact h | (obtain ⟨rfl, hne⟩ := h; exact ⟨rfl, hne⟩)

/-! ## Options by their items -/

namespace Options

variable {options options' : Options}

@[simp] theorem flag_mem_items {flag : Flag} :
    Item.flag flag ∈ options.items ↔ options.isSet flag = true := by
  cases flag <;> simp [items, flags, isSet, Nat.pos_iff_ne_zero]

theorem count_verbose_items : options.items.count (.flag .verbose) = options.verbosity := by
  have hnames : (options.strategy.toList.map fun strategy => Item.strategy strategy.name).count
      (.flag .verbose) = 0 := by
    cases options.strategy <;> rfl
  have htexts : (options.operand.toList.map Item.operand).count (.flag .verbose) = 0 := by
    cases options.operand <;> rfl
  rw [items, List.count_append, List.count_append, hnames, htexts, flags]
  cases options.file <;> cases options.explain <;> cases options.quiet <;> simp

theorem strategy_mem_items {strategy : Strategy} :
    Item.strategy strategy.name ∈ options.items ↔ options.strategy = some strategy := by
  simp [items, flags, Strategy.name_inj]

theorem operand_mem_items {text : List Char} :
    Item.operand text ∈ options.items ↔ options.operand = some text := by
  simp [items, flags]

theorem eq_of_perm_items (h : options.items.Perm options'.items) : options = options' := by
  have hflags : ∀ flag, options.isSet flag = options'.isSet flag := by
    intro flag
    rw [Bool.eq_iff_iff, ← flag_mem_items, ← flag_mem_items, h.mem_iff]
  have hfile : options.file = options'.file := hflags .file
  have hexplain : options.explain = options'.explain := hflags .explain
  have hquiet : options.quiet = options'.quiet := hflags .quiet
  have hverbosity : options.verbosity = options'.verbosity := by
    rw [← count_verbose_items, ← count_verbose_items, h.count_eq]
  have hstrategy : options.strategy = options'.strategy := Option.ext fun strategy => by
    rw [← strategy_mem_items, ← strategy_mem_items, h.mem_iff]
  have hoperand : options.operand = options'.operand := Option.ext fun text => by
    rw [← operand_mem_items, ← operand_mem_items, h.mem_iff]
  obtain ⟨file, strategy, explain, quiet, verbosity, operand⟩ := options
  congr

/-- No flag but `verbose` is amounted to twice. -/
theorem pairwise_flags (options : Options) :
    options.flags.Pairwise fun first second => ¬ (first = second ∧ first ≠ .verbose) := by
  obtain ⟨file, strategy, explain, quiet, verbosity, operand⟩ := options
  cases file <;> cases explain <;> cases quiet <;> simp [flags]

/-- No two things that options amount to exclude each other. -/
theorem pairwise_items (options : Options) :
    options.items.Pairwise fun first second => ¬ first.Clash second := by
  refine List.pairwise_append.2 ⟨List.pairwise_append.2 ⟨?_, ?_, ?_⟩, ?_, ?_⟩
  · exact List.pairwise_map.2 options.pairwise_flags
  · cases options.strategy <;> simp
  · simp [Item.Clash]
  · cases options.operand <;> simp
  · simp [or_imp, forall_and, Item.Clash]

/-! ## Item by item -/

/-- **Adding an item** makes it one of those that the options amount to. -/
theorem perm_items_add {item : Item}
    (h : options.add item = .ok options') : options'.items.Perm (item :: options.items) := by
  obtain ⟨file, strategy, explain, quiet, verbosity, operand⟩ := options
  rw [List.perm_iff_count]
  intro other
  cases item with
  | flag flag =>
    cases flag with
    | file =>
      cases file <;> cases h
      simp [items, flags, List.count_cons]
    | explain =>
      cases explain <;> cases h
      simp [items, flags, List.count_cons]
      omega
    | quiet =>
      cases quiet <;> cases h
      simp [items, flags, List.count_cons]
      omega
    | verbose =>
      cases h
      simp [items, flags, List.count_cons, List.replicate_succ]
      omega
    | version | help => cases h
  | strategy name =>
    simp only [add, choose] at h
    split at h
    · next strategy' hname =>
      cases h
      simp [items, flags, List.count_cons, Strategy.eq_name_of_ofName? hname]
      omega
    · cases h
  | operand text =>
    cases operand <;> cases h
    simp [items, flags, List.count_cons]
    omega

/-- What options amount to does not ask for anything else, and names a strategy that there is. -/
theorem not_asks_of_mem_items {item : Item} (h : item ∈ options.items) : ¬ item.Asks := by
  rintro (rfl | rfl) <;> simp [isSet] at h

theorem exists_strategy_of_mem_items {name : List Char} (h : .strategy name ∈ options.items) :
    ∃ strategy : Strategy, name = strategy.name := by
  obtain ⟨strategy, -, hname⟩ :
      ∃ strategy, options.strategy = some strategy ∧ strategy.name = name := by
    simpa [items, flags] using h
  exact ⟨strategy, hname.symm⟩

/-- **All that can be wrong with an item**: it asks for something else than to be run, it clashes
with what was said before, or it names no strategy. -/
theorem add_eq_error {refusal : Refusal} {item : Item} (h : options.add item = .error refusal) :
    item.Asks ∨ refusal = .usage ∧ ((∃ other ∈ options.items, item.Clash other) ∨
        ∃ name, item = .strategy name ∧ ∀ strategy : Strategy, name ≠ strategy.name) := by
  cases item with
  | flag flag =>
    cases flag with
    | version => exact .inl (.inl rfl)
    | help => exact .inl (.inr rfl)
    | verbose => cases h
    | file | explain | quiet =>
      simp only [add, switch] at h
      split at h
      · next hset =>
        cases h
        exact .inr ⟨rfl, .inl ⟨.flag _, by simpa [isSet] using hset, rfl, by simp⟩⟩
      · cases h
  | strategy name =>
    simp only [add, choose] at h
    split at h
    · cases h
    · next hfirst =>
      cases h
      refine .inr ⟨rfl, ?_⟩
      cases hstrategy : options.strategy with
      | some strategy => exact .inl ⟨.strategy strategy.name, by simp [items, hstrategy], trivial⟩
      | none =>
        refine .inr ⟨name, rfl, ?_⟩
        rintro strategy rfl
        exact hfirst strategy hstrategy (Strategy.ofName?_name strategy)
  | operand text =>
    simp only [add, giveOperand] at h
    split at h
    · cases h
    · next text' hoperand =>
      cases h
      exact .inr ⟨rfl, .inl ⟨_, operand_mem_items.2 hoperand, trivial⟩⟩

/-- **Items make up the options that amount to them**, in whatever order they come. -/
theorem foldlM_add_eq_ok_iff {said : List Item} :
    said.foldlM add options = .ok options' ↔ options'.items.Perm (said ++ options.items) := by
  induction said generalizing options with
  | nil =>
    constructor
    · intro h
      cases h
      exact .refl _
    · intro h
      exact congrArg Except.ok (eq_of_perm_items h).symm
  | cons item said ih =>
    rw [List.foldlM_cons]
    cases hadd : options.add item with
    | ok options₁ =>
      have hperm : (said ++ options₁.items).Perm (item :: said ++ options.items) :=
        ((perm_items_add hadd).append_left said).trans List.perm_middle
      exact ih.trans ⟨fun h => h.trans hperm, fun h => h.trans hperm.symm⟩
    | error refusal =>
      constructor
      · intro h
        cases h
      · intro h
        have hitem : item ∈ options'.items := h.mem_iff.2 List.mem_cons_self
        have hclash := (h.pairwise_iff fun hne hclash => hne hclash.symm).1 options'.pairwise_items
        rcases add_eq_error hadd with
          hasks | ⟨-, ⟨other, hmem, hother⟩ | ⟨name, rfl, hunknown⟩⟩
        · exact absurd hasks (not_asks_of_mem_items hitem)
        · exact absurd hother ((List.pairwise_cons.1 hclash).1 other (List.mem_append_right _ hmem))
        · obtain ⟨strategy, hstrategy⟩ := exists_strategy_of_mem_items hitem
          exact absurd hstrategy (hunknown strategy)

/-- Items that do not ask for anything else are refused as usage errors only. -/
theorem foldlM_add_eq_error {said : List Item} {refusal : Refusal}
    (h : said.foldlM add options = .error refusal) (hasks : ∀ item ∈ said, ¬ item.Asks) :
    refusal = .usage := by
  induction said generalizing options with
  | nil => cases h
  | cons item said ih =>
    rw [List.forall_mem_cons] at hasks
    rw [List.foldlM_cons] at h
    cases hadd : options.add item with
    | ok options₁ =>
      rw [hadd] at h
      exact ih h hasks.2
    | error refusal' =>
      rw [hadd] at h
      cases h
      rcases add_eq_error hadd with hitem | ⟨heq, -⟩
      · exact absurd hitem hasks.1
      · exact heq

end Options

end OperatorChain
