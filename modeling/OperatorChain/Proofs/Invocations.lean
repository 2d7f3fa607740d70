import Mathlib.Data.List.Basic
import OperatorChain.Proofs.Arguments

/-!
# What an invocation comes to

An invocation does what its options say, and its options are all that its arguments say: in whatever
order it is said, and however it is spelled.  Arguments that say too much or too little have no
effect but the exit code.

* `Says.ofArguments_eq_ok_iff` — the options that arguments say.
* `Options.exists_says` — all options that can be carried out, can be said.
* `Says.insert` — what arguments say once something has been put between them.
* `invoke_spelled` — the outcome depends on what is said only, and faults have no effect.
-/

namespace OperatorChain

variable {arguments front part back : List (List Char)} {items : List Item} {options : Options}

/-! ## Options that are said -/

/-- If a script is announced, it is named. -/
def Options.Runnable (options : Options) : Prop :=
  options.file = true → options.operand ≠ none

/-- What comes of arguments at fault: nothing but the exit code. -/
def Outcome.misused : Outcome :=
  ⟨2, #[], []⟩

theorem Options.complete_eq_ok_iff {options' : Options} :
    options.complete = .ok options' ↔ options = options' ∧ options'.Runnable := by
  obtain ⟨file, strategy, explain, quiet, verbosity, operand⟩ := options
  rw [complete]
  cases file <;> cases operand <;> simp [Runnable] <;> rintro rfl <;> simp

theorem Options.complete_eq_error {refusal : Refusal} (h : options.complete = .error refusal) :
    refusal = .usage := by
  rw [complete] at h
  split at h <;> cases h
  rfl

theorem Options.items_initial : Options.initial.items = [] :=
  rfl

/-- **Arguments are read as the options that amount to all they say**, if these can be carried
out. -/
theorem Says.ofArguments_eq_ok_iff (h : Says arguments items) :
    Options.ofArguments arguments = .ok options ↔ options.items.Perm items ∧ options.Runnable := by
  have hread : items.foldlM Options.add .initial = .ok options ↔ options.items.Perm items := by
    rw [Options.foldlM_add_eq_ok_iff, Options.items_initial, List.append_nil]
  rw [h.ofArguments_eq, ← hread]
  cases items.foldlM Options.add .initial with
  | error refusal =>
    constructor
    · intro h
      cases h
    · intro h
      cases h.1
  | ok options' =>
    show options'.complete = _ ↔ _
    rw [Options.complete_eq_ok_iff, Except.ok.injEq]

/-- Arguments that say what no options amount to are at fault, unless they ask for something
else. -/
theorem Says.ofArguments_eq_usage (h : Says arguments items)
    (hasks : ∀ item ∈ items, ¬ item.Asks)
    (hunfit : ∀ options : Options, options.Runnable → ¬ options.items.Perm items) :
    Options.ofArguments arguments = .error .usage := by
  cases hread : Options.ofArguments arguments with
  | ok options =>
    obtain ⟨hperm, hrun⟩ := h.ofArguments_eq_ok_iff.1 hread
    exact absurd hperm (hunfit options hrun)
  | error refusal =>
    rw [h.ofArguments_eq] at hread
    cases hadd : items.foldlM Options.add .initial with
    | ok options =>
      rw [hadd] at hread
      exact congrArg Except.error (Options.complete_eq_error hread)
    | error refusal' =>
      rw [hadd] at hread
      cases hread
      exact congrArg Except.error (Options.foldlM_add_eq_error hadd hasks)

/-- What is at fault at the front is at fault, whatever comes behind it. -/
theorem Says.ofArguments_append_eq_usage (h : Says front items)
    (hasks : ∀ item ∈ items, ¬ item.Asks)
    (hunfit : ∀ options : Options, ¬ options.items.Perm items) (back : List (List Char)) :
    Options.ofArguments (front ++ back) = .error .usage := by
  obtain ⟨mode, -, hread⟩ := h.foldlM_accept .initial
  cases hadd : items.foldlM Options.add .initial with
  | ok options =>
    rw [Options.foldlM_add_eq_ok_iff, Options.items_initial, List.append_nil] at hadd
    exact absurd hadd (hunfit options)
  | error refusal =>
    cases Options.foldlM_add_eq_error hadd hasks
    rw [Options.ofArguments, List.foldlM_append, hread, hadd]
    rfl

/-- Whatever the options, there are arguments that say them. -/
theorem Options.exists_says (options : Options) : ∃ arguments, Says arguments options.items := by
  have hend := Says.ended options.operand.toList
  obtain ⟨arguments, hrest⟩ : ∃ arguments, Says arguments
      (options.strategy.toList.map (fun strategy => .strategy strategy.name) ++
        options.operand.toList.map .operand) := by
    cases options.strategy with
    | none => exact ⟨_, hend⟩
    | some strategy => exact ⟨_, .cons (.longAttached strategy.name) hend⟩
  rw [items, List.append_assoc]
  by_cases hflags : options.flags = []
  · rw [hflags]
    exact ⟨_, hrest⟩
  · exact ⟨_, .cons (.letters hflags) hrest⟩

/-! ## Something put between -/

/-- The arguments say the item if they are put behind those at the front.  Behind `--` any text is
an operand. -/
inductive Inserts (front : List (List Char)) : List (List Char) → Item → Prop
  | phrase {part : List (List Char)} {item : Item} : "--".toList ∉ front → Phrase part [item] →
      Inserts front part item
  | behindEnd (text : List Char) : "--".toList ∈ front → Inserts front [text] (.operand text)

theorem Inserts.says {item : Item} (h : Inserts [] part item) (hback : Says back items) :
    Says (part ++ back) (item :: items) := by
  cases h with
  | phrase hend hphrase => exact .cons hphrase hback
  | behindEnd text hend => cases hend

theorem Inserts.of_append {item : Item} {front' : List (List Char)}
    (h : Inserts (front' ++ front) part item) (hend : "--".toList ∉ front') :
    Inserts front part item := by
  cases h with
  | phrase hnot hphrase =>
    exact .phrase (fun hmem => hnot (List.mem_append_right front' hmem)) hphrase
  | behindEnd text hmem => exact .behindEnd text ((List.mem_append.1 hmem).resolve_left hend)

/-- The arguments are cut between an option and the strategy name that it awaits. -/
inductive CutsPair : List (List Char) → List (List Char) → List Item → Prop
  | intro {front back : List (List Char)} {opener name : List Char} {before after : List Item}
      {flags : List Flag} :
      (∀ {rest items}, Says rest items → Says (front ++ rest) (before ++ items)) →
      (∀ name, Phrase [opener, name] (flags.map .flag ++ [.strategy name])) → Says back after →
      CutsPair (front ++ [opener]) (name :: back)
        (before ++ (flags.map .flag ++ [.strategy name] ++ after))

theorem CutsPair.cons {said : List Item} (hpart : Phrase part said)
    (h : CutsPair front back items) : CutsPair (part ++ front) back (said ++ items) := by
  obtain ⟨hfront, hpair, hback⟩ := h
  rw [← List.append_assoc, ← List.append_assoc]
  refine .intro (fun h => ?_) hpair hback
  rw [List.append_assoc, List.append_assoc]
  exact .cons hpart (hfront h)

theorem end_ne_letters {flags : List Flag} {tail : List Char} (htail : tail.head? ≠ some '-') :
    "--".toList ≠ '-' :: (flags.map Flag.letter ++ tail) := by
  intro h
  have htext : ['-'] = flags.map Flag.letter ++ tail := (List.cons.inj h).2
  cases flags with
  | nil =>
    rw [List.map_nil, List.nil_append] at htext
    exact htail (by rw [← htext]; rfl)
  | cons flag flags =>
    have hletter : '-' = flag.letter := (List.cons.inj htext).1
    cases flag <;> exact absurd hletter (by decide)

/-- Only a strategy name can be mistaken for the end of the options. -/
theorem Phrase.strategy_mem_of_end_mem {said : List Item} (h : Phrase part said)
    (hend : "--".toList ∈ part) : .strategy "--".toList ∈ said := by
  cases h with
  | operand htext =>
    obtain rfl := List.mem_singleton.1 hend
    simp at htext
  | longFlag flag => exact absurd (List.mem_singleton.1 hend) (by cases flag <;> decide)
  | @letters flags hne =>
    have hne := @end_ne_letters flags [] (by simp)
    rw [List.append_nil] at hne
    exact absurd (List.mem_singleton.1 hend) hne
  | attached flags hvalue =>
    exact absurd (List.mem_singleton.1 hend) (end_ne_letters (by simp))
  | awaited flags name =>
    rcases List.mem_pair.1 hend with heq | rfl
    · exact absurd heq (end_ne_letters (by simp))
    · simp
  | longAttached name => simp at hend
  | longAwaited name =>
    rcases List.mem_pair.1 hend with heq | rfl
    · simp at heq
    · simp

theorem eq_of_append_eq_pair {α : Type} {front back : List α} {first second : α}
    (h : front ++ back = [first, second]) (hfront : front ≠ []) (hback : back ≠ []) :
    front = [first] ∧ back = [second] := by
  rcases List.append_eq_cons_iff.1 h with ⟨rfl, -⟩ | ⟨front, rfl, hrest⟩
  · exact absurd rfl hfront
  · rcases List.append_eq_singleton_iff.1 hrest.symm with ⟨rfl, rfl⟩ | ⟨rfl, rfl⟩
    · exact ⟨rfl, rfl⟩
    · exact absurd rfl hback

/-- Only an option and the name that it awaits can be cut. -/
theorem Phrase.cutsPair {said : List Item} (h : Phrase (front ++ back) said) (hfront : front ≠ [])
    (hback : back ≠ []) {rest : List (List Char)} (hrest : Says rest items) :
    CutsPair front (back ++ rest) (said ++ items) := by
  have hone : ∀ {argument}, front ++ back ≠ [argument] := by
    intro argument heq
    rcases List.append_eq_singleton_iff.1 heq with ⟨rfl, -⟩ | ⟨-, rfl⟩
    · exact hfront rfl
    · exact hback rfl
  generalize hpart : front ++ back = part at h
  cases h with
  | awaited flags name =>
    obtain ⟨rfl, rfl⟩ := eq_of_append_eq_pair hpart hfront hback
    exact @CutsPair.intro [] rest _ name [] items flags id (.awaited flags) hrest
  | longAwaited name =>
    obtain ⟨rfl, rfl⟩ := eq_of_append_eq_pair hpart hfront hback
    exact @CutsPair.intro [] rest _ name [] items [] id .longAwaited hrest
  | _ => exact absurd hpart hone

/-- **What arguments say once something has been put between them**: that as well, unless a strategy
name has been cut off from its option. -/
theorem Says.insert (h : Says (front ++ back) items) (hnames : .strategy "--".toList ∉ items)
    {item : Item} (hpart : Inserts front part item) :
    (∃ before after, items = before ++ after ∧
      Says (front ++ part ++ back) (before ++ item :: after)) ∨ CutsPair front back items := by
  generalize hsplit : front ++ back = arguments at h
  induction h generalizing front with
  | nil =>
    obtain ⟨rfl, rfl⟩ := List.append_eq_nil_iff.1 hsplit
    exact .inl ⟨[], [], rfl, hpart.says .nil⟩
  | ended texts =>
    rcases List.append_eq_cons_iff.1 hsplit with ⟨rfl, rfl⟩ | ⟨front, rfl, rfl⟩
    · exact .inl ⟨[], _, rfl, hpart.says (.ended texts)⟩
    · cases hpart with
      | phrase hend hphrase => exact absurd List.mem_cons_self hend
      | behindEnd text hend =>
        refine .inl ⟨front.map .operand, back.map .operand, List.map_append, ?_⟩
        have hsaid := Says.ended (front ++ [text] ++ back)
        rwa [List.map_append, List.map_append, List.append_assoc (front.map _)] at hsaid
  | @cons part' arguments said items hsaid hrest ih =>
    rw [List.mem_append, not_or] at hnames
    have hend : "--".toList ∉ part' := fun hmem => hnames.1 (hsaid.strategy_mem_of_end_mem hmem)
    -- The cut may lie behind the first phrase, also directly behind it.
    have hbehind : ∀ front', front = part' ++ front' → front' ++ back = arguments →
        (∃ before after, said ++ items = before ++ after ∧
          Says (front ++ part ++ back) (before ++ item :: after)) ∨
        CutsPair front back (said ++ items) := by
      rintro front' rfl hsplit'
      rcases ih hnames.2 (hpart.of_append hend) hsplit' with
        ⟨before, after, rfl, hinserted⟩ | hcut
      · refine .inl ⟨said ++ before, after, (List.append_assoc ..).symm, ?_⟩
        simpa only [List.append_assoc] using Says.cons hsaid hinserted
      · exact .inr (hcut.cons hsaid)
    rcases List.append_eq_append_iff.1 hsplit with ⟨back', rfl, rfl⟩ | ⟨front', rfl, rfl⟩
    · by_cases hfront : front = []
      · subst hfront
        exact .inl ⟨[], _, rfl, hpart.says (.cons hsaid hrest)⟩
      · by_cases hback : back' = []
        · subst hback
          exact hbehind [] (by simp) rfl
        · exact .inr (hsaid.cutsPair hfront hback hrest)
    · exact hbehind front' rfl rfl

/-! ## Faults -/

/-- No options amount to two things that exclude each other. -/
theorem Options.not_perm_items_of_clash {before after : List Item} {item other : Item}
    (hother : other ∈ before ++ after) (hclash : item.Clash other) (options : Options) :
    ¬ options.items.Perm (before ++ item :: after) := by
  intro h
  have hpairs := ((h.trans List.perm_middle).pairwise_iff fun hne hclash => hne hclash.symm).1
    options.pairwise_items
  exact (List.pairwise_cons.1 hpairs).1 other hother hclash

/-- No options amount to a strategy that there is none of. -/
theorem Options.not_perm_items_of_unknown {name : List Char} (hname : .strategy name ∈ items)
    (hunknown : ∀ strategy : Strategy, name ≠ strategy.name) (options : Options) :
    ¬ options.items.Perm items := by
  intro h
  obtain ⟨strategy, hstrategy⟩ := Options.exists_strategy_of_mem_items (h.mem_iff.2 hname)
  exact hunknown strategy hstrategy

theorem Strategy.ne_name_of_isOption {name : List Char} (h : Draft.isOption name = true)
    (strategy : Strategy) : name ≠ strategy.name := by
  rintro rfl
  cases strategy <;> cases h

theorem Phrase.head_cases {item : Item} (h : Phrase part [item]) :
    (∃ text, part = [text] ∧ item = .operand text) ∨
      ∃ argument rest, part = argument :: rest ∧ Draft.isOption argument = true := by
  generalize hsaid : [item] = said at h
  cases h with
  | operand htext => exact .inl ⟨_, rfl, (List.cons.inj hsaid).1⟩
  | longFlag flag => exact .inr ⟨_, _, rfl, by cases flag <;> rfl⟩
  | @letters flags hne =>
    refine .inr ⟨_, _, rfl, ?_⟩
    cases flags with
    | nil => exact absurd rfl hne
    | cons flag flags => rfl
  | attached flags hvalue => exact .inr ⟨_, _, rfl, by cases flags <;> rfl⟩
  | awaited flags name => exact .inr ⟨_, _, rfl, by cases flags <;> rfl⟩
  | longAttached name => exact .inr ⟨_, _, rfl, rfl⟩
  | longAwaited name => exact .inr ⟨_, _, rfl, rfl⟩

theorem Inserts.head_cases {item : Item} (h : Inserts front part item) :
    (∃ text, part = [text] ∧ item = .operand text) ∨
      ∃ argument rest, part = argument :: rest ∧ Draft.isOption argument = true := by
  cases h with
  | phrase hend hphrase => exact hphrase.head_cases
  | behindEnd text hend => exact .inl ⟨text, rfl, rfl⟩

theorem Item.not_asks_strategy (name : List Char) : ¬ (strategy name).Asks := by
  simp [Asks]

theorem Item.not_asks_operand (text : List Char) : ¬ (operand text).Asks := by
  simp [Asks]

/-- A strategy name must not be cut off from its option. -/
theorem CutsPair.ofArguments_insert (h : CutsPair front back items)
    (hitems : options.items.Perm items) {item other : Item} (hpart : Inserts front part item)
    (hother : other ∈ items) (hclash : item.Clash other) :
    Options.ofArguments (front ++ part ++ back) = .error .usage := by
  have hasks : ∀ item ∈ items, ¬ item.Asks := fun item hmem =>
    Options.not_asks_of_mem_items (hitems.mem_iff.2 hmem)
  cases h with
  | @intro front back opener name before after flags hfront hpair hback =>
    simp only [List.forall_mem_append, List.forall_mem_singleton] at hasks
    obtain ⟨hbefore, ⟨hflags, -⟩, hafter⟩ := hasks
    have hspoilt : ∀ name, ∀ item ∈ before ++ (flags.map .flag ++ [.strategy name]),
        ¬ item.Asks := by
      intro name
      simp only [List.forall_mem_append, List.forall_mem_singleton]
      exact ⟨hbefore, hflags, Item.not_asks_strategy name⟩
    rcases hpart.head_cases with ⟨text, rfl, rfl⟩ | ⟨argument, rest, rfl, hoption⟩
    · -- The text is awaited now, and the name has become a second operand.
      obtain ⟨strategy, rfl⟩ : ∃ strategy : Strategy, name = strategy.name :=
        Options.exists_strategy_of_mem_items (hitems.mem_iff.2 (by simp))
      have hname : Phrase [strategy.name] [.operand strategy.name] :=
        .operand (.inl (by cases strategy <;> decide))
      have hsaid : Says (front ++ [opener] ++ [text] ++ strategy.name :: back)
          (before ++ (flags.map .flag ++ [.strategy text]) ++ .operand strategy.name :: after) := by
        simpa using hfront (.cons (hpair text) (.cons hname hback))
      obtain ⟨text', rfl⟩ : ∃ text', other = .operand text' := by
        cases other with
        | operand text' => exact ⟨text', rfl⟩
        | _ => exact absurd hclash id
      have htwo : (Item.operand strategy.name).Clash (.operand text') := trivial
      refine hsaid.ofArguments_eq_usage ?_ fun options _ =>
        options.not_perm_items_of_clash ?_ htwo
      · rw [List.forall_mem_append, List.forall_mem_cons]
        exact ⟨hspoilt text, Item.not_asks_operand _, hafter⟩
      · simpa using hother
    · -- An option is not taken for the name that is awaited.
      have hsaid := hfront (.cons (hpair argument) .nil)
      rw [List.append_nil, List.append_nil] at hsaid
      have hrefused := hsaid.ofArguments_append_eq_usage (hspoilt argument)
        (Options.not_perm_items_of_unknown (by simp) (Strategy.ne_name_of_isOption hoption))
        (rest ++ name :: back)
      simpa using hrefused

/-- **Something too much** is refused, wherever it is put. -/
theorem Says.ofArguments_insert (h : Says (front ++ back) items) (hitems : options.items.Perm items)
    {item other : Item} (hpart : Inserts front part item) (hother : other ∈ items)
    (hclash : item.Clash other) : Options.ofArguments (front ++ part ++ back) = .error .usage := by
  have hasks : ∀ item ∈ items, ¬ item.Asks := fun item hmem =>
    Options.not_asks_of_mem_items (hitems.mem_iff.2 hmem)
  have hnames : .strategy "--".toList ∉ items := by
    intro hmem
    obtain ⟨strategy, hname⟩ := Options.exists_strategy_of_mem_items (hitems.mem_iff.2 hmem)
    exact absurd hname (strategy.ne_name_of_isOption rfl)
  rcases h.insert hnames hpart with ⟨before, after, rfl, hsaid⟩ | hcut
  · refine hsaid.ofArguments_eq_usage ?_ fun options _ =>
      options.not_perm_items_of_clash hother hclash
    have hitem := hclash.not_asks (hasks other hother)
    rw [List.forall_mem_append] at hasks
    rw [List.forall_mem_append, List.forall_mem_cons]
    exact ⟨hasks.1, hitem, hasks.2⟩
  · exact hcut.ofArguments_insert hitems hpart hother hclash

/-- The items cannot all be meant, or do not suffice: two of them exclude each other, a script is
announced but not named, or there is no such strategy. -/
def Faulty (items : List Item) : Prop :=
  (∃ first second, [first, second].Sublist items ∧ first.Clash second) ∨
    (.flag .file ∈ items ∧ ∀ text, .operand text ∉ items) ∨
    ∃ name, .strategy name ∈ items ∧ ∀ strategy : Strategy, name ≠ strategy.name

theorem Faulty.not_perm_items (h : Faulty items) (hrun : options.Runnable) :
    ¬ options.items.Perm items := by
  intro hperm
  rcases h with ⟨first, second, hpair, hclash⟩ | ⟨hfile, hoperand⟩ | ⟨name, hname, hunknown⟩
  · have hpairs := (hperm.pairwise_iff fun hne hclash => hne hclash.symm).1 options.pairwise_items
    exact List.pairwise_pair.1 (hpairs.sublist hpair) hclash
  · cases hgiven : options.operand with
    | none => exact hrun (Options.flag_mem_items.1 (hperm.mem_iff.2 hfile)) hgiven
    | some text => exact hoperand text (hperm.mem_iff.1 (Options.operand_mem_items.2 hgiven))
  · exact options.not_perm_items_of_unknown hname hunknown hperm

/-! ## Outcomes -/

theorem invoke_of_usage (h : Options.ofArguments arguments = .error .usage)
    (surroundings : Surroundings) : invoke arguments surroundings = .misused := by
  rw [invoke, h]
  rfl

/-- **An invocation does what is said**, in whatever order and spelling; and if the arguments say
too much or too little, it has no effect but the exit code, whatever else they say, and whatever the
invocation finds. -/
theorem invoke_spelled (surroundings : Surroundings) :
    (∀ options : Options, options.Runnable → ∀ {arguments items}, Says arguments items →
      options.items.Perm items →
        invoke arguments surroundings = options.perform surroundings ∧
        ∀ {front part back item other}, front ++ back = arguments → Inserts front part item →
          other ∈ items → item.Clash other →
            invoke (front ++ part ++ back) surroundings = .misused) ∧
    ∀ {arguments items}, Says arguments items → (∀ item ∈ items, ¬ item.Asks) → Faulty items →
      invoke arguments surroundings = .misused := by
  refine ⟨?_, ?_⟩
  · intro options hrun arguments items hsaid hitems
    refine ⟨?_, ?_⟩
    · rw [invoke, hsaid.ofArguments_eq_ok_iff.2 ⟨hitems, hrun⟩]
    · rintro front part back item other rfl hpart hother hclash
      exact invoke_of_usage (hsaid.ofArguments_insert hitems hpart hother hclash) surroundings
  · intro arguments items hsaid hasks hfaulty
    exact invoke_of_usage
      (hsaid.ofArguments_eq_usage hasks fun options hrun => hfaulty.not_perm_items hrun)
      surroundings

/-- The letters are in a group or not, and the operand comes first or behind `--`.  A second `-q` is
refused, even between `-vqs` and its value, and so is a script without a name. -/
theorem invoke_spelled_grouped :
    let surroundings : Surroundings := ⟨Utf8.encode "3 - 4".toList, fun _ => none, .unlimited⟩
    let grouped := ["1 + 2".toList, "-vqs".toList, "queue".toList, "--verbose".toList]
    let spread := ["--quiet".toList, "-s=queue".toList, "-vv".toList, "--".toList, "1 + 2".toList]
    invoke grouped surroundings = invoke spread surroundings ∧
      invoke ["1 + 2".toList, "-vqs".toList, "-q".toList, "queue".toList, "--verbose".toList]
        surroundings = .misused ∧
      invoke ["-ef".toList] surroundings = .misused := by
  intro surroundings grouped spread
  let options : Options := ⟨false, some .queue, false, true, 2, some "1 + 2".toList⟩
  have hrun : options.Runnable := by simp [options, Options.Runnable]
  have hgrouped : Says grouped [.operand "1 + 2".toList, .flag .verbose, .flag .quiet,
      .strategy "queue".toList, .flag .verbose] :=
    .cons (.operand (.inl (by decide))) (.cons (.awaited [.verbose, .quiet] "queue".toList)
      (.cons (.longFlag .verbose) .nil))
  have hspread : Says spread [.flag .quiet, .strategy "queue".toList, .flag .verbose,
      .flag .verbose, .operand "1 + 2".toList] :=
    .cons (.longFlag .quiet) (.cons (.attached [] (.inl rfl))
      (.cons (@Phrase.letters [.verbose, .verbose] (by decide)) (.ended ["1 + 2".toList])))
  have hscript : Says ["-ef".toList] [.flag .explain, .flag .file] :=
    .cons (@Phrase.letters [.explain, .file] (by decide)) .nil
  have hquiet : Inserts ["1 + 2".toList, "-vqs".toList] ["-q".toList] (.flag .quiet) :=
    .phrase (by decide) (@Phrase.letters [.quiet] (by decide))
  have htwice : (Item.flag .quiet).Clash (.flag .quiet) := ⟨rfl, by decide⟩
  obtain ⟨hspelled, hfaulty⟩ := invoke_spelled surroundings
  obtain ⟨hcarried, hinserted⟩ := hspelled options hrun hgrouped (by decide)
  refine ⟨?_, ?_, ?_⟩
  · rw [hcarried, (hspelled options hrun hspread (by decide)).1]
  · exact hinserted rfl hquiet (by simp) htwice
  · exact hfaulty hscript (by simp [Item.Asks]) (.inr (.inl (by simp)))

end OperatorChain
