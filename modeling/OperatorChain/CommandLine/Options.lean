import OperatorChain.Report

/-!
# Command-line options

How the arguments of an invocation are read.  They are taken from left to right, and the first that
is at fault, or that asks for the version or for help, settles the matter.

* `Options` — what the arguments can say.
* `Options.ofArguments` — what they do say, or why there is nothing to run.

An argument that begins with `-` and is longer is an option, until an argument `--` ends the
options.  Short options may be written in one argument, and the one that takes a value ends it: the
rest is its value, after an optional `=`.  A long option takes its value after a `=`.  If no value
is attached, the next argument is the value.
-/

namespace OperatorChain

/-- What the arguments of an invocation say. -/
structure Options where
  /-- The operand names a script. -/
  file : Bool
  strategy : Option Strategy
  explain : Bool
  quiet : Bool
  /-- How often more detail was asked for. -/
  verbosity : Nat
  /-- The one argument that is no option. -/
  operand : Option (List Char)
  deriving DecidableEq, Repr

/-- Why there is nothing to run. -/
inductive Refusal where
  /-- The arguments are at fault. -/
  | usage
  /-- The version was asked for. -/
  | version
  /-- Help was asked for. -/
  | help
  deriving DecidableEq, Repr

/-! ## The options and their names -/

/-- The options without a value. -/
inductive Flag where
  | file
  | explain
  | quiet
  | verbose
  | version
  | help
  deriving DecidableEq, Repr

/-- An option: a flag, or the strategy, which takes a value. -/
inductive OptionName where
  | flag (flag : Flag)
  | strategy
  deriving DecidableEq, Repr

namespace OptionName

/-- Every option with its letter and its long name. -/
def table : List (Char × List Char × OptionName) :=
  [('f', "file".toList, .flag .file),
   ('s', "strategy".toList, .strategy),
   ('e', "explain".toList, .flag .explain),
   ('q', "quiet".toList, .flag .quiet),
   ('v', "verbose".toList, .flag .verbose),
   ('V', "version".toList, .flag .version),
   ('h', "help".toList, .flag .help)]

/-- The option that a letter stands for. -/
def ofLetter? (letter : Char) : Option OptionName :=
  (table.find? fun entry => entry.1 = letter).map fun entry => entry.2.2

/-- The option that a long name stands for.  Names are written out in full. -/
def ofName? (name : List Char) : Option OptionName :=
  (table.find? fun entry => entry.2.1 = name).map fun entry => entry.2.2

end OptionName

/-! ## One option -/

namespace Options

/-- No option and no operand. -/
def initial : Options :=
  ⟨false, none, false, false, 0, none⟩

/-- Adds a flag.  Only `verbose` may be given again. -/
def switch (options : Options) : Flag → Except Refusal Options
  | .file => if options.file then .error .usage else .ok { options with file := true }
  | .explain => if options.explain then .error .usage else .ok { options with explain := true }
  | .quiet => if options.quiet then .error .usage else .ok { options with quiet := true }
  | .verbose => .ok { options with verbosity := options.verbosity + 1 }
  | .version => .error .version
  | .help => .error .help

/-- Adds the strategy of that name.  It may not be given again. -/
def choose (options : Options) (name : List Char) : Except Refusal Options :=
  match options.strategy, Strategy.ofName? name with
  | none, some strategy => .ok { options with strategy := some strategy }
  | _, _ => .error .usage

/-- Adds the operand.  There can be only one. -/
def giveOperand (options : Options) (text : List Char) : Except Refusal Options :=
  match options.operand with
  | none => .ok { options with operand := some text }
  | some _ => .error .usage

/-- The choices that bear on what is printed. -/
def settings (options : Options) : Settings :=
  ⟨options.strategy.getD .scan, options.explain, options.quiet⟩

end Options

/-! ## One argument -/

/-- What the next argument is taken for. -/
inductive Mode where
  /-- An option or an operand. -/
  | any
  /-- The name of the strategy. -/
  | strategyName
  /-- An operand. -/
  | operand
  deriving DecidableEq, Repr

/-- What the arguments so far say, and what the next one is taken for. -/
structure Draft where
  options : Options
  mode : Mode
  deriving DecidableEq, Repr

namespace Draft

/-- Reads the letters of an argument with short options. -/
def short (options : Options) : List Char → Except Refusal Draft
  | [] => .ok ⟨options, .any⟩
  | letter :: rest =>
    match OptionName.ofLetter? letter with
    | none => .error .usage
    | some (.flag flag) => do
      let options ← options.switch flag
      short options rest
    | some .strategy =>
      match rest with
      | [] => .ok ⟨options, .strategyName⟩
      | '=' :: name => (options.choose name).map fun options => ⟨options, .any⟩
      | name => (options.choose name).map fun options => ⟨options, .any⟩

/-- Reads a long option, which is written without its `--`. -/
def long (options : Options) (text : List Char) : Except Refusal Draft :=
  let name := text.takeWhile fun c => c != '='
  match OptionName.ofName? name, text.dropWhile fun c => c != '=' with
  | some (.flag flag), [] => (options.switch flag).map fun options => ⟨options, .any⟩
  | some .strategy, [] => .ok ⟨options, .strategyName⟩
  | some .strategy, _ :: value => (options.choose value).map fun options => ⟨options, .any⟩
  | _, _ => .error .usage

/-- Does the argument look like an option? -/
def isOption : List Char → Bool
  | '-' :: _ :: _ => true
  | _ => false

/-- Reads one argument. -/
def accept (draft : Draft) (argument : List Char) : Except Refusal Draft :=
  let options := draft.options
  match draft.mode with
  | .operand => (options.giveOperand argument).map fun options => ⟨options, .operand⟩
  | .strategyName =>
    if isOption argument then .error .usage
    else (options.choose argument).map fun options => ⟨options, .any⟩
  | .any =>
    match argument with
    | ['-', '-'] => .ok ⟨options, .operand⟩
    | '-' :: '-' :: text => long options text
    | '-' :: letter :: letters => short options (letter :: letters)
    | text => (options.giveOperand text).map fun options => ⟨options, .any⟩

/-- What all arguments say.  A strategy must have been named if its option was the last argument,
and a script must have been named if one was announced. -/
def finish (draft : Draft) : Except Refusal Options :=
  let options := draft.options
  if draft.mode = .strategyName || (options.file && options.operand.isNone) then .error .usage
  else .ok options

end Draft

/-- What the arguments of an invocation say. -/
def Options.ofArguments (arguments : List (List Char)) : Except Refusal Options := do
  let draft ← arguments.foldlM Draft.accept ⟨.initial, .any⟩
  draft.finish

end OperatorChain
