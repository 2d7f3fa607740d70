import OperatorChain.CommandLine.Options
import OperatorChain.Session

/-!
# The program

What an invocation does: it holds a session, reports a script or reports one expression.

* `Surroundings` — what an invocation finds: its input, files, and a sink for its output.
* `Outcome` — what it leaves: an exit code and what was written.
* `invoke` — from arguments and surroundings to the outcome.
-/

namespace OperatorChain

/-! ## Surroundings -/

/-- What an invocation finds. -/
structure Surroundings where
  input : List UInt8
  /-- The bytes of the file at a path, if it can be read. -/
  readFile? : List Char → Option (List UInt8)
  output : Sink

/-- What an invocation leaves.  What the reader of arguments itself has to say, of arguments at
fault or when help is asked for, is no part of it. -/
structure Outcome where
  /-- Zero for success, one for failure, two for arguments at fault. -/
  code : Nat
  output : Array UInt8
  /-- What is written to the error stream. -/
  errors : List Char
  deriving DecidableEq, Repr

/-! ## Texts -/

/-- The name and the version of the program. -/
def versionText : List Char :=
  "graph-calculator 0.1.0".toList

/-- What is said of a script that cannot be read. -/
def unreadableText (path : List Char) : List Char :=
  "Failed to read the input file '".toList ++ path ++ "'. Perhaps this file does not exist?".toList

/-- What is said when the output breaks off. -/
def brokenOutputText (fault : StreamFault) : List Char :=
  "I/O error: ".toList ++ fault.message

/-! ## Invocations -/

namespace Outcome

/-- The outcome of a computation that says whether all went well. -/
def ofWriting (action : Writing Bool) (output : Sink) : Outcome :=
  match action output with
  | (.ok true, output) => ⟨0, output.written, []⟩
  | (.ok false, output) => ⟨1, output.written, []⟩
  | (.error fault, output) => ⟨1, output.written, brokenOutputText fault ++ ['\n']⟩

/-- The outcome of printing a line.  It is a success even if the line gets lost. -/
def ofLine (line : List Char) (output : Sink) : Outcome :=
  ⟨0, (Writing.writeLine line output).2.written, []⟩

end Outcome

/-- A session as a computation that goes well unless it breaks off. -/
def hold (settings : Settings) (input : List UInt8) : Writing Bool := do
  Session.run settings input none
  pure true

/-- What an invocation with these options does. -/
def Options.perform (options : Options) (surroundings : Surroundings) : Outcome :=
  let settings := options.settings
  match options.operand with
  | none => .ofWriting (hold settings surroundings.input) surroundings.output
  | some operand =>
    if options.file then
      match (surroundings.readFile? operand).bind Utf8.decode? with
      | none => ⟨1, #[], unreadableText operand ++ ['\n']⟩
      | some script => .ofWriting (reportScript settings script) surroundings.output
    else .ofWriting (report settings operand) surroundings.output

/-- What an invocation with these arguments does. -/
def invoke (arguments : List (List Char)) (surroundings : Surroundings) : Outcome :=
  match Options.ofArguments arguments with
  | .ok options => options.perform surroundings
  | .error .usage => ⟨2, #[], []⟩
  | .error .version => .ofLine versionText surroundings.output
  | .error .help => ⟨0, #[], []⟩

end OperatorChain
