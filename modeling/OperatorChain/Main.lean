import OperatorChain.CommandLine.Program

/-!
# The command line

The outermost layer: it only moves bytes.  What an invocation does is `Options.perform`, and a
session that is typed in is fed to `Session.receive` byte by byte, as `Session.run` is.
-/

namespace OperatorChain.CommandLine

/-- Writes bytes, if there are any, and lets them out at once. -/
def emit (output : IO.FS.Stream) (bytes : Array UInt8) : IO Unit := do
  unless bytes.isEmpty do
    output.write (ByteArray.mk bytes)
    output.flush

/-- Lets a computation write, and answers how it ends. -/
def perform {α : Type} (output : IO.FS.Stream) (action : Writing α) :
    IO (Except StreamFault α) := do
  let (ended, sink) := action .unlimited
  emit output sink.written
  pure ended

/-- Hands the input to a session, byte by byte, until the session is over or the input is. -/
partial def feed (settings : Settings) (input output : IO.FS.Stream) (line : Array UInt8) :
    IO Unit := do
  let next ← input.read 1
  match next.toList with
  | [] => discard (perform output (Session.finish settings none line))
  | byte :: _ =>
    match ← perform output (Session.receive settings line byte) with
    | .ok (some line) => feed settings input output line
    | _ => pure ()

/-- The bytes of a file, if it can be read. -/
def readScript (path : List Char) : IO (Option (List UInt8)) := do
  try
    let bytes ← IO.FS.readBinFile (String.ofList path)
    pure (some bytes.toList)
  catch _ => pure none

/-- Writes what an invocation leaves; the answer is the exit code. -/
def leave (output errors : IO.FS.Stream) (outcome : Outcome) : IO UInt32 := do
  emit output outcome.output
  emit errors (Utf8.encode outcome.errors).toArray
  pure (UInt32.ofNat outcome.code)

/-- Does what the arguments ask for; the answer is the exit code. -/
def serve (arguments : List (List Char)) (input output errors : IO.FS.Stream) : IO UInt32 := do
  match Options.ofArguments arguments with
  | .error _ =>
    let outcome := invoke arguments ⟨[], fun _ => none, Sink.unlimited⟩
    -- nothing is said of it if the version gets lost
    try emit output outcome.output catch _ => pure ()
    pure (UInt32.ofNat outcome.code)
  | .ok options =>
    match options.operand with
    | none =>
      discard (perform output (Session.enter options.settings))
      feed options.settings input output #[]
      pure 0
    | some operand =>
      let script ← if options.file then readScript operand else pure none
      leave output errors (options.perform ⟨[], fun _ => script, Sink.unlimited⟩)

/-- The wording of a failure of the standard streams. -/
def failureText : IO.Error → List Char
  | .resourceExhausted _ 28 _ => brokenOutputText .noSpace
  | other => "I/O error: ".toList ++ (toString other).toList

/-- Does what the arguments ask for, on the standard streams. -/
def run (arguments : List (List Char)) : IO UInt32 := do
  let errors ← IO.getStderr
  try
    serve arguments (← IO.getStdin) (← IO.getStdout) errors
  catch fault =>
    emit errors (Utf8.encode (failureText fault ++ ['\n'])).toArray
    pure 1

end OperatorChain.CommandLine

/-- The program. -/
def main (arguments : List String) : IO UInt32 :=
  OperatorChain.CommandLine.run (arguments.map String.toList)
