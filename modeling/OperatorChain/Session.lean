import OperatorChain.Report

/-!
# Sessions

A dialogue: a prompt, a line of input, and what the line asks for, until a line asks to leave or the
input ends.

* `Command.ofLine` — what a line asks for.
* `Session.enter`, `Session.receive`, `Session.finish` — how a session begins, what it does with one
  byte of input, and how it ends.
* `Session.converse`, `Session.run` — one byte after another, and the whole of it.
-/

namespace OperatorChain

/-- What a line of input asks for. -/
inductive Command where
  /-- To end the session. -/
  | leave
  /-- Nothing: the line is blank. -/
  | skip
  /-- The report of an expression. -/
  | calculate (expression : List Char)
  deriving DecidableEq, Repr

namespace Command

/-- The words that end a session, in lower case. -/
def exitWords : List (List Char) :=
  ["exit".toList, "quit".toList, "q".toList]

/-- Does the line ask to end the session?  Blanks around the word do not count, and neither does
the case of ASCII letters. -/
def isExit (line : List Char) : Bool :=
  exitWords.contains ((trim line).map Char.toLower)

/-- What a text asks for. -/
def ofText (line : List Char) : Command :=
  if isExit line then .leave
  else
    let expression := trim line
    if expression.isEmpty then .skip else .calculate expression

/-- What the bytes of a line ask for, ill-formed parts being replaced. -/
def ofLine (line : List UInt8) : Command :=
  ofText (Utf8.decodeLossy line)

end Command

namespace Session

/-- The lines that greet the user; the last one is empty. -/
def banner : List (List Char) :=
  ["Graph Calculator (space-separated). Examples: 2 + 2 * 2".toList,
   "Type 'exit' to quit.".toList, []]

/-- What asks for the next line. -/
def prompt : List Char :=
  "Input your expression: ".toList

/-- The byte that ends a line. -/
def lineEnd : UInt8 :=
  0x0A

/-- Greets the user, unless that is not wanted. -/
def greet (settings : Settings) : Writing Unit :=
  if settings.quiet then pure () else Writing.writeLines banner

/-- Answers a line and goes on, unless the line asks to leave: then `ended` is the result. -/
def answer {α : Type} (settings : Settings) (line : List UInt8) (ended : α) (goOn : Writing α) :
    Writing α :=
  match Command.ofLine line with
  | .leave => pure ended
  | .skip => goOn
  | .calculate expression => do
    let _ ← report settings expression
    goOn

/-- What begins a session. -/
def enter (settings : Settings) : Writing Unit := do
  greet settings
  Writing.write prompt

/-- Takes the next byte of the input.  `line` holds the bytes that have been read since the last
prompt; the byte that ends the line is the last one of them, and then the line is answered, and
there is a prompt for the next one.  The result is the line so far, and nothing if the session is
over. -/
def receive (settings : Settings) (line : Array UInt8) (byte : UInt8) :
    Writing (Option (Array UInt8)) :=
  let line := line.push byte
  if byte = lineEnd then
    answer settings line.toList none do
      Writing.write prompt
      pure (some #[])
  else pure (some line)

/-- What ends a session whose input is used up.  Bytes that no line end follows are answered as a
line where the input ends, and lost where it breaks off. -/
def finish (settings : Settings) (fault? : Option StreamFault) (line : Array UInt8) :
    Writing Unit :=
  match fault? with
  | some fault => Writing.breakOff fault
  | none => if line.isEmpty then pure () else answer settings line.toList () (Writing.write prompt)

/-- The dialogue behind a prompt. -/
def converse (settings : Settings) (fault? : Option StreamFault) (line : Array UInt8) :
    (input : List UInt8) → Writing Unit
  | [] => finish settings fault? line
  | byte :: rest => do
    match ← receive settings line byte with
    | some line => converse settings fault? line rest
    | none => pure ()

/-- A session on an input that ends, with a fault if one is given. -/
def run (settings : Settings) (input : List UInt8) (fault? : Option StreamFault) :
    Writing Unit := do
  enter settings
  converse settings fault? #[] input

end Session

end OperatorChain
