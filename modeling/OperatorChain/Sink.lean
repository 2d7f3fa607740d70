import OperatorChain.Text.Utf8

/-!
# Output that may break off

A sink keeps the bytes that it is given, up to a limit if it has one.  The write that would pass
the limit leaves the bytes that still fit and fails, and nothing is written after it.

* `Sink.put` — one write.
* `Writing` — a computation that writes, ends with a value or breaks off, and leaves a sink.
* `Writing.write`, `Writing.writeLine`, `Writing.breakOff` — its primitives.
-/

namespace OperatorChain

/-- Why a stream of bytes breaks off. -/
inductive StreamFault where
  /-- The other side takes no more. -/
  | brokenPipe
  /-- The other side gives no more. -/
  | connectionReset
  /-- The device is full. -/
  | noSpace
  deriving DecidableEq, Repr

/-- The wording of the cause. -/
def StreamFault.message : StreamFault → List Char
  | .brokenPipe => "Broken pipe (os error 32)".toList
  | .connectionReset => "Connection reset by peer (os error 104)".toList
  | .noSpace => "No space left on device (os error 28)".toList

/-- A place for bytes. -/
structure Sink where
  written : Array UInt8
  /-- The number of bytes that are taken in all, if there is a limit. -/
  limit : Option Nat
  /-- How a write that passes the limit fails. -/
  fault : StreamFault
  deriving DecidableEq, Repr

namespace Sink

/-- A new sink that takes everything. -/
def unlimited : Sink :=
  ⟨#[], none, .brokenPipe⟩

/-- A new sink that takes `limit` bytes in all. -/
def limited (limit : Nat) (fault : StreamFault) : Sink :=
  ⟨#[], some limit, fault⟩

/-- Of `count` bytes, how many are taken. -/
def room (sink : Sink) (count : Nat) : Nat :=
  match sink.limit with
  | none => count
  | some limit => min count (limit - sink.written.size)

/-- Writes the bytes that are taken, and fails if some are not. -/
def put (sink : Sink) (bytes : List UInt8) : Except StreamFault Unit × Sink :=
  let room := sink.room bytes.length
  let fault := sink.fault
  let sink := { sink with written := sink.written ++ bytes.take room }
  (if room < bytes.length then .error fault else .ok (), sink)

/-- A sink without a limit takes all bytes. -/
theorem put_of_limit_eq_none {sink : Sink} (h : sink.limit = none) (bytes : List UInt8) :
    sink.put bytes = (.ok (), { sink with written := sink.written ++ bytes }) := by
  simp [put, room, h]

end Sink

/-- A computation that writes to a sink and may break off. -/
def Writing (α : Type) : Type :=
  Sink → Except StreamFault α × Sink

namespace Writing

instance : Monad Writing where
  pure a sink := (.ok a, sink)
  bind action next sink :=
    match action sink with
    | (.ok a, sink) => next a sink
    | (.error fault, sink) => (.error fault, sink)

/-- Ends without a value. -/
def breakOff {α : Type} (fault : StreamFault) : Writing α :=
  fun sink => (.error fault, sink)

/-- Writes a text. -/
def write (text : List Char) : Writing Unit :=
  fun sink => sink.put (Utf8.encode text)

/-- Writes a text and ends the line. -/
def writeLine (text : List Char) : Writing Unit :=
  write (text ++ ['\n'])

/-- Writes each text on a line of its own. -/
def writeLines : List (List Char) → Writing Unit
  | [] => pure ()
  | text :: rest => do
    writeLine text
    writeLines rest

/-! ## How computations run -/

@[simp] theorem pure_apply {α : Type} (a : α) (sink : Sink) :
    (pure a : Writing α) sink = (.ok a, sink) := rfl

theorem bind_apply {α β : Type} (action : Writing α) (next : α → Writing β) (sink : Sink) :
    (action >>= next) sink =
      match action sink with
      | (.ok a, sink) => next a sink
      | (.error fault, sink) => (.error fault, sink) := rfl

@[simp] theorem breakOff_apply {α : Type} (fault : StreamFault) (sink : Sink) :
    (breakOff fault : Writing α) sink = (.error fault, sink) := rfl

end Writing

end OperatorChain
