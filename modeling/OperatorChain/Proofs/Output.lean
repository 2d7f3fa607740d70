import OperatorChain.Session

/-!
# What a computation writes

A computation that is put together from writes, values and breaks has an output of its own: the
bytes that it writes where nothing limits it.  On any other sink it is as if this output were
written in one piece, however many writes it is made of.

* `Sink.put_append` — writing in pieces is writing in one piece.
* `Writing.output`, `Writing.outcome` — what a computation writes, and how it ends.
* `Writing.Yields` — the computation is one write of these bytes, and then this outcome.
* `Yields.bind_ok` — computations one after the other.
* `Yields.limited` — what a sink with a limit makes of a computation.
* `yields_report` — a report is the writing of its lines.
-/

namespace OperatorChain

/-! ## Writing in pieces -/

namespace Sink

/-- The sink with more bytes in it, whether or not they are within its limit. -/
def extend (sink : Sink) (bytes : List UInt8) : Sink :=
  { sink with written := sink.written ++ bytes }

variable (sink : Sink)

@[simp] theorem toList_written_extend (bytes : List UInt8) :
    (sink.extend bytes).written.toList = sink.written.toList ++ bytes :=
  Array.toList_appendList

@[simp] theorem size_written_extend (bytes : List UInt8) :
    (sink.extend bytes).written.size = sink.written.size + bytes.length := by
  rw [← Array.length_toList, toList_written_extend, List.length_append, Array.length_toList]

@[simp] theorem limit_extend (bytes : List UInt8) : (sink.extend bytes).limit = sink.limit :=
  rfl

@[simp] theorem extend_nil : sink.extend [] = sink := by
  simp [extend]

theorem extend_extend (first second : List UInt8) :
    (sink.extend first).extend second = sink.extend (first ++ second) := by
  have hwritten : ((sink.extend first).extend second).written =
      (sink.extend (first ++ second)).written := Array.ext' (by simp)
  simpa [extend] using hwritten

theorem room_le (count : Nat) : sink.room count ≤ count := by
  unfold room
  split <;> omega

theorem put_eq (bytes : List UInt8) :
    sink.put bytes =
      (if sink.room bytes.length < bytes.length then .error sink.fault else .ok (),
        sink.extend (bytes.take (sink.room bytes.length))) := rfl

/-- Where there is room for the first bytes, the others find the room that these leave. -/
theorem room_append {first : List UInt8} (h : sink.room first.length = first.length)
    (count : Nat) :
    sink.room (first.length + count) = first.length + (sink.extend first).room count := by
  have hsize := sink.size_written_extend first
  unfold room at h ⊢
  rw [hsize, limit_extend]
  cases hlimit : sink.limit with
  | none => rfl
  | some limit =>
    rw [hlimit] at h
    dsimp only at h ⊢
    omega

/-- Where there is no room for the first bytes, there is none for any others. -/
theorem room_append_of_lt {first : List UInt8} (h : sink.room first.length < first.length)
    (count : Nat) : sink.room (first.length + count) = sink.room first.length := by
  unfold room at h ⊢
  cases hlimit : sink.limit with
  | none => simp [hlimit] at h
  | some limit =>
    rw [hlimit] at h
    dsimp only at h ⊢
    omega

/-- **Two writes are one.**  Writing one piece after another is writing both in one piece. -/
theorem put_append (first second : List UInt8) :
    sink.put (first ++ second) =
      match sink.put first with
      | (.ok (), sink) => sink.put second
      | (.error fault, sink) => (.error fault, sink) := by
  have hle := sink.room_le first.length
  by_cases hfits : sink.room first.length < first.length
  · have hroom := sink.room_append_of_lt hfits second.length
    have htake : (first ++ second).take (sink.room first.length) =
        first.take (sink.room first.length) := List.take_append_of_le_length hle
    rw [sink.put_eq first, if_pos hfits, put_eq, List.length_append, hroom, if_pos (by omega),
      htake]
  · have hall : sink.room first.length = first.length := by omega
    have hroom := sink.room_append hall second.length
    rw [sink.put_eq first, if_neg hfits, hall, List.take_length, put_eq, List.length_append, hroom,
      List.take_length_add_append, ← extend_extend]
    show _ = (sink.extend first).put second
    simp only [put_eq, Nat.add_lt_add_iff_left]
    rfl

/-- A write of nothing changes nothing. -/
theorem put_nil : sink.put [] = (.ok (), sink) := by
  simp [put_eq]

theorem put_unlimited (bytes : List UInt8) :
    unlimited.put bytes = (.ok (), unlimited.extend bytes) :=
  put_of_limit_eq_none rfl bytes

theorem put_limited (limit : Nat) (fault : StreamFault) (bytes : List UInt8) :
    (limited limit fault).put bytes =
      (if limit < bytes.length then .error fault else .ok (),
        (limited limit fault).extend (bytes.take limit)) := by
  have hroom : (limited limit fault).room bytes.length = min bytes.length limit := by
    simp [room, limited]
  have hlt : min bytes.length limit < bytes.length ↔ limit < bytes.length := by omega
  have htake : bytes.take (min bytes.length limit) = bytes.take limit := by
    rw [List.take_eq_take_iff]
    omega
  simp only [put_eq, hroom, hlt, htake]
  rfl

end Sink

/-! ## Computations as one write -/

namespace Writing

variable {α β : Type}

/-- The bytes that a computation writes where nothing limits it. -/
def output (action : Writing α) : List UInt8 :=
  (action .unlimited).2.written.toList

/-- How a computation ends where nothing limits it. -/
def outcome (action : Writing α) : Except StreamFault α :=
  (action .unlimited).1

/-- The computation writes the bytes and then ends with the result, or it breaks off within the
bytes where the sink does. -/
def Yields (action : Writing α) (bytes : List UInt8) (result : Except StreamFault α) : Prop :=
  ∀ sink : Sink, action sink =
    match sink.put bytes with
    | (.ok (), sink) => (result, sink)
    | (.error fault, sink) => (.error fault, sink)

theorem Yields.apply_unlimited {action : Writing α} {bytes : List UInt8}
    {result : Except StreamFault α} (h : action.Yields bytes result) :
    action .unlimited = (result, Sink.unlimited.extend bytes) := by
  rw [h, Sink.put_unlimited]

theorem Yields.output_eq {action : Writing α} {bytes : List UInt8} {result : Except StreamFault α}
    (h : action.Yields bytes result) : action.output = bytes := by
  rw [output, h.apply_unlimited, Sink.toList_written_extend]
  rfl

theorem Yields.outcome_eq {action : Writing α} {bytes : List UInt8} {result : Except StreamFault α}
    (h : action.Yields bytes result) : action.outcome = result := by
  rw [outcome, h.apply_unlimited]

/-- What a computation writes and how it ends is all that there is to it. -/
theorem Yields.unique {action action' : Writing α} {bytes : List UInt8}
    {result : Except StreamFault α} (h : action.Yields bytes result)
    (h' : action'.Yields bytes result) : action = action' := by
  funext sink
  rw [h, h']

/-! ### The primitives -/

theorem yields_pure (a : α) : (pure a : Writing α).Yields [] (.ok a) := by
  intro sink
  rw [Sink.put_nil, pure_apply]

theorem yields_breakOff (fault : StreamFault) :
    (breakOff fault : Writing α).Yields [] (.error fault) := by
  intro sink
  rw [Sink.put_nil, breakOff_apply]

theorem yields_write (text : List Char) : (write text).Yields (Utf8.encode text) (.ok ()) := by
  intro sink
  rw [write]
  cases sink.put (Utf8.encode text) with
  | mk result sink => cases result <;> rfl

/-- **One computation after another** writes what the first one writes and then what the second one
writes. -/
theorem Yields.bind_ok {action : Writing α} {next : α → Writing β} {first second : List UInt8}
    {a : α} {result : Except StreamFault β} (h : action.Yields first (.ok a))
    (hnext : (next a).Yields second result) :
    (action >>= next).Yields (first ++ second) result := by
  intro sink
  rw [bind_apply, h, Sink.put_append]
  cases sink.put first with
  | mk written sink =>
    cases written with
    | error fault => rfl
    | ok _ => exact hnext sink

instance : LawfulMonad Writing :=
  LawfulMonad.mk' Writing
    (fun action => funext fun sink => by
      show (action >>= pure) sink = action sink
      rw [bind_apply]
      rcases action sink with ⟨_ | _, _⟩ <;> rfl)
    (fun _ _ => rfl)
    (fun action next last => funext fun sink => by
      simp only [bind_apply]
      rcases action sink with ⟨_ | _, _⟩ <;> rfl)

/-! ### Lines -/

theorem yields_writeLine (text : List Char) :
    (writeLine text).Yields (Utf8.encode (text ++ ['\n'])) (.ok ()) :=
  yields_write _

theorem yields_writeLines (texts : List (List Char)) :
    (writeLines texts).Yields (texts.flatMap fun text => Utf8.encode (text ++ ['\n']))
      (.ok ()) := by
  induction texts with
  | nil => exact yields_pure ()
  | cons text rest ih => exact (yields_writeLine text).bind_ok ih

/-! ### Limits -/

/-- What becomes of the end of a computation when only the first `limit` bytes are taken: the others
are not written, and if there are any, the computation breaks off. -/
def cutAt (limit : Nat) (fault : StreamFault) (ended : Except StreamFault α × Sink) :
    Except StreamFault α × Sink :=
  (if limit < ended.2.written.size then .error fault else ended.1,
    ⟨ended.2.written.take limit, some limit, fault⟩)

/-- **A limit cuts a computation**, and does nothing else to it. -/
theorem Yields.limited {action : Writing α} {bytes : List UInt8} {result : Except StreamFault α}
    (h : action.Yields bytes result) (limit : Nat) (fault : StreamFault) :
    action (.limited limit fault) = cutAt limit fault (action .unlimited) := by
  have hwritten : ((Sink.limited limit fault).extend (bytes.take limit)).written =
      (Sink.unlimited.extend bytes).written.take limit := by
    apply Array.ext'
    simp [Sink.limited, Sink.unlimited]
  have hsize : (Sink.unlimited.extend bytes).written.size = bytes.length := by
    simp [Sink.unlimited]
  rw [h.apply_unlimited, cutAt, ← hwritten, hsize, h, Sink.put_limited]
  by_cases hlt : limit < bytes.length
  · rw [if_pos hlt, if_pos hlt]
    rfl
  · rw [if_neg hlt, if_neg hlt]
    rfl

end Writing

/-! ## Reports -/

/-- The lines that are printed for an expression, and whether it has a value. -/
def reportLines (settings : Settings) (expression : List Char) : List (List Char) × Bool :=
  match Calculation.ofText settings.strategy expression with
  | .error cause => ([failureLine cause.message], false)
  | .ok calculation =>
    match calculation.outcome settings.explain with
    | .error cause => ([failureLine cause.message], false)
    | .ok (steps, value) => (steps.map stepLine ++ [decimal value], true)

/-- **A report is the writing of its lines.** -/
theorem yields_report (settings : Settings) (expression : List Char) :
    (report settings expression).Yields
      ((reportLines settings expression).1.flatMap fun text => Utf8.encode (text ++ ['\n']))
      (.ok (reportLines settings expression).2) := by
  have hfailure : ∀ message : List Char,
      (do Writing.writeLine (failureLine message); pure false : Writing Bool).Yields
        ([failureLine message].flatMap fun text => Utf8.encode (text ++ ['\n'])) (.ok false) :=
    fun message =>
      (Writing.yields_writeLine (failureLine message)).bind_ok (Writing.yields_pure false)
  unfold report reportLines
  cases Calculation.ofText settings.strategy expression with
  | error cause => exact hfailure cause.message
  | ok calculation =>
    dsimp only
    cases calculation.outcome settings.explain with
    | error cause => exact hfailure cause.message
    | ok told =>
      obtain ⟨steps, value⟩ := told
      dsimp only
      rw [List.flatMap_append]
      refine (Writing.yields_writeLines (steps.map stepLine)).bind_ok ?_
      exact (Writing.yields_writeLine (decimal value)).bind_ok (Writing.yields_pure true)

/-- A report writes its output and answers whether the expression has a value. -/
theorem yields_report_output (settings : Settings) (expression : List Char) :
    (report settings expression).Yields (report settings expression).output
      (.ok (reportLines settings expression).2) := by
  rw [(yields_report settings expression).output_eq]
  exact yields_report settings expression

end OperatorChain
