import FerrumKv.Engine
import FerrumKv.Lib.Buffered

/-!
# The writer of the log

`AofWriter` with its buffer, the background flusher of `appendfsync everysec` and the drop of the
writer. A call, a pass of the flusher and the flush of a drop each hold the lock of the buffer to
their end, so each is one step, and any of their writes may fail. The flusher and the drop talk
through `stop` and a condition variable, and how these accesses fall is open. `finish_rewrite` moves
the writer to the file at the path of the log (`moveTo`); what a rewrite writes is another module's,
as are the counters of the group commit.
-/

namespace FerrumKv

inductive FsyncPolicy
  | always
  | everySec
  | no
  deriving DecidableEq, Repr

/-- The capacity of `BufWriter::new`. -/
def bufCapacity : ℕ := 8 * 1024

/-- Where the thread of the flusher stands: before its wait, in it, before it looks at `stop`,
before its pass over the buffer, and gone. Only `everysec` has one. -/
inductive FlusherPc
  | absent
  | resting
  | waiting
  | woken
  | passing
  | ended
  deriving DecidableEq, Repr

/-- Where the drop of the writer stands: not begun, before `notify_all`, waiting for the flusher to
end, before its own flush, before the drop of the `BufWriter`, and over. -/
inductive DropPc
  | alive
  | stopping
  | joining
  | flushing
  | closing
  | dropped
  deriving DecidableEq, Repr

/-- The calls that appended, each with its records and whether it returned `Ok`, are history that no
step reads. -/
structure AofWriter where
  policy : FsyncPolicy
  inner : Buffered.Writer UInt8
  flusher : FlusherPc
  stop : Bool
  owner : DropPc
  calls : List (List AofRecord × Bool)

namespace AofWriter

/-- Opens the log. Nothing is known of what survives of the bytes that it holds. -/
def openLog (policy : FsyncPolicy) (file : Bytes) : AofWriter where
  policy := policy
  inner := { file := file }
  flusher := if policy = .everySec then .resting else .absent
  stop := false
  owner := .alive
  calls := []

def records (w : AofWriter) : List AofRecord := w.calls.flatMap (·.1)

/-- `write_bytes`: through the buffer, and under `always` on to the file. -/
def writeBytes (w : AofWriter) (rs : List AofRecord) (room direct push : Option ℕ) :
    Bool × Buffered.Writer UInt8 :=
  match w.inner.writeAll bufCapacity (encodeLog rs) room direct with
  | (false, inner) => (false, inner)
  | (true, inner) => if w.policy = .always then inner.flushBuf push else (true, inner)

/-- A pass of the flusher: a flush, and a sync if it succeeds. -/
def pass (w : AofWriter) (limit : Option ℕ) (synced : Bool) : Buffered.Writer UInt8 :=
  match w.inner.flushBuf limit with
  | (false, inner) => inner
  | (true, inner) => inner.sync synced

/-- The next step of the flusher. The wait ends with the interval, a notification or nothing. -/
def stepFlusher (w : AofWriter) (limit : Option ℕ) (synced : Bool) : AofWriter :=
  match w.flusher with
  | .absent | .ended => w
  | .resting => { w with flusher := .waiting }
  | .waiting => { w with flusher := .woken }
  | .woken => { w with flusher := if w.stop then .ended else .passing }
  | .passing => { w with flusher := .resting, inner := w.pass limit synced }

/-- The next step of the drop. Its sync does not depend on its flush, and the `BufWriter` flushes
once more when it is dropped. -/
def stepOwner (w : AofWriter) (limit last : Option ℕ) (synced : Bool) : AofWriter :=
  match w.owner with
  | .alive =>
    if w.flusher = .absent then { w with owner := .flushing }
    else { w with owner := .stopping, stop := true }
  | .stopping =>
    { w with
      owner := .joining
      flusher := if w.flusher = .waiting then .woken else w.flusher }
  | .joining => if w.flusher = .ended then { w with owner := .flushing } else w
  | .flushing => { w with owner := .closing, inner := (w.inner.flushBuf limit).2.sync synced }
  | .closing => { w with owner := .dropped, inner := (w.inner.flushBuf last).2 }
  | .dropped => w

/-- A call of an `append` method; a flush and a sync of `sync_if_needed`; a step of the flusher; a
step of the drop. Each says how far its writes get and whether its sync succeeds. -/
inductive Event
  | append (rs : List AofRecord) (room direct push : Option ℕ)
  | barrierFlush (limit : Option ℕ)
  | barrierSync (ok : Bool)
  | flusher (limit : Option ℕ) (synced : Bool)
  | owner (limit last : Option ℕ) (synced : Bool)

/-- One step. Once the drop has begun there is nobody left to call. -/
def step (w : AofWriter) : Event → AofWriter
  | .append rs room direct push =>
    if w.owner = .alive then
      { w with
        inner := (w.writeBytes rs room direct push).2
        calls := w.calls ++ [(rs, (w.writeBytes rs room direct push).1)] }
    else w
  | .barrierFlush limit =>
    if w.owner = .alive ∧ w.policy = .always then { w with inner := (w.inner.flushBuf limit).2 }
    else w
  | .barrierSync ok =>
    if w.owner = .alive ∧ w.policy = .always then { w with inner := w.inner.sync ok } else w
  | .flusher limit synced => w.stepFlusher limit synced
  | .owner limit last synced => w.stepOwner limit last synced

def run (w : AofWriter) (events : List Event) : AofWriter := events.foldl step w

/-- The file that `finish_rewrite` opens: one that a rename has put at the path of the log, which was
synced before, or the one that the writer already has. -/
def reopen (w : AofWriter) : Option Bytes → Buffered.Writer UInt8
  | some snapshot => { file := snapshot, synced := snapshot.length }
  | none => { w.inner with buffer := [] }

/-- Writes the delta through the new buffer and on to the file, and syncs it. -/
def replayDelta (inner : Buffered.Writer UInt8) (delta : Bytes) (room direct push : Option ℕ)
    (synced : Bool) : Bool × Buffered.Writer UInt8 :=
  if delta = [] then (true, inner)
  else
    match inner.writeAll bufCapacity delta room direct with
    | (false, inner) => (false, inner)
    | (true, inner) =>
      match inner.flushBuf push with
      | (false, inner) => (false, inner)
      | (true, inner) => (synced, inner.sync synced)

/-- The locked part of `finish_rewrite`, and whether it returns `Ok`. The old `BufWriter` is dropped
at its end and writes its buffer to its own file. The calls are those on the new file. -/
def moveTo (w : AofWriter) (path : Option Bytes) (delta : Bytes) (room direct push last : Option ℕ)
    (synced : Bool) : Bool × AofWriter :=
  let (ok, inner) := replayDelta (w.reopen path) delta room direct push synced
  (ok, { w with
    inner := if path.isSome then inner else (inner.put w.inner.buffer last).2
    calls := [] })

def Event.ofFlusher : Event → Bool
  | .flusher _ _ => true
  | _ => false

def Event.ofOwner : Event → Bool
  | .owner _ _ _ => true
  | _ => false

/-- Whether the flush and the sync of a drop succeed, where the event is one. -/
def Event.dropSucceeds : Event → Bool
  | .owner limit _ synced => limit.isNone && synced
  | _ => true

/-- What a call leaves in the log: the whole of its records if it returned `Ok`, an initial part of
them otherwise, and of less than a buffer either all or nothing. -/
structure Lands (call : List AofRecord × Bool) (p : Bytes) : Prop where
  front : p <+: encodeLog call.1
  whole : call.2 = true → p = encodeLog call.1
  short : (encodeLog call.1).length < bufCapacity → p = [] ∨ p = encodeLog call.1

end AofWriter

end FerrumKv
