import FerrumKv.AofWriter

/-!
# The process from its start to its exit

`main` with the threads and tasks that hold a handle of the engine. The writer of the log goes with
the last handle, and the thread that lets it go drops the writer. `main` waits for the connections,
half a second at most, and for the sweeper, but not for the dashboard or a thread that rewrites the
log.

A rewrite thread claims the slot, renames its file onto the path of the log and moves the writer to
it; until then what is appended is mirrored into the delta. What the file of a rewrite holds is open
here, and that it is its own: that is the subject of `AofSystem`.
-/

namespace FerrumKv

/-- Who holds a handle of the engine. -/
inductive User
  | acceptor
  | task (c : ℕ)
  | sweeper
  | dashboard
  | rewriter (w : ℕ)
  deriving DecidableEq, Repr

def User.detached : User → Bool
  | .dashboard | .rewriter _ => true
  | _ => false

def User.isTask : User → Bool
  | .task _ => true
  | _ => false

/-- Where `main` stands: in `block_on`, in `shutdown_timeout`, waiting for the sweeper, and out. -/
inductive MainPc
  | serving
  | tearing
  | joining
  | exited
  deriving DecidableEq, Repr

/-- `path` is what the path of the log holds if that is not the writer's file, and `dropper` is the
thread that let the last handle go. What the writer had in its file and its buffer when it was opened
or last moved, and whether the teardown of the runtime ran out of time, is history that no step
reads. -/
structure Process where
  writer : AofWriter
  path : Option Bytes
  rewriting : Bool
  delta : Bytes
  deltaCap : ℕ
  base : Bytes
  holders : List User
  dropper : Option User
  triggered : Bool
  main : MainPc
  timedOut : Bool

namespace Process

/-- The server up to the call of `run_listener`. The sweeper and the dashboard may be missing. -/
def start (policy : FsyncPolicy) (file : Bytes) (deltaCap : ℕ) (sweeper dashboard : Bool) :
    Process where
  writer := .openLog policy file
  path := none
  rewriting := false
  delta := []
  deltaCap := deltaCap
  base := file
  holders :=
    .acceptor :: ((if sweeper then [.sweeper] else []) ++ if dashboard then [.dashboard] else [])
  dropper := none
  triggered := false
  main := .serving
  timedOut := false

/-- A handle is let go, and with the last one the drop of the writer begins. -/
def release (s : Process) (h : User) : Process :=
  if s.holders.erase h = [] then
    { s with
      holders := []
      dropper := some h
      writer := s.writer.stepOwner none none true }
  else { s with holders := s.holders.erase h }

def log (s : Process) : Bytes := s.path.getD s.writer.inner.file

/-- Whether a thread of the kind holds a handle or is at the drop of the writer. -/
def busy (s : Process) (kind : User → Bool) : Bool :=
  s.holders.any kind || (s.dropper.any kind && decide (s.writer.owner ≠ .dropped))

/-- The slot and the delta after a step of a thread that uses the writer: a call that returns `Ok`
while a rewrite has the slot is mirrored, or takes the slot away where the delta would overflow. -/
def mirror (s : Process) : AofWriter.Event → Bool × Bytes
  | .append rs room direct push =>
    if s.rewriting ∧ s.writer.owner = .alive ∧ (s.writer.writeBytes rs room direct push).1 then
      if s.deltaCap < s.delta.length + (encodeLog rs).length then (false, [])
      else (true, s.delta ++ encodeLog rs)
    else (s.rewriting, s.delta)
  | _ => (s.rewriting, s.delta)

/-- A rewrite moves the writer to the file at the path. Where that fails half way, the slot and the
delta stay. -/
def swap (s : Process) (room direct push last : Option ℕ) (synced : Bool) : Process :=
  let (ok, writer) := s.writer.moveTo s.path s.delta room direct push last synced
  { s with
    writer := writer
    path := none
    rewriting := s.rewriting && !ok
    delta := if ok then [] else s.delta
    base := writer.inner.contents }

/-- The signal handler; a step of a thread that uses the writer, or of its flusher; a step of the
drop; a connection accepted; `BGREWRITEAOF` from a client or the dashboard; a rewrite that gives up,
that renames its file and that moves the writer; a handle let go; the return of the accept loop, or
of `run_listener` before it; the end of the teardown; the end of the sweeper's thread as `main` sees
it. -/
inductive Event
  | trigger
  | writer (e : AofWriter.Event)
  | drop (limit last : Option ℕ) (synced : Bool)
  | accept (c : ℕ)
  | rewrite (caller : User) (w : ℕ)
  | abort (w : ℕ)
  | rename (w : ℕ) (snapshot : Bytes)
  | swap (w : ℕ) (room direct push last : Option ℕ) (synced : Bool)
  | release (h : User)
  | leave (failed : Bool)
  | teardown (timedOut : Bool)
  | join

/-- One step before the exit. The sweeper ends only after the signal. -/
def advance (s : Process) : Event → Process
  | .trigger => { s with triggered := true }
  | .writer e =>
    if e.ofOwner then s
    else
      { s with
        writer := s.writer.step e, rewriting := (s.mirror e).1, delta := (s.mirror e).2 }
  | .drop limit last synced =>
    if s.dropper.isSome then { s with writer := s.writer.stepOwner limit last synced } else s
  | .accept c =>
    if s.main = .serving then { s with holders := .task c :: s.holders } else s
  | .rewrite caller w =>
    if caller ∈ s.holders ∧ (caller.isTask ∨ caller = .dashboard) ∧ s.rewriting = false then
      { s with rewriting := true, holders := .rewriter w :: s.holders }
    else s
  | .abort w =>
    if .rewriter w ∈ s.holders then { s with rewriting := false, delta := [] } else s
  | .rename w snapshot =>
    if .rewriter w ∈ s.holders then { s with path := some snapshot } else s
  | .swap w room direct push last synced =>
    if .rewriter w ∈ s.holders then s.swap room direct push last synced else s
  | .release h =>
    if h ∈ s.holders ∧ h ≠ .acceptor ∧ (h = .sweeper → s.triggered) then s.release h else s
  | .leave failed =>
    if s.main = .serving ∧ (s.triggered ∨ failed) then
      { s.release .acceptor with main := .tearing }
    else s
  | .teardown timedOut =>
    if s.main = .tearing ∧ ¬s.busy (· = .acceptor) ∧ (timedOut ∨ ¬s.busy User.isTask) then
      { s with main := .joining, timedOut := timedOut }
    else s
  | .join =>
    if s.main = .joining ∧ ¬s.busy (· = .sweeper) then { s with main := .exited } else s

/-- One step. The exit ends everything. -/
def step (s : Process) (e : Event) : Process :=
  if s.main = .exited then s else s.advance e

def run (s : Process) (events : List Event) : Process := events.foldl step s

def Event.swaps : Event → Bool
  | .swap _ _ _ _ _ _ => true
  | _ => false

/-- Whether the flush and the sync of the drop succeed, where the event is one. -/
def Event.dropSucceeds : Event → Bool
  | .drop limit _ synced => limit.isNone && synced
  | _ => true

end Process

end FerrumKv
