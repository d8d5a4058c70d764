import Mathlib.Logic.Function.Basic
import Mathlib.Tactic

/-!
# Group commit under `appendfsync always`

The writers of the log, the durability barrier they share and the rewrites that replace the file
under them, one shared access at a time. A file is an inode with the batches that were flushed to it
and those that a completed `fsync` covers; a snapshot holds the effect of every batch appended before
it was taken. Each thread runs its own code; a schedule says which thread moves.
-/

namespace FerrumKv

/-- The bytes of one `write_bytes` call. -/
structure Batch where
  id : ℕ
  len : ℕ
  deriving DecidableEq, Repr

/-- Where a writer stands. In `write_bytes`: the locks held, the bytes flushed, the sequence
published. In `sync_if_needed`: the target read, the gate awaited and held, `covered` read and
compared, the buffer flushed, the `fsync` started and completed. -/
inductive WriterPc
  | idle
  | locked (b : Batch)
  | written (b : Batch)
  | stamped (b : Batch)
  | appended
  | targeted (target : ℕ)
  | waiting
  | gated
  | covered (c : ℕ)
  | barrier (c : ℕ)
  | flushed (c : ℕ)
  | syncing (c inode : ℕ) (captured : List Batch)
  | fsynced (c : ℕ)
  | answered
  deriving DecidableEq, Repr

/-- Where a rewrite stands, from the claimed slot to the end of `finish_rewrite`. -/
inductive RewritePc
  | idle
  | begun
  | snapped
  | admitted
  | serialised
  | checked
  | renamed
  | locked
  | reopened
  | syncMoved
  | seqReset
  | syncedReset
  | replayed
  | deltaSynced
  deriving DecidableEq, Repr

/-- A writer with the batches it has appended since it was last answered. -/
structure CommitWriter where
  pc : WriterPc := .idle
  mine : List Batch := []
  deriving DecidableEq, Repr

structure CommitWorker where
  pc : RewritePc := .idle
  snapshot : List Batch := []
  deriving DecidableEq, Repr

/-- Who holds the rewrite lock together with the lock of the file. -/
inductive Holder
  | writer (i : ℕ)
  | worker (w : ℕ)
  deriving DecidableEq, Repr

/-- The shared state. `log` lists the batches appended so far, which is what the keyspace holds, and
`start` is its length at the last reset of the sequence, which no step reads. -/
structure CommitSystem where
  content : ℕ → List Batch
  durable : ℕ → List Batch
  nextInode : ℕ
  path : ℕ
  temp : Option ℕ
  handle : ℕ
  syncFile : ℕ
  seq : ℕ
  synced : ℕ
  rewriting : Bool
  delta : List Batch
  deltaCap : ℕ
  lock : Option Holder
  gate : Option ℕ
  fsyncing : Option ℕ
  nextId : ℕ
  log : List Batch
  start : ℕ
  writer : ℕ → CommitWriter
  worker : ℕ → CommitWorker

namespace CommitSystem

/-- An empty log that nobody uses yet. -/
def init (deltaCap : ℕ) : CommitSystem where
  content _ := []
  durable _ := []
  nextInode := 1
  path := 0
  temp := none
  handle := 0
  syncFile := 0
  seq := 0
  synced := 0
  rewriting := false
  delta := []
  deltaCap := deltaCap
  lock := none
  gate := none
  fsyncing := none
  nextId := 0
  log := []
  start := 0
  writer _ := {}
  worker _ := {}

def setWriter (s : CommitSystem) (i : ℕ) (x : CommitWriter) : CommitSystem :=
  { s with writer := Function.update s.writer i x }

def setWorker (s : CommitSystem) (w : ℕ) (x : CommitWorker) : CommitSystem :=
  { s with worker := Function.update s.worker w x }

def goto (s : CommitSystem) (i : ℕ) (pc : WriterPc) : CommitSystem :=
  s.setWriter i { s.writer i with pc := pc }

def advance (s : CommitSystem) (w : ℕ) (pc : RewritePc) : CommitSystem :=
  s.setWorker w { s.worker w with pc := pc }

def addContent (s : CommitSystem) (inode : ℕ) (bs : List Batch) : CommitSystem :=
  { s with content := Function.update s.content inode (s.content inode ++ bs) }

def addDurable (s : CommitSystem) (inode : ℕ) (bs : List Batch) : CommitSystem :=
  { s with durable := Function.update s.durable inode (s.durable inode ++ bs) }

def overflows (s : CommitSystem) (b : Batch) : Bool :=
  s.rewriting && decide (s.deltaCap < (s.delta.map (·.len)).sum + b.len)

/-- The end of `write_bytes`: the batch is mirrored or aborts the rewrite, and the locks are
released. -/
def mirrorDelta (s : CommitSystem) (i : ℕ) (b : Batch) : CommitSystem :=
  let s' := s.setWriter i { pc := .appended, mine := (s.writer i).mine ++ [b] }
  { s' with
    rewriting := s.rewriting && !s.overflows b
    delta := if s.overflows b then [] else if s.rewriting then s.delta ++ [b] else s.delta
    lock := none }

/-- Takes the locks of `write_bytes` for a batch of `len` bytes. -/
def beginAppend (s : CommitSystem) (i len : ℕ) : CommitSystem :=
  if ((s.writer i).pc = .idle ∨ (s.writer i).pc = .appended) ∧ s.lock = none then
    { s.goto i (.locked ⟨s.nextId, len⟩) with lock := some (.writer i), nextId := s.nextId + 1 }
  else s

def stepWriter (s : CommitSystem) (i : ℕ) : CommitSystem :=
  match (s.writer i).pc with
  | .idle => s
  | .locked b => (s.addContent s.handle [b]).goto i (.written b)
  | .written b => { s.goto i (.stamped b) with seq := s.seq + 1, log := s.log ++ [b] }
  | .stamped b => s.mirrorDelta i b
  | .appended => s.goto i (.targeted s.seq)
  | .targeted target => s.goto i (if target ≤ s.synced then .answered else .waiting)
  | .waiting => if s.gate = none then { s.goto i .gated with gate := some i } else s
  | .gated => s.goto i (.covered s.seq)
  | .covered c =>
    if c ≤ s.synced then { s.goto i .answered with gate := none } else s.goto i (.barrier c)
  | .barrier c => if s.lock = none then s.goto i (.flushed c) else s
  | .flushed c =>
    if s.fsyncing = none then
      { s.goto i (.syncing c s.syncFile (s.content s.syncFile)) with fsyncing := some i }
    else s
  | .syncing c inode captured =>
    { (s.addDurable inode captured).goto i (.fsynced c) with fsyncing := none }
  | .fsynced c => { s.goto i .answered with synced := max s.synced c, gate := none }
  | .answered => s.setWriter i {}

/-! ## Rewrites -/

/-- `try_begin_rewrite`. -/
def request (s : CommitSystem) (w : ℕ) : CommitSystem :=
  if s.rewriting = false ∧ (s.worker w).pc = .idle then
    { s.setWorker w { pc := .begun } with rewriting := true }
  else s

/-- Whether no writer is inside `write_bytes`, where it holds the keyspace lock. -/
def noAppend (s : CommitSystem) : Bool :=
  match s.lock with
  | some (.writer _) => false
  | _ => true

/-- Creates or truncates the temp file, writes the snapshot and syncs it. -/
def serialise (s : CommitSystem) (w : ℕ) : CommitSystem :=
  let inode := s.temp.getD s.nextInode
  let s' := s.advance w .serialised
  { s' with
    content := Function.update s.content inode (s.worker w).snapshot
    durable := Function.update s.durable inode (s.worker w).snapshot
    temp := some inode
    nextInode := max s.nextInode (inode + 1) }

/-- The next step of a rewrite. The steps from `locked` on are made under the locks. An empty delta
is neither written nor synced. -/
def stepWorker (s : CommitSystem) (w : ℕ) : CommitSystem :=
  match (s.worker w).pc with
  | .idle => s
  | .begun => if s.noAppend then s.setWorker w { pc := .snapped, snapshot := s.log } else s
  | .snapped => s.advance w (if s.rewriting then .admitted else .idle)
  | .admitted => s.serialise w
  | .serialised =>
    if s.rewriting then s.advance w .checked else { s.advance w .idle with temp := none }
  | .checked =>
    match s.temp with
    | some inode => { s.advance w .renamed with path := inode, temp := none }
    | none => s.advance w .idle
  | .renamed => if s.lock = none then { s.advance w .locked with lock := some (.worker w) } else s
  | .locked => { s.advance w .reopened with handle := s.path }
  | .reopened => if s.fsyncing = none then { s.advance w .syncMoved with syncFile := s.path } else s
  | .syncMoved => { s.advance w .seqReset with seq := 0, start := s.log.length }
  | .seqReset => { s.advance w .syncedReset with synced := 0 }
  | .syncedReset => (s.addContent s.path s.delta).advance w .replayed
  | .replayed =>
    if s.delta = [] then s.advance w .deltaSynced
    else (s.addDurable s.path (s.content s.path)).advance w .deltaSynced
  | .deltaSynced => { s.advance w .idle with delta := [], rewriting := false, lock := none }

inductive Event
  | append (i len : ℕ)
  | writer (i : ℕ)
  | request (w : ℕ)
  | worker (w : ℕ)
  deriving DecidableEq, Repr

def step (s : CommitSystem) : Event → CommitSystem
  | .append i len => s.beginAppend i len
  | .writer i => s.stepWriter i
  | .request w => s.request w
  | .worker w => s.stepWorker w

def run (s : CommitSystem) (events : List Event) : CommitSystem := events.foldl step s

/-! ## Schedules -/

def rank : RewritePc → ℕ
  | .idle => 0
  | .begun => 1
  | .snapped => 2
  | .admitted => 3
  | .serialised => 4
  | .checked => 5
  | .renamed => 6
  | .locked => 7
  | .reopened => 8
  | .syncMoved => 9
  | .seqReset => 10
  | .syncedReset => 11
  | .replayed => 12
  | .deltaSynced => 13

/-- No rewrite is between its rename and the end of its locked swap. -/
def NoSwap (s : CommitSystem) : Prop := ∀ w, rank (s.worker w).pc < 6

/-- The sequence a barrier has read and not yet recorded. -/
def barrierOf : WriterPc → Option ℕ
  | .covered c | .barrier c | .flushed c | .syncing c _ _ | .fsynced c => some c
  | _ => none

/-- What a step has to respect: no rename while a barrier is between reading `covered` and recording
it; no first comparison and no reading of `covered` during a swap; no overflow of the delta after the
check of `finish_rewrite`; no request that claims the slot while a rewrite is running. -/
def Calm (s : CommitSystem) : Event → Prop
  | .worker w => (s.worker w).pc = .checked → ∀ i, barrierOf (s.writer i).pc = none
  | .writer i =>
    match (s.writer i).pc with
    | .targeted _ | .gated => NoSwap s
    | .stamped b => s.overflows b = true → ∀ w, rank (s.worker w).pc < 5
    | _ => True
  | .request w =>
    s.rewriting = false → (s.worker w).pc = .idle → ∀ w', (s.worker w').pc = .idle
  | .append _ _ => True

def Answers (s : CommitSystem) (e : Event) (i : ℕ) : Prop :=
  (s.writer i).pc ≠ .answered ∧ ((s.step e).writer i).pc = .answered

/-- The batches of writer `i` are in the file at the path, and a completed `fsync` of it covers
them. -/
def Persisted (s : CommitSystem) (i : ℕ) : Prop :=
  ∀ b ∈ (s.writer i).mine, b ∈ s.content s.path ∧ b ∈ s.durable s.path

instance (s : CommitSystem) (e : Event) (i : ℕ) : Decidable (Answers s e i) :=
  inferInstanceAs (Decidable (_ ∧ _))

instance (s : CommitSystem) (i : ℕ) : Decidable (Persisted s i) :=
  inferInstanceAs (Decidable (∀ b ∈ (s.writer i).mine, _))

end CommitSystem

end FerrumKv
