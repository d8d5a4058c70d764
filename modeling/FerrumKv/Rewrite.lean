import FerrumKv.View
import Mathlib.Logic.Function.Basic

/-!
# Rewriting the log

The engine, its append-only log and the threads that rewrite it, as a system of interleaved steps.
A command holds the keyspace lock until all its records are written; a worker goes through
`perform_aof_rewrite` and `finish_rewrite` one shared access at a time. Files are inodes: the path
of the log, the path of the temp file and the writer's handle each name one.
-/

namespace FerrumKv

/-! ## Compact logs -/

/-- What a rewrite captures of each entry: its key, its value, and its deadline in epoch
milliseconds. -/
abbrev Snapshot := List (Key × Bytes × Option Int64)

/-- What is captured of an entry that has not expired. -/
def capture (env : Env) (e : Σ _ : Key, ValueEntry) : Option (Key × Bytes × Option Int64) :=
  if e.2.isExpired env.now then none
  else some (e.1, e.2.data, e.2.expireAt.bind fun d => deadlineToEpochMs d env.now env.epochMs)

def takeSnapshot (env : Env) (store : Store) : Snapshot := (env.iter store).filterMap (capture env)

def compactEntry (entry : Key × Bytes × Option Int64) : List AofRecord :=
  match entry with
  | (key, value, some absMs) => [.set key value, .pexpireat key absMs]
  | (key, value, none) => [.set key value]

def compactRecords (snapshot : Snapshot) : List AofRecord := snapshot.flatMap compactEntry

def serialiseCompactAof (snapshot : Snapshot) : Bytes := encodeLog (compactRecords snapshot)

/-! ## The state -/

/-- Where a worker stands: the slot claimed, the snapshot taken, the first look at the flag passed,
the temp file opened, the temp file written, the look of `finish_rewrite` passed, the temp file
renamed. -/
inductive WorkerPc
  | idle
  | begun
  | snapped
  | admitted
  | created (inode : ℕ)
  | serialised
  | checked
  | renamed
  deriving DecidableEq, Repr

/-- A worker. What was appended since it claimed the slot, and whether an append has aborted a
rewrite since then, is history that no step reads. -/
structure Worker where
  pc : WorkerPc := .idle
  snapshot : Snapshot := []
  since : List AofRecord := []
  aborted : Bool := false

structure AofSystem where
  mem : KvEngine
  pending : List AofRecord
  files : ℕ → Bytes
  nextInode : ℕ
  path : ℕ
  temp : Option ℕ
  handle : ℕ
  deltaCap : ℕ
  rewriting : Bool
  delta : Bytes
  worker : ℕ → Worker

namespace AofSystem

def start (deltaCap : ℕ) : AofSystem where
  mem := KvEngine.new.withAof
  pending := []
  files _ := []
  nextInode := 1
  path := 0
  temp := none
  handle := 0
  deltaCap := deltaCap
  rewriting := false
  delta := []
  worker _ := {}

def setFile (s : AofSystem) (inode : ℕ) (content : Bytes) : AofSystem :=
  { s with files := Function.update s.files inode content }

def setWorker (s : AofSystem) (w : ℕ) (worker : Worker) : AofSystem :=
  { s with worker := Function.update s.worker w worker }

def setPc (s : AofSystem) (w : ℕ) (pc : WorkerPc) : AofSystem :=
  s.setWorker w { s.worker w with pc := pc }

/-! ## Steps -/

/-- Whether an append of these records would overflow the delta buffer. -/
def overflows (s : AofSystem) (rs : List AofRecord) : Bool :=
  s.rewriting && decide (s.deltaCap < s.delta.length + (encodeLog rs).length)

def writeBytes (s : AofSystem) (rs : List AofRecord) : AofSystem :=
  let bytes := encodeLog rs
  let abort := s.overflows rs
  { s with
    files := Function.update s.files s.handle (s.files s.handle ++ bytes)
    rewriting := s.rewriting && !abort
    delta := if abort then [] else if s.rewriting then s.delta ++ bytes else s.delta
    worker := fun w =>
      { s.worker w with
        since := (s.worker w).since ++ rs, aborted := (s.worker w).aborted || abort } }

/-- `File::create` on the temp path: an existing file is truncated. -/
def createTemp (s : AofSystem) (w : ℕ) : AofSystem :=
  match s.temp with
  | some inode => (s.setFile inode []).setPc w (.created inode)
  | none =>
    let s' := (s.setFile s.nextInode []).setPc w (.created s.nextInode)
    { s' with temp := some s.nextInode, nextInode := s.nextInode + 1 }

/-- A write from the start of the file. -/
def writeTemp (s : AofSystem) (w inode : ℕ) : AofSystem :=
  let bytes := serialiseCompactAof (s.worker w).snapshot
  (s.setFile inode (bytes ++ (s.files inode).drop bytes.length)).setPc w .serialised

/-- Renames the temp file onto the path of the log; where it is gone `finish_rewrite` fails. -/
def renameTemp (s : AofSystem) (w : ℕ) : AofSystem :=
  match s.temp with
  | some inode => { s.setPc w .renamed with path := inode, temp := none }
  | none => s.setPc w .idle

/-- The locked part of `finish_rewrite`: the writer moves to the file at the path and the delta is
replayed onto it. -/
def swapHandle (s : AofSystem) (w : ℕ) : AofSystem :=
  { (s.setFile s.path (s.files s.path ++ s.delta)).setPc w .idle with
    handle := s.path, delta := [], rewriting := false }

inductive Event
  | command (env : Env) (cmd : Command)
  | write (n : ℕ)
  | request (w : ℕ)
  | snapshot (w : ℕ) (env : Env)
  | recheck (w : ℕ)
  | create (w : ℕ)
  | serialise (w : ℕ)
  | check (w : ℕ)
  | rename (w : ℕ)
  | swap (w : ℕ)

/-- One step. A thread that is not where the step starts, or that the keyspace lock keeps out, does
not move. A command leaves its records to be written, in one or more batches, before the lock is
free. -/
def step (s : AofSystem) : Event → AofSystem
  | .command env cmd =>
    if s.pending = [] then
      let mem := (exec env s.mem cmd).2
      { s with mem := mem, pending := mem.log.drop s.mem.log.length }
    else s
  | .write n =>
    if s.pending = [] then s
    else { s.writeBytes (s.pending.take (n + 1)) with pending := s.pending.drop (n + 1) }
  | .request w =>
    if s.rewriting = false ∧ (s.worker w).pc = .idle then
      { s.setWorker w { pc := .begun } with rewriting := true }
    else s
  | .snapshot w env =>
    if (s.worker w).pc = .begun ∧ s.pending = [] then
      s.setWorker w { s.worker w with pc := .snapped, snapshot := takeSnapshot env s.mem.store }
    else s
  | .recheck w =>
    if (s.worker w).pc = .snapped then s.setPc w (if s.rewriting then .admitted else .idle) else s
  | .create w => if (s.worker w).pc = .admitted then s.createTemp w else s
  | .serialise w =>
    match (s.worker w).pc with
    | .created inode => s.writeTemp w inode
    | _ => s
  | .check w =>
    if (s.worker w).pc = .serialised then
      if s.rewriting then s.setPc w .checked else { s.setPc w .idle with temp := none }
    else s
  | .rename w => if (s.worker w).pc = .checked then s.renameTemp w else s
  | .swap w => if (s.worker w).pc = .renamed then s.swapHandle w else s

def run (s : AofSystem) (events : List Event) : AofSystem := events.foldl step s

/-- The worker has passed the look of `finish_rewrite` and has not yet swapped. -/
def InWindow (pc : WorkerPc) : Prop := pc = .checked ∨ pc = .renamed

/-- The step is no append that overflows the delta while a worker is between the look of
`finish_rewrite` and its swap. -/
def QuietWindow (s : AofSystem) : Event → Prop
  | .write n =>
    s.overflows (s.pending.take (n + 1)) = true → ∀ w, ¬ InWindow (s.worker w).pc
  | _ => True

/-- The step is no request that claims the slot while a worker is running whose rewrite was
aborted. -/
def NoEarlyRequest (s : AofSystem) : Event → Prop
  | .request w =>
    s.rewriting = false → (s.worker w).pc = .idle →
      ∀ w', (s.worker w').pc ≠ .idle → (s.worker w').aborted = false
  | _ => True

/-- The step reads clocks that agree and are at most `T`. -/
def ClockBy (T : ℕ) : Event → Prop
  | .command env _ | .snapshot _ env => ∃ t ≤ T, env.At t
  | _ => True

end AofSystem

end FerrumKv
