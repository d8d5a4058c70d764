import FerrumKv.Rewrite

/-!
# Rewrites that fail

The system of `FerrumKv.Rewrite` with the ways in which `perform_aof_rewrite` and `finish_rewrite`
can fail. A failure on the temp file is followed by `abort_rewrite`, which clears the delta and then
lowers the flag; a failure of `finish_rewrite` is only logged.
-/

namespace FerrumKv

/-! ## Faults -/

/-- Where a rewrite can fail. A write that fails leaves what it has written until then. -/
inductive Fault
  | create
  | write (written : ℕ)
  | sync
  | rename
  | reopen
  | clone
  | deltaWrite (written : ℕ)
  | deltaFlush
  | deltaSync
  deriving DecidableEq, Repr

/-- The faults of `serialise_compact_aof`; the others are those of `finish_rewrite`. -/
def Fault.onTemp : Fault → Bool
  | .create | .write _ | .sync => true
  | _ => false

namespace AofSystem

/-- The worker is where the fault can strike. An empty delta is not written. -/
def CanFail (s : AofSystem) (w : ℕ) : Fault → Prop
  | .create => (s.worker w).pc = .admitted
  | .write _ | .sync => ∃ inode, (s.worker w).pc = .created inode
  | .rename => (s.worker w).pc = .checked
  | .reopen | .clone => (s.worker w).pc = .renamed
  | .deltaWrite _ | .deltaFlush | .deltaSync => (s.worker w).pc = .renamed ∧ s.delta ≠ []

instance (pc : WorkerPc) : Decidable (∃ inode, pc = .created inode) :=
  match pc with
  | .created inode => .isTrue ⟨inode, rfl⟩
  | .idle | .begun | .snapped | .admitted | .serialised | .checked | .renamed =>
    .isFalse fun h => nomatch h

instance (s : AofSystem) (w : ℕ) : (f : Fault) → Decidable (s.CanFail w f)
  | .create | .rename | .reopen | .clone => inferInstanceAs (Decidable (_ = _))
  | .write _ | .sync => inferInstanceAs (Decidable (∃ inode, _ = WorkerPc.created inode))
  | .deltaWrite _ | .deltaFlush | .deltaSync => inferInstanceAs (Decidable (_ ∧ _ ≠ _))

/-- The part of the snapshot that reached the temp file. -/
def writeTempPart (s : AofSystem) (w written : ℕ) : AofSystem :=
  match (s.worker w).pc with
  | .created inode =>
    let bytes := (serialiseCompactAof (s.worker w).snapshot).take written
    s.setFile inode (bytes ++ (s.files inode).drop bytes.length)
  | _ => s

/-- The writer moves to the file at the path, and of the delta only a part reaches that file. What
a failed flush leaves in the writer's buffer still goes to its file. -/
def swapPart (s : AofSystem) (w written : ℕ) : AofSystem :=
  { (s.setFile s.path (s.files s.path ++ s.delta.take written)).setPc w .idle with
    handle := s.path }

/-- The fault strikes, and the worker removes the temp file. After a fault of `finish_rewrite` it
returns. After one of `serialise_compact_aof` it goes on to `abort_rewrite`, with the slot and
without a use for its snapshot, as a worker that has just begun. -/
def fail (s : AofSystem) (w : ℕ) : Fault → AofSystem
  | .create => { s.setPc w .begun with temp := none }
  | .write written => { (s.writeTempPart w written).setPc w .begun with temp := none }
  | .sync =>
    { (s.writeTempPart w (serialiseCompactAof (s.worker w).snapshot).length).setPc w .begun with
      temp := none }
  | .rename | .reopen | .clone => { s.setPc w .idle with temp := none }
  | .deltaWrite written => { s.swapPart w written with temp := none }
  | .deltaFlush | .deltaSync => { s.swapPart w s.delta.length with temp := none }

/-- The first step of `abort_rewrite`. What is appended from here on is in the delta again. -/
def clearDelta (s : AofSystem) (w : ℕ) : AofSystem :=
  { s.setWorker w { s.worker w with since := [] } with delta := [] }

/-- The second step of `abort_rewrite`, after which the worker returns. -/
def lowerFlag (s : AofSystem) (w : ℕ) : AofSystem :=
  { s.setPc w .idle with rewriting := false }

end AofSystem

/-! ## The system -/

/-- Where a worker is in `abort_rewrite`. -/
inductive Cleanup
  | none
  | failed
  | cleared
  deriving DecidableEq, Repr

structure FaultySystem where
  sys : AofSystem
  cleanup : ℕ → Cleanup

namespace FaultySystem

def start (deltaCap : ℕ) : FaultySystem := ⟨AofSystem.start deltaCap, fun _ => .none⟩

inductive Event
  | plain (e : AofSystem.Event)
  | fail (w : ℕ) (f : Fault)
  | clear (w : ℕ)
  | lower (w : ℕ)

/-- One step. The two steps of `abort_rewrite` share no lock. -/
def step (s : FaultySystem) : Event → FaultySystem
  | .plain (.snapshot w env) =>
    if s.cleanup w = .none then { s with sys := s.sys.step (.snapshot w env) } else s
  | .plain e => { s with sys := s.sys.step e }
  | .fail w f =>
    if s.sys.CanFail w f then
      ⟨s.sys.fail w f, Function.update s.cleanup w (if f.onTemp then .failed else .none)⟩
    else s
  | .clear w =>
    if s.cleanup w = .failed then
      ⟨s.sys.clearDelta w, Function.update s.cleanup w .cleared⟩
    else s
  | .lower w =>
    if s.cleanup w = .cleared then
      ⟨s.sys.lowerFlag w, Function.update s.cleanup w .none⟩
    else s

def run (s : FaultySystem) (events : List Event) : FaultySystem := events.foldl step s

/-- The step is no fault of `finish_rewrite`, no append that goes to the delta while a worker is
between the two steps of `abort_rewrite`, and meets the conditions of a rewrite that does not
fail. -/
def Safe (s : FaultySystem) : Event → Prop
  | .plain e =>
    AofSystem.QuietWindow s.sys e ∧ AofSystem.NoEarlyRequest s.sys e
      ∧ ∀ n, e = .write n → s.sys.rewriting = true → ∀ w, s.cleanup w ≠ .cleared
  | .fail _ f => f.onTemp = true
  | _ => True

/-- The step reads clocks that agree and are at most `T`. -/
def ClockBy (T : ℕ) : Event → Prop
  | .plain e => AofSystem.ClockBy T e
  | _ => True

end FaultySystem

end FerrumKv
