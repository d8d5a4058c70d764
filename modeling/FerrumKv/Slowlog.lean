import FerrumKv.Server
import Mathlib.Logic.Function.Basic

/-!
# The slow log under concurrent commands

`maybe_push_slowlog` as the steps that other threads can come between: it loads the threshold, takes
an id from the counter, loads the cap, and then, under the lock of the ring, appends its entry and
drops the oldest ones above the cap it loaded. `SLOWLOG RESET` and `CONFIG SET` are one step each.
-/

namespace FerrumKv

/-- Where a call of `maybe_push_slowlog` stands: with the threshold, its id and the cap still to come,
one after the other. -/
inductive PushPhase
  | called
  | logging
  | numbered (entry : SlowLogEntry)
  | measured (entry : SlowLogEntry) (maxLen : ℕ)
  | returned

structure SlowlogSystem where
  server : Server
  phase : ℕ → PushPhase

inductive SlowlogEvent
  | check (call : ℕ)
  | number (call : ℕ)
  | measure (call : ℕ)
  | insert (call : ℕ)
  | reset
  | setMaxLen (v : ℕ)
  | setThreshold (v : Int64)
  deriving DecidableEq, Repr

namespace SlowlogSystem

/-- The ring after the critical section of a push. -/
def pushBack (ring : List SlowLogEntry) (entry : SlowLogEntry) (maxLen : ℕ) : List SlowLogEntry :=
  (ring ++ [entry]).drop ((ring ++ [entry]).length - max maxLen 1)

def enter (s : SlowlogSystem) (call : ℕ) (p : PushPhase) : SlowlogSystem :=
  { s with phase := Function.update s.phase call p }

/-- The step of a call that is not where the event takes it from does nothing. `calls` are what the
calls are given, and what they read of the clock. -/
def step (calls : ℕ → Reading × List Bytes) (s : SlowlogSystem) : SlowlogEvent → SlowlogSystem
  | .check call =>
    match s.phase call with
    | .called =>
      s.enter call
        (if s.server.slowlogWouldLog (calls call).1.elapsedUs then .logging else .returned)
    | _ => s
  | .number call =>
    match s.phase call with
    | .logging =>
      let id := (s.server.slowlogSeq + 1) % 2 ^ 64
      let r := (calls call).1
      let s := s.enter call (.numbered
        { id := id, tsSecs := r.tsSecs, durationUs := r.elapsedUs, args := (calls call).2
          peer := r.client.getD unspecifiedPeer })
      { s with server := { s.server with slowlogSeq := id } }
    | _ => s
  | .measure call =>
    match s.phase call with
    | .numbered entry => s.enter call (.measured entry s.server.slowlogMaxLen)
    | _ => s
  | .insert call =>
    match s.phase call with
    | .measured entry maxLen =>
      let s := s.enter call .returned
      { s with server := { s.server with slowlog := pushBack s.server.slowlog entry maxLen } }
    | _ => s
  | .reset => { s with server := { s.server with slowlog := [] } }
  | .setMaxLen v => { s with server := { s.server with slowlogMaxLen := v } }
  | .setThreshold v => { s with server := { s.server with slowlogSlowerThanUs := v } }

def run (calls : ℕ → Reading × List Bytes) (s : SlowlogSystem) (events : List SlowlogEvent) :
    SlowlogSystem := events.foldl (step calls) s

/-- The ids grow from the oldest entry to the newest. -/
def Ordered (s : SlowlogSystem) : Prop := (s.server.slowlog.map (·.id)).Pairwise (· < ·)

/-- The entry that a step appends. -/
def pushed (s : SlowlogSystem) : SlowlogEvent → List SlowLogEntry
  | .insert call =>
    match s.phase call with
    | .measured entry _ => [entry]
    | _ => []
  | _ => []

/-- The step leaves a log in order, within its cap if it pushed an entry, and what it dropped is
older than all it kept. -/
structure Kept (calls : ℕ → Reading × List Bytes) (s : SlowlogSystem) (e : SlowlogEvent) :
    Prop where
  ordered : (s.step calls e).Ordered
  newestFirst : ∀ count, (((s.step calls e).server.slowlogGet count).map (·.id)).Pairwise (· > ·)
  bounded : s.pushed e ≠ [] →
    (s.step calls e).server.slowlog.length ≤ max 1 (s.step calls e).server.slowlogMaxLen
  oldest : ∀ dropped, (s.server.slowlog ++ s.pushed e).Perm
      (dropped ++ (s.step calls e).server.slowlog) →
    ∀ x ∈ dropped, ∀ y ∈ (s.step calls e).server.slowlog, x.id < y.id

/-- A push that enters the ring was numbered after all that are in it, and the ring is not full or
the cap was not lowered below the one the push loaded. -/
def InTurn (s : SlowlogSystem) (e : SlowlogEvent) : Prop :=
  ∀ call entry maxLen, e = .insert call → s.phase call = .measured entry maxLen →
    (∀ x ∈ s.server.slowlog, x.id < entry.id)
      ∧ (s.server.slowlog.length < max 1 s.server.slowlogMaxLen
        ∨ max 1 maxLen ≤ max 1 s.server.slowlogMaxLen)

end SlowlogSystem

end FerrumKv
