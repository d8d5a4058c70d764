import Mathlib.Logic.Function.Basic
import Mathlib.Tactic

/-!
# The shutdown signal

A flag and a `Notify`. `trigger` stores the flag and then wakes the waiters; `notified` reads the
flag, creates its waiter, reads the flag again and awaits the waiter. What `tokio`'s `Notify` does
with a waiter is a parameter, of which two things are known: a call of `notify_waiters` wakes the
waiters that were created before it, and nothing else does. The calls are numbered to say which came
first. Each access to the shared state is one step, and any number of tasks and of callers of
`trigger` take steps in any order.
-/

namespace FerrumKv

/-- A `Notify`: whether a waiter created after `created` calls of `notify_waiters` resolves when it
is polled after `now` of them. -/
structure Notify where
  resolves (created now : ℕ) : Bool
  /-- A waiter created before a call resolves at its next poll. -/
  wakes {created now : ℕ} (h : created < now) : resolves created now = true
  /-- None resolves without a call. -/
  quiet (calls : ℕ) : resolves calls calls = false

/-- One that compares the numbers of calls. -/
def Notify.counting : Notify where
  resolves created now := decide (created ≠ now)
  wakes h := decide_eq_true h.ne
  quiet _ := decide_eq_false fun h => h rfl

/-- The flag and the `Notify`, with the calls of `notify_waiters` so far. -/
structure Shutdown where
  notify : Notify
  flag : Bool := false
  notifyCalls : ℕ := 0

/-- Where a future of `notified` stands: not polled, past the first reading of the flag, with its
waiter created, awaiting it, or resolved. -/
inductive Wait
  | fresh
  | probed
  | armed (calls : ℕ)
  | parked (calls : ℕ)
  | resolved
  deriving DecidableEq, Repr

/-- The next access of the future to the signal. -/
def Wait.poll (signal : Shutdown) : Wait → Wait
  | .fresh => if signal.flag then .resolved else .probed
  | .probed => .armed signal.notifyCalls
  | .armed calls => if signal.flag then .resolved else .parked calls
  | .parked calls =>
    if signal.notify.resolves calls signal.notifyCalls then .resolved else .parked calls
  | .resolved => .resolved

namespace Shutdown

def isTriggered (signal : Shutdown) : Bool := signal.flag

/-- The first half of `trigger`. -/
def store (signal : Shutdown) : Shutdown := { signal with flag := true }

/-- The second half of `trigger`. -/
def notifyWaiters (signal : Shutdown) : Shutdown :=
  { signal with notifyCalls := signal.notifyCalls + 1 }

end Shutdown

/-- The signal with its waiters and the callers of `trigger`. `triggering` are those between the two
halves of their call, and `returned` counts the calls that have returned, which no step reads. -/
structure SignalSystem where
  signal : Shutdown
  wait : ℕ → Wait
  triggering : ℕ → Bool
  returned : ℕ

namespace SignalSystem

def start (notify : Notify) : SignalSystem :=
  ⟨{ notify := notify }, fun _ => .fresh, fun _ => false, 0⟩

/-- A task calls `notified`, dropping the future it had; a future is polled; a caller of `trigger`
makes the next half of its call. -/
inductive Event
  | notified (w : ℕ)
  | poll (w : ℕ)
  | trigger (t : ℕ)
  deriving DecidableEq, Repr

def step (s : SignalSystem) : Event → SignalSystem
  | .notified w => { s with wait := Function.update s.wait w .fresh }
  | .poll w => { s with wait := Function.update s.wait w ((s.wait w).poll s.signal) }
  | .trigger t =>
    if s.triggering t then
      { s with
        signal := s.signal.notifyWaiters
        triggering := Function.update s.triggering t false
        returned := s.returned + 1 }
    else
      { s with signal := s.signal.store, triggering := Function.update s.triggering t true }

def run (s : SignalSystem) (events : List Event) : SignalSystem := events.foldl step s

end SignalSystem

end FerrumKv
