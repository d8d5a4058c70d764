import FerrumKv.Entry
import FerrumKv.Lib.CasLoop

/-!
# Words changed without a lock

The counter of client connections, which the accept loop raises and every guard lowers when it is
dropped, and the access metadata of an entry, which readers under the shared lock update at the same
time. Each is a word with a compare-and-swap loop on it.
-/

namespace FerrumKv

/-! ## Connection slots -/

inductive SlotOp
  | acquire
  | release
  deriving DecidableEq, Repr

/-- What `try_acquire` and the drop of a guard make of the counter. A limit of `0` is none. -/
def slotUpdate (maxClients : UInt64) : SlotOp → UInt64 → Option UInt64
  | .acquire, active =>
    if maxClients = 0 then some (active + 1)
    else if maxClients ≤ active then none
    else some (active + 1)
  | .release, active => some (active - 1)

namespace ConnCounter

abbrev State := CasLoop.State ℕ UInt64 SlotOp

abbrev History := List (CasLoop.Entry ℕ SlotOp)

/-- Task `t` calls `try_acquire`, makes its next access to the counter in it, or drops a guard. -/
inductive Event
  | tryAcquire (t : ℕ)
  | access (t : ℕ)
  | drop (t : ℕ)
  deriving DecidableEq, Repr

def acquired (h : History) : ℕ := h.countP fun e => decide (e.op = .acquire) && e.took

def released (h : History) : ℕ := h.countP fun e => decide (e.op = .release)

def guards (h : History) : ℕ := acquired h - released h

/-- Without a limit `try_acquire` is one `fetch_add`, and a drop is one `fetch_sub`. -/
def step (maxClients : UInt64) (s : State) : Event → State
  | .tryAcquire t =>
    s.step (slotUpdate maxClients)
      (if maxClients = 0 then .direct t .acquire else .call t .acquire)
  | .access t => s.step (slotUpdate maxClients) (.access t false)
  | .drop t =>
    if 0 < guards s.history then s.step (slotUpdate maxClients) (.direct t .release) else s

def new : State := .init 0

def run (maxClients : UInt64) (events : List Event) : State :=
  events.foldl (step maxClients) new

end ConnCounter

/-! ## Access metadata -/

/-- The counter in the low byte and the minute in the high half. -/
def packLfu (counter : UInt8) (minute : UInt16) : UInt32 :=
  (minute.toUInt32 <<< 16) ||| counter.toUInt32

def unpackLfu (word : UInt32) : UInt8 × UInt16 :=
  ((word &&& 0xFF).toUInt8, ((word >>> 16) &&& 0xFFFF).toUInt16)

/-- One call of `touch`: its readings of the two clocks, and for which counters its random draw lies
below the increment probability. -/
structure Touch where
  ns : ℕ
  minute : UInt16
  draw : UInt8 → Bool

namespace Touch

/-- What the loop of `touch` makes of the packed word. -/
def update (o : Touch) (word : UInt32) : Option UInt32 :=
  let (counter, minute) := unpackLfu word
  let decayed := decayedCounter counter minute o.minute lfuDecayMinutes
  some (packLfu (probabilisticIncrement decayed (o.draw decayed)) o.minute)

/-- The touch of an entry that nobody else touches. -/
def apply (e : ValueEntry) (o : Touch) : ValueEntry :=
  e.touch ⟨o.ns, o.minute,
    o.draw (decayedCounter e.lfuCounter e.lfuMinute o.minute lfuDecayMinutes)⟩

end Touch

/-- An entry that readers touch: the time of the last access and the packed word. -/
structure SharedEntry where
  lastAccessNs : ℕ
  lfu : CasLoop.State ℕ UInt32 Touch

namespace SharedEntry

def ofEntry (e : ValueEntry) : SharedEntry :=
  ⟨e.lastAccessNs, .init (packLfu e.lfuCounter e.lfuMinute)⟩

/-- Reader `t` calls `touch`, which stores the time first, or makes its next access to the word; a
`compare_exchange_weak` may fail although the word is the one it expects. -/
inductive Event
  | touch (t : ℕ) (o : Touch)
  | access (t : ℕ) (spurious : Bool)

def step (s : SharedEntry) : Event → SharedEntry
  | .touch t o =>
    if (s.lfu.phase t).isIdle then ⟨o.ns, s.lfu.step Touch.update (.call t o)⟩ else s
  | .access t spurious => { s with lfu := s.lfu.step Touch.update (.access t spurious) }

def run (s : SharedEntry) (events : List Event) : SharedEntry := events.foldl step s

end SharedEntry

end FerrumKv
