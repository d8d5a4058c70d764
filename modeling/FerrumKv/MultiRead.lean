import FerrumKv.View
import Mathlib.Logic.Function.Basic

/-!
# Reads of several keys

`EXISTS` and `MGET` read their keys under the shared lock, release it, and come back under the
exclusive lock for the keys that they found expired. The engine and any number of clients, as a
system in which each critical section is one step and other commands and the clock move in between.
-/

namespace FerrumKv

/-- A keyspace and the clock it stood at. -/
structure Moment where
  store : Store
  clock : ℕ

namespace Moment

/-- Whether `EXISTS` counts the key. -/
def holds (m : Moment) (key : Key) : Bool := (live m.clock m.store key).isSome

def value (m : Moment) (key : Key) : Option Bytes := (live m.clock m.store key).map (·.1)

def expired (m : Moment) (key : Key) : Bool := (m.store.lookup key).any (·.isExpired m.clock)

end Moment

/-- Where a client stands: between the two sections of an `EXISTS` or of an `MGET`, or answered. -/
inductive ReadPc
  | idle
  | counting (keys : List Key) (count : ℕ) (expired : List Key)
  | fetching (keys : List Key) (values : List (Option Bytes)) (expired : List (ℕ × Key))
  | counted (keys : List Key) (count : ℕ)
  | fetched (keys : List Key) (values : List (Option Bytes))

def ReadPc.busy : ReadPc → Bool
  | .counting _ _ _ | .fetching _ _ _ => true
  | _ => false

/-- A client, with the moments from the start of its command to the end of it. They are history that
no step reads. -/
structure ReadClient where
  pc : ReadPc := .idle
  moments : List Moment := []

/-- A command under way lives to see the moment. -/
def ReadClient.see (r : ReadClient) (m : Moment) : ReadClient :=
  if r.pc.busy then { r with moments := r.moments ++ [m] } else r

structure ReadSystem where
  engine : KvEngine
  clock : ℕ
  client : ℕ → ReadClient

namespace ReadSystem

def start (engine : KvEngine) (clock : ℕ) : ReadSystem := ⟨engine, clock, fun _ => {}⟩

def now (s : ReadSystem) : Moment := ⟨s.engine.store, s.clock⟩

def moveTo (s : ReadSystem) (engine : KvEngine) (clock : ℕ) : ReadSystem :=
  ⟨engine, clock, fun c => (s.client c).see ⟨engine.store, clock⟩⟩

def setClient (s : ReadSystem) (c : ℕ) (r : ReadClient) : ReadSystem :=
  { s with client := Function.update s.client c r }

/-- The first section of client `c` leaves `engine` and the client at `pc`. -/
def enter (s : ReadSystem) (c : ℕ) (engine : KvEngine) (pc : ReadPc) : ReadSystem :=
  let s' := s.moveTo engine s.clock
  s'.setClient c ⟨pc, [s.now, s'.now]⟩

/-- The second section of client `c` leaves `engine` and the client at `pc`. -/
def leave (s : ReadSystem) (c : ℕ) (engine : KvEngine) (pc : ReadPc) : ReadSystem :=
  let s' := s.moveTo engine s.clock
  s'.setClient c { s'.client c with pc := pc }

/-- A millisecond passes; a command of some client runs; client `c` makes the first section of an
`EXISTS` or an `MGET`, or the second section of the one it has under way. -/
inductive Event
  | tick
  | command (env : Env) (cmd : Command)
  | existsMany (c : ℕ) (env : Env) (keys : List Key)
  | mget (c : ℕ) (env : Env) (keys : List Key)
  | resume (c : ℕ) (env : Env)

open KvEngine

def step (s : ReadSystem) : Event → ReadSystem
  | .tick => s.moveTo s.engine (s.clock + 1)
  | .command env cmd => s.moveTo (exec env s.engine cmd).2 s.clock
  | .existsMany c env keys =>
    if (s.client c).pc.busy then s
    else
      let r := existsShared env keys s.engine
      s.enter c r.2 (if r.1.2 = [] then .counted keys r.1.1 else .counting keys r.1.1 r.1.2)
  | .mget c env keys =>
    if (s.client c).pc.busy then s
    else
      let r := mgetShared env 0 keys s.engine
      s.enter c r.2 (if r.1.2 = [] then .fetched keys r.1.1 else .fetching keys r.1.1 r.1.2)
  | .resume c env =>
    match (s.client c).pc with
    | .counting keys count expired =>
      let r := existsExclusive env expired s.engine
      s.leave c r.2 (.counted keys (count + r.1))
    | .fetching keys values expired =>
      s.leave c (expired.foldl (fun s p => (s.fetchLive env p.1 p.2).2) s.engine)
        (.fetched keys values)
    | _ => s

def run (s : ReadSystem) (events : List Event) : ReadSystem := events.foldl step s

/-- The sections of `EXISTS` and `MGET` read the clock of the moment in which they run. -/
def OnClock (s : ReadSystem) : Event → Prop
  | .existsMany _ env _ | .mget _ env _ => env.shared = s.clock
  | .resume _ env => env.now = s.clock
  | _ => True

end ReadSystem

/-- From the first moment to the last, no key of the list that had expired came back to life, or
none of the others came or went. -/
def Undisturbed (keys : List Key) (moments : List Moment) : Prop :=
  ∀ m₀ ∈ moments.head?, ∀ m₁ ∈ moments.getLast?,
    (∀ key ∈ keys, m₀.expired key = true → m₁.holds key = false) ∨
      ∀ key ∈ keys, m₀.expired key = false → m₁.holds key = m₀.holds key

/-- The answer is the right one at one of the moments from the start of the command to its end. -/
def ReadClient.Atomic (r : ReadClient) : Prop :=
  match r.pc with
  | .counted keys count => ∃ m ∈ r.moments, keys.countP m.holds = count
  | .fetched keys values => ∃ m ∈ r.moments, keys.map m.value = values
  | _ => True

end FerrumKv
