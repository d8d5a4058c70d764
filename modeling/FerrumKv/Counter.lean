import FerrumKv.Effects
import FerrumKv.Lib.Partial
import FerrumKv.Parser
import FerrumKv.View

/-!
# Counters

`INCR`, `DECR`, `INCRBY` and `DECRBY` requests for one key, with any bytes as their argument,
between commands that leave the key alone; and what exact counting is: the reply is the sum of the
integers, the stored value its decimal form, and every refusal has a reason and changes nothing.
-/

namespace FerrumKv

open Partial (IsI64)

/-- The decimal form of an `i64`: an optional sign, then digits. -/
def DecimalI64 (raw : Bytes) (z : ℤ) : Prop := Decimal.Numeral raw z ∧ IsI64 z

/-- A request that counts. -/
inductive CounterFrame
  | incr
  | decr
  | incrBy (raw : Bytes)
  | decrBy (raw : Bytes)
  deriving DecidableEq, Repr

namespace CounterFrame

def name : CounterFrame → Bytes
  | incr => text "INCR"
  | decr => text "DECR"
  | incrBy _ => text "INCRBY"
  | decrBy _ => text "DECRBY"

def args (key : Key) : CounterFrame → List Bytes
  | incr | decr => [key]
  | incrBy raw | decrBy raw => [key, raw]

/-- The request asks to add `d`. -/
def Adds : CounterFrame → ℤ → Prop
  | incr, d => d = 1
  | decr, d => d = -1
  | incrBy raw, d => DecimalI64 raw d
  | decrBy raw, d => DecimalI64 raw (-d) ∧ -d ≠ -2 ^ 63

/-- Builds the command of the request and runs it. The reply `none` is an error. -/
def serve (env : Env) (s : KvEngine) (key : Key) (f : CounterFrame) : Option Int64 × KvEngine :=
  match Protocol.buildCommand env.float f.name (f.args key) with
  | .ok (.incrBy key delta) => ((s.incrBy env key delta).1.toOption, (s.incrBy env key delta).2)
  | _ => (none, s)

end CounterFrame

/-- The counter stands at `z`, with the deadline `ttl`; absent or expired it stands at `0`. -/
def StandsAt (t : ℕ) (store : Store) (key : Key) (z : ℤ) (ttl : Option ℕ) : Prop :=
  live t store key = none ∧ z = 0 ∧ ttl = none
    ∨ ∃ data, live t store key = some (data, ttl) ∧ DecimalI64 data z

/-- A request for the counter, or a command of another client. -/
inductive CounterEvent
  | count (env : Env) (f : CounterFrame)
  | other (call : Call)

namespace CounterEvent

def now : CounterEvent → ℕ
  | count env _ => env.now
  | other call => call.env.now

def step (key : Key) (s : KvEngine) : CounterEvent → KvEngine
  | count env f => (f.serve env s key).2
  | other call => call.step s

/-- Other commands do not name the key, do not clear the store and set no ceiling. -/
def Elsewhere (key : Key) : CounterEvent → Prop
  | count _ _ => True
  | other call => key ∉ call.cmd.keys ∧ call.cmd ≠ .flushdb
    ∧ ∀ cfg, call.cmd = .setEvictionConfig cfg → cfg.maxMemory = 0

/-- A request is answered with the exact sum, which is then stored with the deadline kept, or it is
refused because there is no such sum, and the counter is as it was. Another command leaves what the
key shows from then on. -/
def Exact (key : Key) (s : KvEngine) : CounterEvent → Prop
  | count env f => ∃ z ttl, StandsAt env.now s.store key z ttl ∧
    ((∃ d n, f.Adds d ∧ IsI64 (z + d) ∧ (f.serve env s key).1 = some n ∧ n.toInt = z + d
        ∧ live env.now (f.serve env s key).2.store key = some (Decimal.ofInt (z + d), ttl))
      ∨ ((¬ ∃ d, f.Adds d ∧ IsI64 (z + d)) ∧ (f.serve env s key).1 = none
        ∧ live env.now (f.serve env s key).2.store key = live env.now s.store key))
  | other call => ∀ t, call.env.now ≤ t → live t (call.step s).store key = live t s.store key

def run (key : Key) (s : KvEngine) (events : List CounterEvent) : KvEngine :=
  events.foldl (step key) s

end CounterEvent

end FerrumKv
