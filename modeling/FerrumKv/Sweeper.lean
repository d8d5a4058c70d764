import FerrumKv.Expiry

/-!
# The thread of the sweeper

A tick of `expire::run`: sweeps at one instant, sixteen at most, for as long as more than a quarter
of what a sweep examines has expired.
-/

namespace FerrumKv

open KvEngine

def SweepStats.shouldContinue (stats : SweepStats) : Bool :=
  decide (0 < stats.examined) && decide (stats.examined < stats.evicted * 4)

/-- The most sweeps of one tick. -/
def sweepsPerTick : ℕ := 16

def tickLoop (env : Env) (sample : ℕ) : ℕ → KvEngine → KvEngine
  | 0, s => s
  | left + 1, s =>
    match s.sweepExpired env sample with
    | (stats, s') => if stats.shouldContinue then tickLoop env sample left s' else s'

def tick (env : Env) (sample : ℕ) (s : KvEngine) : KvEngine := tickLoop env sample sweepsPerTick s

def ticks (env : Env) (sample : ℕ) : ℕ → KvEngine → KvEngine
  | 0, s => s
  | n + 1, s => tick env sample (ticks env sample n s)

def expiredCount (t : ℕ) (s : KvEngine) : ℕ := s.store.entries.countP fun e => e.2.isExpired t

end FerrumKv
