import FerrumKv.Effects

/-!
# Removals of expired entries

How many entries a run removes because their deadline had passed, by the sweeper or by the command
that met them, and which commands meet one; and what the sweeper's cursor passes over.
-/

namespace FerrumKv

open KvEngine

/-- The entries that a run removes because their deadline had passed. -/
def expiredInRun : KvEngine → List Call → ℕ
  | _, [] => 0
  | s, c :: calls => (expirations c.env s c.cmd).length + expiredInRun (c.step s) calls

def Command.isSweep : Command → Bool
  | .sweepExpired _ => true
  | _ => false

/-- Whether the command takes the entry of `k` away when it has expired at the guard's clock. -/
def Command.drops (env : Env) (s : KvEngine) (k : Key) : Command → Prop
  | .setNx key value => validatePair key value = .ok ()
  | .incrBy key _ | .incrByFloat key _ | .append key _ => validateKey key = .ok ()
  | .get _ | .existsKey _ | .strlen _ | .ttlMs _ | .memoryUsage _ | .mget _ | .existsMany _ =>
    expiredAt env.shared s k = true
  | .del _ | .delMany _ | .expireAtMs _ _ | .persist _ => True
  | .set _ _ | .mset _ | .dbsize | .scanKeys _ | .expireStats | .flushdb | .sweepExpired _
  | .setEvictionConfig _ => False

/-- The command names a key whose entry has expired, and is one that takes such an entry away. -/
def FindsExpired (env : Env) (s : KvEngine) (cmd : Command) : Prop :=
  ∃ k ∈ cmd.keys, cmd.drops env s k ∧ expiredAt env.now s k = true

/-- Removed keys leave the iteration order of the others as it was. -/
def OrderKept (env : Env) (store : Store) : Prop :=
  ∀ keys : List Key, env.iter (keys.foldl (fun st k => st.erase k) store)
    = (env.iter store).filter fun e => !keys.contains e.1

/-- The place in the iteration order where a sweep begins. -/
def sweepStart (env : Env) (s : KvEngine) : ℕ :=
  if (env.iter s.store).length = 0 then 0 else s.sweepCursor % (env.iter s.store).length

/-- The place behind the entries that a sweep examines, where it leaves the cursor. -/
def sweepStop (env : Env) (sample : ℕ) (s : KvEngine) : ℕ :=
  (sweepStart env s + min sample (env.iter s.store).length) % (env.iter s.store).length

/-- Of the entries before the place where a sweep leaves the cursor, none that it examines has
expired: it removes nothing that would move the entries behind the cursor forward. -/
def NothingBehind (env : Env) (sample : ℕ) (s : KvEngine) : Prop :=
  ∀ e ∈ (env.iter s.store).take (sweepStop env sample s), e ∈ s.sweepWindow env sample →
    e.2.isExpired env.now = false

def sweeps (env : Env) (sample n : ℕ) : List Call := .replicate n ⟨env, .sweepExpired sample⟩

end FerrumKv
