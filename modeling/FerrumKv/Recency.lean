import FerrumKv.Effects
import FerrumKv.Lib.Recency

/-!
# The order of last uses

The keys that a run uses and the clock readings it stamps them with, and what the policies that go
by recency or by deadline are to evict.
-/

namespace FerrumKv

open KvEngine

/-- The readings that the uses of a command put into the entries. -/
def stamps (env : Env) (used : List (ℕ × Key)) : List ℕ := used.map fun u => (env.access u.1).ns

/-- The readings that a run puts into the entries, in the order of the uses. -/
def stampsInRun : KvEngine → List Call → List ℕ
  | _, [] => []
  | s, c :: calls => stamps c.env (uses c.env s c.cmd) ++ stampsInRun (c.step s) calls

def usesInRun : KvEngine → List Call → List Key
  | _, [] => []
  | s, c :: calls => (uses c.env s c.cmd).map (·.2) ++ usesInRun (c.step s) calls

/-- The first key of a recency list that is stored and in scope. -/
def leastRecent (order : List Key) (s : KvEngine) : Option Key :=
  (order.filter (SieveState.eligible s.store s.eviction.policy.scope)).head?

/-- `key` is stored with a deadline, and no stored key has an earlier one. -/
def EarliestDeadline (s : KvEngine) (key : Key) : Prop :=
  ∃ e d, s.store.lookup key = some e ∧ e.expireAt = some d
    ∧ ∀ k e' d', s.store.lookup k = some e' → e'.expireAt = some d' → d ≤ d'

/-- The key that a policy by recency or by deadline is to evict. -/
structure RightVictim (order : List Key) (s : KvEngine) (key : Key) : Prop where
  lru : s.eviction.policy = .allKeysLru ∨ s.eviction.policy = .volatileLru →
    leastRecent order s = some key
  ttl : s.eviction.policy = .volatileTtl → EarliestDeadline s key

/-- The command from `s` to `s'` uses the keys it is to use, and each key it evicts is the right one
in the state it is evicted from, which has the policy of `s` and nothing but entries of `s`. -/
def EvictsRightly (order : List Key) (env : Env) (cmd : Command) (s s' : KvEngine) : Prop :=
  ∃ effs, Trace env cmd s s effs s' ∧ effs.filterMap Effect.used = uses env s cmd
    ∧ s'.evictedKeys = s.evictedKeys + (effs.filterMap Effect.victim).length
    ∧ ∀ pre victim post, effs = pre ++ .evict victim :: post →
      ∃ t, Trace env cmd s s pre t ∧ PartOf s t ∧ (t.selectVictim env).1 = some victim
        ∧ RightVictim order t victim

end FerrumKv
