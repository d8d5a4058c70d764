import FerrumKv.Eviction
import FerrumKv.Lib.LockOrder

/-!
# The locks of the engine

Every entry point of the engine and of the log writer as the locks it takes: a guard lives to the end
of its scope, a branch that depends on the keyspace, the clock or an error may go either way, and a
loop over keys may run any number of times. `?` on a fallible call is a branch around the rest.
-/

namespace FerrumKv

open LockOrder LockOrder.Prog

inductive LockId
  | store
  | eviction
  | sieve
  | ac
  | syncLock
  | rewriteLock
  | inner
  | syncFile
  | delta
  deriving DecidableEq, Repr

namespace Locks

/-! ## Helpers of the engine -/

/-- `sieve_notify_insert`, `sieve_notify_access` and `sieve_notify_remove`. -/
def sieveNotify : Prog LockId := opt (lock .sieve)

/-- `ac_notify_insert`, `ac_notify_access` and `ac_notify_remove`. -/
def acNotify : Prog LockId := opt (lock .ac)

def trackInsert : Prog LockId := block [sieveNotify, acNotify]

def trackRemove : Prog LockId := block [sieveNotify, acNotify]

def trackClear : Prog LockId := block [lock .sieve, lock .ac]

def touchAccess : Prog LockId := opt (block [sieveNotify, acNotify])

def writeBytes : Prog LockId :=
  .guard .rewriteLock .exclusive (.guard .inner .exclusive (opt (lock .delta)))

/-- `append_set` and the other appends, where a writer is attached. -/
def appendAof : Prog LockId := opt writeBytes

def syncIfNeeded : Prog LockId :=
  opt (.guard .syncLock .exclusive (opt (block [lock .inner, opt (lock .syncFile)])))

def abortRewrite : Prog LockId := lock .delta

def finishRewrite : Prog LockId :=
  opt (.guard .rewriteLock .exclusive (.guard .inner .exclusive
    (opt (block [opt (lock .syncFile), lock .delta]))))

def evictSieve : Prog LockId := lock .sieve

def evictAc : Prog LockId := lock .ac

/-- A round picks a victim, by an index or by a sample, and removes it. -/
def enforceMemoryLimit : Prog LockId :=
  block [.guard .eviction .shared .skip,
    .loop (block [.choice (.choice evictSieve evictAc) .skip, opt (block [trackRemove, appendAof])])]

def enforceForWrite : Prog LockId := enforceMemoryLimit

/-! ## The write guard -/

/-- A command under the exclusive guard; its drop lets go of the keyspace and then runs the barrier. -/
def withWriteGuard (body : Prog LockId) : Prog LockId :=
  block [.guard .store .exclusive body, opt syncIfNeeded]

/-- The removal of an expired entry, with `log_expire_drop`. -/
def dropExpired : Prog LockId := block [trackRemove, appendAof]

def fetchLive : Prog LockId := .choice dropExpired (opt touchAccess)

def containsLive : Prog LockId := opt dropExpired

def insert : Prog LockId := opt (block [enforceForWrite, opt (block [appendAof, trackInsert])])

def insertNx : Prog LockId :=
  opt (block [opt trackRemove, enforceForWrite, opt (block [appendAof, trackInsert])])

def insertMany : Prog LockId :=
  opt (block [.loop enforceForWrite, opt (block [appendAof, .loop trackInsert])])

def insertKeepTtl : Prog LockId :=
  block [enforceForWrite, opt (block [appendAof, opt appendAof, trackInsert])]

def readState : Prog LockId := opt dropExpired

def remove : Prog LockId := block [trackRemove, opt appendAof]

def removeMany : Prog LockId := block [.loop trackRemove, .loop appendAof]

def expireAt : Prog LockId :=
  block [opt dropExpired,
    opt (.choice (block [trackRemove, appendAof]) (block [sieveNotify, acNotify, appendAof]))]

def persist : Prog LockId :=
  .choice dropExpired (opt (block [sieveNotify, acNotify, appendAof]))

def clear : Prog LockId := block [trackClear, appendAof]

def ttlOf : Prog LockId := opt dropExpired

def strlenOf : Prog LockId := opt dropExpired

/-- The expired entry is taken out without the index notifications. -/
def memoryOf : Prog LockId := opt appendAof

/-- A read under the shared lock that turns to the exclusive guard for expired entries. -/
def sharedThen (shared exclusive : Prog LockId) : Prog LockId :=
  block [.guard .store .shared shared, opt (withWriteGuard exclusive)]

/-- `INCRBY`, `INCRBYFLOAT` and `APPEND`: the state is read and written back under one guard. -/
def readModifyWrite : Prog LockId :=
  opt (withWriteGuard (block [readState, opt insertKeepTtl]))

/-- The locks of `set_eviction_config` for the kind `new`, when the kind it loads is `old`. -/
def setEvictionConfig (new old : IndexKind) : Prog LockId :=
  block [
    if new ≠ old then
      .guard .store .shared
        (if new.isSieve then .guard .sieve .exclusive (lock .ac)
        else if new.isAc then .guard .ac .exclusive (lock .sieve)
        else block [lock .sieve, lock .ac])
    else .skip,
    .guard .eviction .exclusive .skip]

/-- The snapshot, and then nothing, an abort or the swap. -/
def performAofRewrite : Prog LockId :=
  block [.guard .store .shared .skip, opt (.choice abortRewrite finishRewrite)]

end Locks

/-! ## Entry points -/

/-- The entry points. `performAofRewrite` is what the thread spawned by `rewrite_aof` runs, and
`flush` the background flusher. -/
inductive EntryPoint
  | set
  | setNx
  | mset
  | incrBy
  | incrByFloat
  | append
  | del
  | delMany
  | flushdb
  | expireAtMs
  | persist
  | get
  | mget
  | existsKey
  | existsMany
  | strlen
  | ttlMs
  | memoryUsage
  | dbsize
  | scanKeys
  | expireStats
  | policyIndexMemory
  | sweepExpired
  | setEvictionConfig (new old : IndexKind)
  | evictionConfig
  | rewriteAof
  | performAofRewrite
  | syncIfNeeded
  | flush
  deriving DecidableEq, Repr

namespace EntryPoint

open Locks in
/-- The locks that a call of the entry point takes. -/
def code : EntryPoint → Prog LockId
  | .set => withWriteGuard insert
  | .setNx => withWriteGuard insertNx
  | .mset => withWriteGuard insertMany
  | .incrBy | .incrByFloat | .append => readModifyWrite
  | .del => withWriteGuard remove
  | .delMany => opt (withWriteGuard removeMany)
  | .flushdb => withWriteGuard clear
  | .expireAtMs => withWriteGuard expireAt
  | .persist => withWriteGuard Locks.persist
  | .get => sharedThen (opt touchAccess) fetchLive
  | .mget => sharedThen (.loop touchAccess) (.loop fetchLive)
  | .existsKey => sharedThen .skip containsLive
  | .existsMany => opt (sharedThen .skip (.loop containsLive))
  | .strlen => sharedThen .skip strlenOf
  | .ttlMs => sharedThen .skip ttlOf
  | .memoryUsage => sharedThen .skip memoryOf
  | .dbsize | .scanKeys | .expireStats => .guard .store .shared .skip
  | .policyIndexMemory => opt (.guard .store .shared .skip)
  | .sweepExpired => opt (.guard .store .exclusive (.loop (block [trackRemove, appendAof])))
  | .setEvictionConfig new old => Locks.setEvictionConfig new old
  | .evictionConfig => .guard .eviction .shared .skip
  | .rewriteAof => opt abortRewrite
  | .performAofRewrite => Locks.performAofRewrite
  | .syncIfNeeded => Locks.syncIfNeeded
  | .flush => lock .inner

/-- Whether the call rebuilds a SIEVE index, holding `sieve` while it takes `ac`. -/
def toSieve : EntryPoint → Bool
  | .setEvictionConfig new old => decide (new ≠ old) && new.isSieve
  | _ => false

/-- Whether the call rebuilds an AdaptiveClimb index, holding `ac` while it takes `sieve`. -/
def toAc : EntryPoint → Bool
  | .setEvictionConfig new old => decide (new ≠ old) && new.isAc
  | _ => false

end EntryPoint

/-- The engine as its threads, each in a call or idle. -/
abbrev Threads (T : Type*) := T → Thread EntryPoint LockId

namespace Threads

variable {T : Type*}

def start : Threads T := fun _ => {}

/-- No switch to one index family starts while a switch to the other is in progress. -/
def Apart (s : Threads T) : Event T EntryPoint → Prop
  | .call _ c => ∀ u d, (s u).call = some d →
    ¬(c.toSieve = true ∧ d.toAc = true) ∧ ¬(c.toAc = true ∧ d.toSieve = true)
  | .step _ _ => True

variable [Fintype T] [DecidableEq T]

def run (s : Threads T) (events : List (Event T EntryPoint)) : Threads T :=
  events.foldl (step EntryPoint.code) s

end Threads

end FerrumKv
