import FerrumKv.Server
import FerrumKv.Lib.Partial

/-!
# Panics

The operations of a command that panic for some operands, in the order the source performs them. A
panic ends the command where it happens; if the store's write lock is held there, the lock is
poisoned (`attempt`). Each function has the list of its own operations (`…Ops`) or, where it calls
functions that change the engine, of the places where they happen (`…Sites`).
-/

namespace FerrumKv

open Partial (Op)

/-- An operation, the engine that the function performing it was entered with, and whether the
store's write lock is held. -/
structure Site where
  op : Op
  engine : KvEngine
  exclusive : Bool

def Site.panics (x : Site) : Bool := !decide x.op.Succeeds

/-- `size_of::<Candidate>()`. -/
def candidateBytes : ℕ := 64

/-- `size_of::<Option<Vec<u8>>>()`. -/
def payloadBytes : ℕ := 24

/-- `size_of::<&[u8]>()`. -/
def sliceBytes : ℕ := 16

def sumOps : ℕ → List ℕ → List Op
  | _, [] => []
  | acc, n :: ns => .addU64 acc n :: sumOps (acc + n) ns

def countOps (n : ℕ) : List Op := (List.range n).map (.addU64 · 1)

def entryBytesOps (key : Key) (e : ValueEntry) : List Op :=
  [.addU64 key.length e.data.length, .addU64 (key.length + e.data.length) perEntryOverhead]

def ValueEntry.touchOps (e : ValueEntry) (r : AccessReading) : List Op :=
  let decayed := decayedCounter e.lfuCounter e.lfuMinute r.minute lfuDecayMinutes
  if decayed ≠ 255 ∧ r.coin = true then [.addU8 decayed.toNat 1] else []

def encodeCommandOps (parts : List Bytes) : List Op :=
  let payload := (parts.map List.length).sum
  sumOps 0 (parts.map List.length)
    ++ [.mulU64 parts.length 8, .addU64 16 payload, .addU64 (16 + payload) (parts.length * 8),
      .withCapacity (16 + payload + parts.length * 8) 1]

namespace AdaptiveClimbState

def clampOps (s : AdaptiveClimbState) : List Op :=
  if s.queue.length = 0 then [] else [.clamp 1 s.queue.length]

def removeOps (s : AdaptiveClimbState) (key : Key) : List Op :=
  clampOps { s with queue := s.queue.shiftRemove key }

def insertOps (s : AdaptiveClimbState) (key : Key) (hasTtl : Bool) : List Op :=
  if s.scope = .volatile ∧ hasTtl = false then s.removeOps key
  else
    let rest := { s with queue := s.queue.shiftRemove key }
    let len := rest.queue.length
    let jump := rest.clampJump.jump
    let jump' := if len = 0 then 1 else if jump < len then jump + 1 else jump
    rest.clampOps ++ (if 0 < len ∧ jump < len then [.addU64 jump 1] else [])
      ++ [.insertBefore len (min (len - jump') len)]

def accessOps (s : AdaptiveClimbState) (key : Key) : List Op :=
  match s.queue.indexOf? key with
  | none => []
  | some p =>
    let jump := if 1 < s.jump then s.jump - 1 else s.jump
    (if 1 < s.jump then [.subU64 s.jump 1] else [])
      ++ (if 0 < p ∧ p - jump < p then [.moveIndex s.queue.length p (p - jump)] else [])

def rebuildOps (scope : EvictionScope) :
    IndexMap Key Unit → List (Σ _ : Key, ValueEntry) → List Op
  | _, [] => []
  | q, e :: entries =>
    if scope.admits e.2 then
      .insertBefore q.length q.length :: rebuildOps scope (q.insertBefore q.length e.1 ()) entries
    else rebuildOps scope q entries

end AdaptiveClimbState

/-- The looks of `evict_one` at a queue that had `n` keys, with the number that are left. -/
def SieveState.evictOps (store : Store) (scope : EvictionScope) (ttlAware : Bool)
    (demote : ValueEntry → Bool) (n : ℕ) : ℕ → SieveState → List Op
  | 0, _ => [.addU64 n 1]
  | looks + 1, s =>
    let s := if s.queue.length ≤ s.hand then { s with hand := 0 } else s
    .addU64 n 1 ::
    match s.queue.getIndex? s.hand with
    | none => []
    | some (key, visited) =>
      if eligible store scope key = false then
        .addU64 (n - looks) 1 :: evictOps store scope ttlAware demote n looks
          { s with queue := s.queue.shiftRemove key }
      else
        .unwrap (s.queue.getIndex? s.hand).isSome
          :: (if ttlAware then [.unwrap (store.lookup key).isSome] else [])
          ++ if visited = false ∨ (store.lookup key).any demote = true then []
            else
              .unwrap (s.queue.getIndex? s.hand).isSome :: .addU64 s.hand 1
                :: .addU64 (n - looks) 1 :: evictOps store scope ttlAware demote n looks
                  { s with queue := s.queue.modify key fun _ => false, hand := s.hand + 1 }

namespace KvEngine

/-- The places of operations that are performed on the engine `s`. -/
def sites (s : KvEngine) (exclusive : Bool) (ops : List Op) : List Site :=
  ops.map (⟨·, s, exclusive⟩)

def acInsertOps (s : KvEngine) (key : Key) (hasTtl : Bool) : List Op :=
  if s.indexKind.isAc then s.ac.insertOps key hasTtl else []

def acAccessOps (s : KvEngine) (key : Key) : List Op :=
  if s.indexKind.isAc then s.ac.accessOps key else []

def acRemoveOps (s : KvEngine) (key : Key) : List Op :=
  if s.indexKind.isAc then s.ac.removeOps key else []

/-! ## Tracked changes of the store -/

def applyDeltaOps (delta : ℤ) : List Op := if delta < 0 then [.negI64 delta] else []

def trackInsertOps (s : KvEngine) (key : Key) (entry : ValueEntry) : List Op :=
  let outgoing := s.store.weightAt entryBytes key
  entryBytesOps key entry
    ++ (s.store.lookup key).elim [] (entryBytesOps key)
    ++ [.subI64 (entryBytes key entry) outgoing]
    ++ applyDeltaOps (entryBytes key entry - outgoing)
    ++ s.acInsertOps key entry.expireAt.isSome

/-- The charge of an entry that leaves the store. -/
def untrackOps (key : Key) (entry : ValueEntry) : List Op :=
  entryBytesOps key entry ++ [.negI64 (entryBytes key entry)]
    ++ applyDeltaOps (-(entryBytes key entry : ℤ))

def trackRemoveOps (s : KvEngine) (key : Key) : List Op :=
  (s.store.lookup key).elim [] (untrackOps key) ++ s.acRemoveOps key

def touchAccessOps (s : KvEngine) (r : AccessReading) (key : Key) : List Op :=
  (s.store.lookup key).elim [] fun entry => entry.touchOps r ++ s.acAccessOps key

/-- The encoding of the records that are appended where a writer is attached. -/
def appendOps (s : KvEngine) (rs : List AofRecord) : List Op :=
  if s.aof = none then [] else rs.flatMap fun r => encodeCommandOps r.parts

def dropExpiredOps (s : KvEngine) (key : Key) : List Op :=
  s.trackRemoveOps key ++ s.appendOps [.del key]

section Eviction

variable (origin : ℕ) (env : Env)

/-- The sampling of candidates. The time of an access is kept in nanoseconds after `origin`, the
process-wide instant in milliseconds, and cut at `u64::MAX`. -/
def sampleOps (s : KvEngine) : List Op :=
  .withCapacity s.eviction.samples candidateBytes
    :: (sampleCandidates s.eviction.policy.scope s.eviction.samples (env.iter s.store)).map
      fun c => .instantAdd origin (min c.lastAccess (2 ^ 64 - 1) / 1000000)

/-- The deadlines that `volatile-ttl` takes out of its candidates. -/
def soonestOps (s : KvEngine) : List Op :=
  ((sampleCandidates s.eviction.policy.scope s.eviction.samples (env.iter s.store)).filter
    (·.expireAt.isSome)).map fun c => .unwrap c.expireAt.isSome

def evictSieveOps (s : KvEngine) : List Op :=
  let policy := s.eviction.policy
  let ttlAware := policy.indexKind.isSieveTtl
  if s.sieve.queue.length = 0 then []
  else
    SieveState.evictOps s.store policy.scope ttlAware
      (fun e => ttlAware && isNearExpiry (env.evictNow s.store) e)
      s.sieve.queue.length (s.sieve.queue.length + 1) s.sieve

def selectVictimOps (s : KvEngine) : List Op :=
  match s.eviction.policy with
  | .allKeysSieve | .volatileSieve | .allKeysSieveS | .volatileSieveS => s.evictSieveOps env
  | .allKeysAdaptiveClimb | .volatileAdaptiveClimb => []
  | .volatileTtl => s.sampleOps origin env ++ s.soonestOps env
  | _ => s.sampleOps origin env

/-- What the hybrid controller adds up after a sweep: its totals are at most the counters. -/
def observeOps (s : KvEngine) (evicted : ℕ) : List Op :=
  if 0 < evicted ∧ (s.eviction.policy = .allKeysAhe ∨ s.eviction.policy = .volatileAhe) then
    [.addU64 s.hits s.misses]
  else []

/-- The rounds of the loop, with the number of keys evicted so far. -/
def evictLoopSites (incoming : ℕ) : ℕ → ℕ → KvEngine → List Site
  | 0, evicted, s => s.sites true (s.observeOps evicted)
  | rounds + 1, evicted, s =>
    if s.fits incoming then s.sites true (s.observeOps evicted)
    else if s.eviction.policy = .noEviction then []
    else
      s.sites true (s.selectVictimOps origin env) ++
      match s.selectVictim env with
      | (none, _) => []
      | (some victim, s) =>
        s.sites true (s.trackRemoveOps victim ++ .addU64 evicted 1 :: s.appendOps [.del victim])
          ++ evictLoopSites incoming rounds (evicted + 1) (s.evictVictim victim)

def enforceMemoryLimitSites (s : KvEngine) (incoming : ℕ) : List Site :=
  if s.eviction.maxMemory = 0 then []
  else
    s.sites true [.addU64 (max s.store.entries.length 1) 16]
      ++ evictLoopSites origin env incoming (max s.store.entries.length 1 + 16) 0 s

def enforceForWriteSites (s : KvEngine) (key : Key) (valueLen : ℕ) : List Site :=
  s.sites true
      (.addU64 key.length valueLen :: .addU64 (key.length + valueLen) perEntryOverhead
        :: (s.store.lookup key).elim [] (entryBytesOps key))
    ++ s.enforceMemoryLimitSites origin env
      (key.length + valueLen + perEntryOverhead - s.store.weightAt entryBytes key)

/-! ## Under the write lock -/

/-- The sites of a function that comes after an admission and only if it succeeds. -/
def admitted (s : KvEngine) (key value : Bytes) (after : KvEngine → List Site) : List Site :=
  s.enforceForWriteSites origin env key value.length ++
  match s.enforceForWrite env key value.length with
  | (.error _, _) => []
  | (.ok (), s) => after s

/-- The records and the change of a write that was admitted. -/
def writeSites (s : KvEngine) (key value : Bytes) (ttl : Option ℕ) : List Site :=
  s.sites true (s.appendOps (.set key value :: keepTtlRecords env key ttl)
    ++ s.trackInsertOps key (.newWith (env.access 0) value ttl))

/-- The removal of an entry that has expired at the guard's clock. -/
def lapseSites (s : KvEngine) (key : Key) : List Site :=
  match s.store.lookup key with
  | some entry => if entry.isExpired env.now then s.sites true (s.dropExpiredOps key) else []
  | none => []

def fetchLiveSites (i : ℕ) (s : KvEngine) (key : Key) : List Site :=
  match s.store.lookup key with
  | some entry =>
    if entry.isExpired env.now then s.sites true (s.dropExpiredOps key)
    else s.sites true (s.touchAccessOps (env.access i) key)
  | none => []

def insertSites (s : KvEngine) (key value : Bytes) : List Site :=
  match validatePair key value with
  | .error _ => []
  | .ok () => s.admitted origin env key value fun s => s.writeSites env key value none

def insertNxSites (s : KvEngine) (key value : Bytes) : List Site :=
  match validatePair key value with
  | .error _ => []
  | .ok () =>
    match s.store.lookup key with
    | some entry =>
      if entry.isExpired env.now then
        s.sites true (s.trackRemoveOps key)
          ++ (s.trackRemove key).admitted origin env key value fun s => s.writeSites env key value none
      else []
    | none => s.admitted origin env key value fun s => s.writeSites env key value none

def enforceManySites : List (Key × Bytes) → (KvEngine → List Site) → KvEngine → List Site
  | [], after, s => after s
  | (k, v) :: pairs, after, s =>
    s.admitted origin env k v fun s => enforceManySites pairs after s

def trackInsertManySites : ℕ → List (Key × Bytes) → KvEngine → List Site
  | _, [], _ => []
  | i, (k, v) :: pairs, s =>
    s.sites true (s.trackInsertOps k (.new (env.access i) v))
      ++ trackInsertManySites (i + 1) pairs (s.trackInsert k (.new (env.access i) v))

def insertManySites (s : KvEngine) (pairs : List (Key × Bytes)) : List Site :=
  match validatePairs pairs with
  | .error _ => []
  | .ok () =>
    enforceManySites origin env pairs (fun s =>
      s.sites true (s.appendOps (pairs.map fun p => .set p.1 p.2))
        ++ trackInsertManySites env 0 pairs (s.appendAof (pairs.map fun p => .set p.1 p.2))) s

def insertKeepTtlSites (s : KvEngine) (key value : Bytes) (ttl : Option ℕ) : List Site :=
  s.admitted origin env key value fun s => s.writeSites env key value ttl

def removeLoopSites : List Key → KvEngine → List Site
  | [], _ => []
  | key :: keys, s => s.sites true (s.trackRemoveOps key) ++ removeLoopSites keys (s.trackRemove key)

def removeManySites (s : KvEngine) (keys : List Key) : List Site :=
  let r := removeLoop env keys s
  s.sites true [.withCapacity keys.length sliceBytes] ++ removeLoopSites keys s
    ++ r.2.sites true (r.2.appendOps (r.1.map .del))

/-- After the removal of an expired entry: the past deadline removes the key, another one is set. -/
def expireAtSites (s : KvEngine) (key : Key) (absEpochMs : Int64) : List Site :=
  s.lapseSites env key
    ++ match s.store.lookup key with
      | none => []
      | some entry =>
        if entry.isExpired env.now then []
        else if absEpochMs.toInt ≤ env.nowMs.toInt then s.sites true (s.dropExpiredOps key)
        else
          s.sites true
            (.subI64 absEpochMs.toInt env.nowMs.toInt
              :: .instantAdd env.now (absEpochMs.toInt - env.nowMs.toInt).toNat
              :: s.acInsertOps key true ++ s.appendOps [.pexpireat key absEpochMs])

def persistSites (s : KvEngine) (key : Key) : List Site :=
  match s.store.lookup key with
  | none => []
  | some entry =>
    if entry.isExpired env.now then s.sites true (s.dropExpiredOps key)
    else if entry.expireAt = none then []
    else s.sites true (s.acRemoveOps key ++ s.appendOps [.persist key])

def memoryOfSites (s : KvEngine) (key : Key) : List Site :=
  match s.store.lookup key with
  | none => []
  | some entry =>
    s.sites true
      (if entry.isExpired env.now then untrackOps key entry ++ s.appendOps [.del key]
      else entryBytesOps key entry)

/-! ## Commands -/

/-- A read that takes the write lock only to remove an entry found expired under the shared one. -/
def readSites (s : KvEngine) (key : Key) : List Site :=
  match s.store.lookup key with
  | some entry => if entry.isExpired env.shared then s.lapseSites env key else []
  | none => []

def getSites (s : KvEngine) (key : Key) : List Site :=
  match s.store.lookup key with
  | some entry =>
    if entry.isExpired env.shared then s.fetchLiveSites env 0 key
    else s.sites false (s.touchAccessOps (env.access 0) key)
  | none => []

def mgetSharedSites : ℕ → List Key → KvEngine → List Site
  | _, [], _ => []
  | i, key :: keys, s =>
    match s.store.lookup key with
    | some entry =>
      if entry.isExpired env.shared then mgetSharedSites (i + 1) keys s
      else
        s.sites false (s.touchAccessOps (env.access i) key)
          ++ mgetSharedSites (i + 1) keys ((s.touchAccess (env.access i) key).recordHit)
    | none => mgetSharedSites (i + 1) keys s.recordMiss

/-- The pass over the positions of `n` keys that were found expired. -/
def mgetExclusiveSites (n : ℕ) : List (ℕ × Key) → KvEngine → List Site
  | [], _ => []
  | p :: rest, s =>
    s.sites true [.index n p.1] ++ s.fetchLiveSites env p.1 p.2
      ++ mgetExclusiveSites n rest (s.fetchLive env p.1 p.2).2

def mgetSites (s : KvEngine) (keys : List Key) : List Site :=
  let r := mgetShared env 0 keys s
  s.sites false [.withCapacity keys.length payloadBytes] ++ s.mgetSharedSites env 0 keys
    ++ mgetExclusiveSites env keys.length r.1.2 r.2

/-- Positions are those of `existsShared`'s keys in the list of `n` keys, from `i` on. -/
def expiredPositions (s : KvEngine) : ℕ → List Key → List (ℕ × Key)
  | _, [] => []
  | i, key :: keys =>
    match s.store.lookup key with
    | some entry =>
      if entry.isExpired env.shared then (i, key) :: s.expiredPositions (i + 1) keys
      else s.expiredPositions (i + 1) keys
    | none => s.expiredPositions (i + 1) keys

def existsExclusiveSites (n : ℕ) : ℕ → List (ℕ × Key) → KvEngine → List Site
  | _, [], _ => []
  | count, p :: rest, s =>
    let c := s.containsLive env p.2
    s.sites true [.index n p.1] ++ s.lapseSites env p.2
      ++ (if c.1 then c.2.sites true [.addU64 count 1] else [])
      ++ existsExclusiveSites n (if c.1 then count + 1 else count) rest c.2

def existsManySites (s : KvEngine) (keys : List Key) : List Site :=
  if keys = [] then []
  else
    let r := existsShared env keys s
    s.sites false (countOps r.1.1)
      ++ existsExclusiveSites env keys.length r.1.1 (s.expiredPositions env 0 keys) r.2

/-- The second half of a command that reads a value and writes another one. -/
def updateSites (s : KvEngine) (key : Key)
    (after : Option (Bytes × Option ℕ) → KvEngine → List Site) : List Site :=
  match validateKey key with
  | .error _ => []
  | .ok () => s.lapseSites env key ++ after (s.readState env key).1 (s.readState env key).2

def incrBySites (s : KvEngine) (key : Key) (delta : Int64) : List Site :=
  s.updateSites env key fun state s =>
    match (match state with
      | some (data, ttl) => (parseI64 data).map (·, ttl)
      | none => some (0, none)) with
    | none => []
    | some (n, ttl) =>
      (checkedAdd n delta).elim [] fun v => s.insertKeepTtlSites origin env key (i64ToString v) ttl

def incrByFloatSites (s : KvEngine) (key : Key) (delta : UInt64) : List Site :=
  s.updateSites env key fun state s =>
    match (match state with
      | some (data, ttl) => (env.float.parse data).map (·, ttl)
      | none => some (0, none)) with
    | none => []
    | some (n, ttl) =>
      let sum := env.float.add n delta
      if env.float.isFinite sum = false then []
      else s.insertKeepTtlSites origin env key (env.float.render sum) ttl

def appendSites (s : KvEngine) (key suffix : Bytes) : List Site :=
  s.updateSites env key fun state s =>
    match state with
    | some (data, ttl) =>
      s.sites true [.addU64 data.length suffix.length, .withCapacity (data.length + suffix.length) 1]
        ++ (match validateValue (data ++ suffix) with
          | .error _ => []
          | .ok () => s.insertKeepTtlSites origin env key (data ++ suffix) ttl)
    | none =>
      match validateValue suffix with
      | .error _ => []
      | .ok () => s.insertKeepTtlSites origin env key suffix none

def memoryUsageSites (s : KvEngine) (key : Key) : List Site :=
  match s.store.lookup key with
  | some entry =>
    if entry.isExpired env.shared then s.memoryOfSites env key
    else s.sites false (entryBytesOps key entry)
  | none => []

/-- The rebuild of the list, under the shared lock and only where the kind of index changes. -/
def setEvictionConfigSites (s : KvEngine) (cfg : EvictionConfig) : List Site :=
  if cfg.policy.indexKind ≠ s.indexKind ∧ cfg.policy.indexKind.isAc = true then
    s.sites false
      (AdaptiveClimbState.rebuildOps cfg.policy.scope IndexMap.empty (env.iter s.store))
  else []

end Eviction

end KvEngine

namespace Server

variable (origin : ℕ) (s : Server) (r : Reading)

/-- `TTL` rounds the remaining time up to seconds, after the lock was given back. -/
def ttlSites (key : Key) : List Site :=
  let t := s.engine.ttlMs r.env key
  s.engine.readSites r.env key
    ++ match t.1 with
      | .millis ms => t.2.sites false [.addI64 ms.toInt 999]
      | _ => []

def expireSites (key : Key) (deltaMs : Option Int64) : List Site :=
  s.engine.expireAtSites r.env key
    (match deltaMs with
    | some d => saturatingAdd r.expireMs d
    | none => r.expireMs)

/-- `INFO` multiplies the number of keys where an index is kept, and counts keys. -/
def infoSites (part : Option Bytes) : List Site :=
  let wants := fun name => (part.elim true fun p => eqIgnoreAsciiCase p (text name) : Bool)
  (if wants "memory" = true ∧ s.engine.indexKind ≠ .none then
      s.engine.sites false [.mulU64 s.engine.store.entries.length perIndexEntryBytes]
    else [])
    ++ (if wants "keyspace" then
      s.engine.sites false (countOps (s.engine.dbsize r.env))
        ++ (if 0 < s.engine.dbsize r.env then
          s.engine.sites false (countOps (s.engine.expireStats r.env).1) else [])
    else [])

/-- The eviction configuration that a `CONFIG SET` installs. -/
def configured (param value : Bytes) : Option EvictionConfig :=
  if Utf8.valid param = true ∧ Utf8.valid value = true then
    match parameter (asciiLowercase param) with
    | .maxMemory => (parseBytes value).toOption.map fun n => { s.engine.eviction with maxMemory := n }
    | .maxMemoryPolicy =>
      (EvictionPolicy.fromName (asciiLowercase value)).map fun p =>
        { s.engine.eviction with policy := p }
    | .maxMemorySamples =>
      ((parseU64 (Utf8.trim value)).filter (0 < ·)).map fun n =>
        { s.engine.eviction with samples := n }
    | _ => none
  else none

def configSites (sub : Bytes) (args : List Bytes) : List Site :=
  if eqIgnoreAsciiCase sub (text "GET") then s.engine.sites false [.index args.length 0]
  else if eqIgnoreAsciiCase sub (text "SET") then
    s.engine.sites false [.index args.length 0, .index args.length 1]
      ++ (match args with
        | param :: value :: _ =>
          if s.poisoned then []
          else (s.configured param value).elim [] (s.engine.setEvictionConfigSites r.env)
        | _ => [])
  else []

def slowLogSites (sub : Bytes) (args : List Bytes) : List Site :=
  if eqIgnoreAsciiCase sub (text "GET") ∧ args ≠ [] then
    s.engine.sites false [.index args.length 0]
  else []

/-- The sites of a command; one that finds the store's lock poisoned does nothing under it. -/
def dispatchSites (cmd : Protocol.Command) : List Site :=
  match cmd with
  | .config sub args => s.configSites r sub args
  | .slowLog sub args => s.slowLogSites sub args
  | .mGet keys =>
    if s.poisoned then s.engine.sites false [.withCapacity keys.length payloadBytes]
    else s.engine.mgetSites r.env keys
  | cmd => if s.poisoned then [] else storeSites cmd
where
  storeSites : Protocol.Command → List Site
    | .set key value => s.engine.insertSites origin r.env key value
    | .setNx key value => s.engine.insertNxSites origin r.env key value
    | .mSet pairs => s.engine.insertManySites origin r.env pairs
    | .incrBy key delta => s.engine.incrBySites origin r.env key delta
    | .incrByFloat key delta => s.engine.incrByFloatSites origin r.env key delta
    | .get key => s.engine.getSites r.env key
    | .del keys => if keys = [] then [] else s.engine.removeManySites r.env keys
    | .existsMany keys => s.engine.existsManySites r.env keys
    | .append key value => s.engine.appendSites origin r.env key value
    | .strLen key => s.engine.readSites r.env key
    | .dbSize => s.engine.sites false (countOps (s.engine.dbsize r.env))
    | .flushDb => s.engine.sites true (s.engine.appendOps [.flushdb])
    | .expire key seconds => s.expireSites r key (checkedSecondsToMs seconds)
    | .pExpire key millis => s.expireSites r key (some millis)
    | .pExpireAt key absEpochMs => s.engine.expireAtSites r.env key absEpochMs
    | .persist key => s.engine.persistSites r.env key
    | .ttl key => s.ttlSites r key
    | .pTtl key => s.engine.readSites r.env key
    | .memoryUsage key => s.engine.memoryUsageSites r.env key
    | .info part => s.infoSites r part
    | _ => []

/-- Whether a command that took `r.elapsedUs` gets an entry in the slow log. -/
def logsSlow (armed : Bool) (cmd : Protocol.Command) : Bool :=
  !isSlowlogMeta cmd && armed && s.slowlogWouldLog r.elapsedUs

/-- One command with its panics: `none` is a command that panicked. The number of a slow log entry is
the last thing that can overflow, and its counter wraps. -/
def attempt (version : ProtocolVersion) (cmd : Protocol.Command) : Option Bytes × Server :=
  let announced := s.announce r cmd
  match (announced.dispatchSites origin r cmd).find? Site.panics with
  | some x =>
    (none, { announced with engine := x.engine, poisoned := s.poisoned || x.exclusive })
  | none =>
    let done := announced.dispatch r version cmd
    if done.2.logsSlow r s.slowlogArmed cmd = true
        ∧ ¬ (Op.addU64 done.2.slowlogSeq 1).Succeeds then
      (none, { done.2 with slowlogSeq := (done.2.slowlogSeq + 1) % 2 ^ 64 })
    else
      let reply := s.executeCommand r version cmd
      (some reply.1, reply.2)

end Server

end FerrumKv
