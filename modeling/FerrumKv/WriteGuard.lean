import FerrumKv.Engine

/-!
# The operations under the write lock

What a command does while it holds the keyspace write lock: lazy expiry, logging, admission and
the change itself. Every operation reads the guard's clocks from the command's `Env`; those that
create or touch an entry are told which access of the command this is.
-/

namespace FerrumKv.KvEngine

variable (env : Env)

def dropExpired (s : KvEngine) (key : Key) : KvEngine := (s.trackRemove key).logExpireDrop key

def fetchLive (i : ℕ) (s : KvEngine) (key : Key) : Option Bytes × KvEngine :=
  match s.store.lookup key with
  | some entry =>
    if entry.isExpired env.now then (none, (s.dropExpired key).recordMiss)
    else (some entry.data, (s.touchAccess (env.access i) key).recordHit)
  | none => (none, s.recordMiss)

def containsLive (s : KvEngine) (key : Key) : Bool × KvEngine :=
  match s.store.lookup key with
  | some entry =>
    if entry.isExpired env.now then (false, (s.dropExpired key).recordMiss)
    else (true, s.recordHit)
  | none => (false, s.recordMiss)

def validatePair (key value : Bytes) : Except FerrumError Unit :=
  match validateKey key with
  | .error e => .error e
  | .ok () => validateValue value

def insert (s : KvEngine) (key value : Bytes) : Except FerrumError (Option Bytes) × KvEngine :=
  match validatePair key value with
  | .error e => (.error e, s)
  | .ok () =>
    match s.enforceForWrite env key value.length with
    | (.error e, s) => (.error e, s)
    | (.ok (), s) =>
      let prev := s.store.lookup key
      let s := s.appendAof [.set key value]
      (.ok (prev.bind (livePayload env.payloadNow)),
        s.trackInsert key (ValueEntry.new (env.access 0) value))

def insertNx (s : KvEngine) (key value : Bytes) : Except FerrumError Bool × KvEngine :=
  match validatePair key value with
  | .error e => (.error e, s)
  | .ok () =>
    match s.store.lookup key with
    | some entry => if entry.isExpired env.now then insertAbsent (s.trackRemove key) else (.ok false, s)
    | none => insertAbsent s
where
  insertAbsent (s : KvEngine) : Except FerrumError Bool × KvEngine :=
    match s.enforceForWrite env key value.length with
    | (.error e, s) => (.error e, s)
    | (.ok (), s) =>
      let s := s.appendAof [.set key value]
      (.ok true, s.trackInsert key (ValueEntry.new (env.access 0) value))

def validatePairs : List (Key × Bytes) → Except FerrumError Unit
  | [] => .ok ()
  | (k, v) :: pairs =>
    match validatePair k v with
    | .error e => .error e
    | .ok () => validatePairs pairs

/-- Admits every pair in turn, before any of them is inserted. -/
def enforceMany : List (Key × Bytes) → KvEngine → Except FerrumError Unit × KvEngine
  | [], s => (.ok (), s)
  | (k, v) :: pairs, s =>
    match s.enforceForWrite env k v.length with
    | (.error e, s) => (.error e, s)
    | (.ok (), s) => enforceMany pairs s

def trackInsertMany : ℕ → List (Key × Bytes) → KvEngine → KvEngine
  | _, [], s => s
  | i, (k, v) :: pairs, s =>
    trackInsertMany (i + 1) pairs (s.trackInsert k (ValueEntry.new (env.access i) v))

def insertMany (s : KvEngine) (pairs : List (Key × Bytes)) : Except FerrumError Unit × KvEngine :=
  match validatePairs pairs with
  | .error e => (.error e, s)
  | .ok () =>
    match enforceMany env pairs s with
    | (.error e, s) => (.error e, s)
    | (.ok (), s) =>
      let s := s.appendAof (pairs.map fun p => .set p.1 p.2)
      (.ok (), trackInsertMany env 0 pairs s)

/-- The `PEXPIREAT` record that carries a kept deadline. -/
def keepTtlRecords (key : Key) (keepTtl : Option ℕ) : List AofRecord :=
  match keepTtl with
  | none => []
  | some deadline =>
    match deadlineToEpochMs deadline env.now env.epochMs with
    | some absMs => [.pexpireat key absMs]
    | none => []

/-- Inserts a value and keeps the given deadline. -/
def insertKeepTtl (s : KvEngine) (key value : Bytes) (keepTtl : Option ℕ) :
    Except FerrumError Unit × KvEngine :=
  match s.enforceForWrite env key value.length with
  | (.error e, s) => (.error e, s)
  | (.ok (), s) =>
    let s := s.appendAof (.set key value :: keepTtlRecords env key keepTtl)
    (.ok (), s.trackInsert key (ValueEntry.newWith (env.access 0) value keepTtl))

def readState (s : KvEngine) (key : Key) : Option (Bytes × Option ℕ) × KvEngine :=
  match s.store.lookup key with
  | some entry =>
    if entry.isExpired env.now then (none, s.dropExpired key)
    else (some (entry.data, entry.expireAt), s)
  | none => (none, s)

def existed (s : KvEngine) (key : Key) : Bool :=
  match s.store.lookup key with
  | some entry => !entry.isExpired env.now
  | none => false

def remove (s : KvEngine) (key : Key) : Bool × KvEngine :=
  let s' := s.trackRemove key
  if existed env s key then (true, s'.appendAof [.del key]) else (false, s')

/-- The removals of `remove_many`, with the keys that were live when they were removed. -/
def removeLoop : List Key → KvEngine → List Key × KvEngine
  | [], s => ([], s)
  | key :: keys, s =>
    let r := removeLoop keys (s.trackRemove key)
    if existed env s key then (key :: r.1, r.2) else r

def removeMany (s : KvEngine) (keys : List Key) : ℕ × KvEngine :=
  let r := removeLoop env keys s
  (r.1.length, r.2.appendAof (r.1.map .del))

def setDeadline (s : KvEngine) (key : Key) (d : Option ℕ) : KvEngine :=
  match s.store.lookup key with
  | some entry => { s with store := s.store.insert key { entry with expireAt := d } }
  | none => s

def expireAt (s : KvEngine) (key : Key) (absEpochMs : Int64) : Bool × KvEngine :=
  let s :=
    match s.store.lookup key with
    | some entry => if entry.isExpired env.now then s.dropExpired key else s
    | none => s
  if s.store.lookup key = none then (false, s)
  else if absEpochMs.toInt ≤ env.nowMs.toInt then
    (true, (s.trackRemove key).appendAof [.del key])
  else
    let deadline := env.now + (absEpochMs.toInt - env.nowMs.toInt).toNat
    let s := s.setDeadline key (some deadline)
    let s := (s.sieveNotifyInsert key true).acNotifyInsert key true
    (true, s.appendAof [.pexpireat key absEpochMs])

def persist (s : KvEngine) (key : Key) : Bool × KvEngine :=
  match s.store.lookup key with
  | none => (false, s)
  | some entry =>
    if entry.isExpired env.now then (false, s.dropExpired key)
    else if entry.expireAt = none then (false, s)
    else
      let s := s.setDeadline key none
      let s := (s.sieveNotifyRemove key).acNotifyRemove key
      (true, s.appendAof [.persist key])

def clear (s : KvEngine) : KvEngine := s.trackClear.appendAof [.flushdb]

def ttlOf (s : KvEngine) (key : Key) : TtlStatus × KvEngine :=
  match s.store.lookup key with
  | none => (.missing, s)
  | some entry =>
    if entry.isExpired env.now then (.missing, s.dropExpired key)
    else (ttlStatus env.now entry, s)

def strlenOf (s : KvEngine) (key : Key) : ℕ × KvEngine :=
  match s.store.lookup key with
  | some entry =>
    if entry.isExpired env.now then (0, s.dropExpired key) else (entry.data.length, s)
  | none => (0, s)

/-- The expired branch takes the entry out of the map itself and tells only the counter. -/
def memoryOf (s : KvEngine) (key : Key) : Option ℕ × KvEngine :=
  match s.store.lookup key with
  | some entry =>
    if entry.isExpired env.now then
      (none, (({ s with store := s.store.erase key }).untrack key entry).logExpireDrop key)
    else (some (entryBytes key entry), s)
  | none => (none, s)

end FerrumKv.KvEngine
