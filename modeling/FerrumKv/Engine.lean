import FerrumKv.Indexes

/-!
# The engine's state and its bookkeeping

The store with its memory counter, the two eviction indexes and the append-only log, and the
functions every command is built from: tracked inserts and removals, the notifications of the
indexes, and the eviction loop. What a command reads from outside (clocks, the iteration order of
the map, random draws, floating point) is an `Env`.
-/

namespace FerrumKv

/-! ## The log -/

def ascii (s : List Char) : Bytes := s.map fun c => UInt8.ofNat c.toNat

inductive AofRecord
  | set (key value : Bytes)
  | del (key : Key)
  | flushdb
  | pexpireat (key : Key) (absEpochMs : Int64)
  | persist (key : Key)
  deriving DecidableEq, Repr

/-- The argument vector the writer's `append_*` methods build. -/
def AofRecord.parts : AofRecord → List Bytes
  | .set key value => [ascii ['S', 'E', 'T'], key, value]
  | .del key => [ascii ['D', 'E', 'L'], key]
  | .flushdb => [ascii ['F', 'L', 'U', 'S', 'H', 'D', 'B']]
  | .pexpireat key absEpochMs =>
    [ascii ['P', 'E', 'X', 'P', 'I', 'R', 'E', 'A', 'T'], key, i64ToString absEpochMs]
  | .persist key => [ascii ['P', 'E', 'R', 'S', 'I', 'S', 'T'], key]

def crlf : Bytes := [13, 10]

def encodeBulk (part : Bytes) : Bytes := 36 :: Decimal.ofNat part.length ++ crlf ++ part ++ crlf

/-- An array of bulk strings. -/
def encodeCommand (parts : List Bytes) : Bytes :=
  42 :: Decimal.ofNat parts.length ++ crlf ++ parts.flatMap encodeBulk

/-- The bytes of a list of records, as the writer appends them. -/
def encodeLog (log : List AofRecord) : Bytes := log.flatMap fun r => encodeCommand r.parts

/-- `f64` arithmetic on bit patterns. A rendered number is short enough to be a value. -/
structure FloatOps where
  parse : Bytes → Option UInt64
  add : UInt64 → UInt64 → UInt64
  isFinite : UInt64 → Bool
  render : UInt64 → Bytes
  render_length : ∀ x, (render x).length ≤ valueMaxBytes

/-- The readings of one command: the clock under the shared lock, the two clocks of the write
guard, the clocks read later by `live_payload`, `deadline_to_epoch_ms` and `evict_sieve`, and what
each access reads. The map is walked in the order `iter`, which is some order of its entries.
Within one command the eviction loop never sees the same store twice, so readings it makes again
and again are given as functions of the store. -/
structure Env where
  shared : ℕ
  now : ℕ
  nowMs : Int64
  payloadNow : ℕ
  epochMs : Int64
  evictNow : Store → ℕ
  access : ℕ → AccessReading
  iter : Store → List (Σ _ : Key, ValueEntry)
  iter_perm : ∀ store, (iter store).Perm store.entries
  epsScore : Store → Candidate → ℤ
  float : FloatOps

/-- All clocks of the command read `t`. -/
structure Env.At (env : Env) (t : ℕ) : Prop where
  shared : env.shared = t
  now : env.now = t
  nowMs : env.nowMs.toInt = t
  payloadNow : env.payloadNow = t
  epochMs : env.epochMs.toInt = t

/-- Clocks that all read `t`, a map walked in its own order, and numbers never parsed. -/
def Env.steady (t : ℕ) : Env where
  shared := t
  now := t
  nowMs := Int64.ofInt t
  payloadNow := t
  epochMs := Int64.ofInt t
  evictNow _ := t
  access _ := ⟨t * 1000000, 0, false⟩
  iter store := store.entries
  iter_perm _ := .refl _
  epsScore _ _ := 0
  float := ⟨fun _ => none, fun a _ => a, fun _ => true, fun _ => [], fun _ => Nat.zero_le _⟩

theorem Env.steady_at {t : ℕ} (h : t < 2 ^ 63) : (Env.steady t).At t :=
  have ht : (Int64.ofInt t).toInt = t := Int64.toInt_ofInt_of_le (by omega) (by omega)
  ⟨rfl, rfl, ht, rfl, ht⟩

/-! ## The state -/

/-- The engine. `counterFault` records that an update of the memory counter wrapped or saturated,
and `heapPeak` the most bytes the store's entries ever occupied; no function reads either. -/
structure KvEngine where
  store : Store
  aof : Option (List AofRecord)
  usedMemory : ℕ
  eviction : EvictionConfig
  hits : ℕ
  misses : ℕ
  sieve : SieveState
  ac : AdaptiveClimbState
  evictedKeys : ℕ
  expiredKeys : ℕ
  indexKind : IndexKind
  sweepCursor : ℕ
  counterFault : Bool
  heapPeak : ℕ

/-- What `entry_bytes` charges for all stored entries. -/
def footprint (store : Store) : ℕ := store.weight entryBytes

/-- The size of a map slot, `size_of::<(Vec<u8>, ValueEntry)>()`. -/
def slotBytes : ℕ := 80

/-- The bytes the entries of the store occupy: their slots and the two heap blocks of each. -/
def heapBytes (store : Store) : ℕ := store.weight fun k e => k.length + e.data.length + slotBytes

namespace KvEngine

def new : KvEngine where
  store := ∅
  aof := none
  usedMemory := 0
  eviction := {}
  hits := 0
  misses := 0
  sieve := SieveState.new
  ac := AdaptiveClimbState.new
  evictedKeys := 0
  expiredKeys := 0
  indexKind := .none
  sweepCursor := 0
  counterFault := false
  heapPeak := 0

def startWith (aof : Option (List AofRecord)) : KvEngine := { new with aof := aof }

def withAof (s : KvEngine) : KvEngine := { s with aof := some [] }

def log (s : KvEngine) : List AofRecord := s.aof.getD []

def appendAof (s : KvEngine) (rs : List AofRecord) : KvEngine :=
  { s with aof := s.aof.map (· ++ rs) }

def recordHit (s : KvEngine) : KvEngine := { s with hits := s.hits + 1 }

def recordMiss (s : KvEngine) : KvEngine := { s with misses := s.misses + 1 }

/-! ## Notifications of the indexes -/

def sieveNotifyInsert (s : KvEngine) (key : Key) (hasTtl : Bool) : KvEngine :=
  { s with sieve := if s.indexKind.isSieve then s.sieve.observeInsert key hasTtl else s.sieve }

def sieveNotifyAccess (s : KvEngine) (key : Key) : KvEngine :=
  { s with sieve := if s.indexKind.isSieve then s.sieve.observeAccess key else s.sieve }

def sieveNotifyRemove (s : KvEngine) (key : Key) : KvEngine :=
  { s with sieve := if s.indexKind.isSieve then s.sieve.observeRemove key else s.sieve }

def acNotifyInsert (s : KvEngine) (key : Key) (hasTtl : Bool) : KvEngine :=
  { s with ac := if s.indexKind.isAc then s.ac.observeInsert key hasTtl else s.ac }

def acNotifyAccess (s : KvEngine) (key : Key) : KvEngine :=
  { s with ac := if s.indexKind.isAc then s.ac.observeAccess key else s.ac }

def acNotifyRemove (s : KvEngine) (key : Key) : KvEngine :=
  { s with ac := if s.indexKind.isAc then s.ac.observeRemove key else s.ac }

/-! ## Tracked changes of the store -/

/-- The counter after a change by `delta`: `fetch_add` wraps at `2^64`, the subtraction
saturates. -/
def counterAfter (used : ℕ) (delta : ℤ) : ℕ :=
  if delta = 0 then used
  else if 0 < delta then (used + delta.toNat) % 2 ^ 64
  else used - (-delta).toNat

/-- Whether a change by `delta` wraps or saturates the counter. -/
def counterFaults (used : ℕ) (delta : ℤ) : Bool :=
  decide (0 < delta ∧ 2 ^ 64 ≤ used + delta.toNat ∨ delta < 0 ∧ used < (-delta).toNat)

def applyDelta (s : KvEngine) (delta : ℤ) : KvEngine :=
  { s with
    usedMemory := counterAfter s.usedMemory delta
    counterFault := s.counterFault || counterFaults s.usedMemory delta }

/-- Inserts an entry; the previous one is what the caller's store holds at `key`. -/
def trackInsert (s : KvEngine) (key : Key) (entry : ValueEntry) : KvEngine :=
  let outgoing := s.store.weightAt entryBytes key
  let store := s.store.insert key entry
  let s := { s with store := store, heapPeak := max s.heapPeak (heapBytes store) }
  let s := s.applyDelta (entryBytes key entry - outgoing)
  (s.sieveNotifyInsert key entry.expireAt.isSome).acNotifyInsert key entry.expireAt.isSome

def untrack (s : KvEngine) (key : Key) (entry : ValueEntry) : KvEngine :=
  s.applyDelta (-(entryBytes key entry : ℤ))

/-- Removes a key; the removed entry is what the caller's store holds at `key`. A delta of `0`
leaves the counter alone, so an absent key does too. -/
def trackRemove (s : KvEngine) (key : Key) : KvEngine :=
  let outgoing := s.store.weightAt entryBytes key
  let s := { s with store := s.store.erase key }
  let s := s.applyDelta (-(outgoing : ℤ))
  (s.sieveNotifyRemove key).acNotifyRemove key

def trackClear (s : KvEngine) : KvEngine :=
  { s with store := ∅, sieve := s.sieve.clear, ac := s.ac.clear, usedMemory := 0 }

/-- Updates the access metadata of a stored key and notifies the indexes. -/
def touchAccess (s : KvEngine) (r : AccessReading) (key : Key) : KvEngine :=
  match s.store.lookup key with
  | some entry =>
    let s := { s with store := s.store.insert key (entry.touch r) }
    (s.sieveNotifyAccess key).acNotifyAccess key
  | none => s

def logExpireDrop (s : KvEngine) (key : Key) : KvEngine := s.appendAof [.del key]

/-! ## Eviction -/

def evictSieve (env : Env) (s : KvEngine) : Option Key × KvEngine :=
  let policy := s.eviction.policy
  let demote : ValueEntry → Bool := fun e =>
    policy.indexKind.isSieveTtl && isNearExpiry (env.evictNow s.store) e
  let r := s.sieve.evictOne s.store policy.scope demote
  (r.1, { s with sieve := r.2 })

def evictAc (s : KvEngine) : Option Key × KvEngine :=
  let r := s.ac.evictOne s.store s.eviction.policy.scope
  (r.1, { s with ac := r.2 })

/-- The victim of one round of the eviction loop; the indexed policies change their index. -/
def selectVictim (env : Env) (s : KvEngine) : Option Key × KvEngine :=
  let cfg := s.eviction
  match cfg.policy with
  | .allKeysAhe | .volatileAhe =>
    ((pickVictimAhe (env.epsScore s.store)
      (sampleCandidates cfg.policy.scope cfg.samples (env.iter s.store))).map (·.key), s)
  | .allKeysSieve | .volatileSieve | .allKeysSieveS | .volatileSieveS => s.evictSieve env
  | .allKeysAdaptiveClimb | .volatileAdaptiveClimb => s.evictAc
  | policy =>
    ((pickVictim policy
      (sampleCandidates policy.scope cfg.samples (env.iter s.store))).map (·.key), s)

/-- Whether `incoming` more bytes stay within the ceiling; `u64` addition saturates. -/
def fits (s : KvEngine) (incoming : ℕ) : Bool :=
  decide (min (s.usedMemory + incoming) (2 ^ 64 - 1) ≤ s.eviction.maxMemory)

def evictVictim (s : KvEngine) (victim : Key) : KvEngine :=
  let s := s.trackRemove victim
  let s := { s with evictedKeys := s.evictedKeys + 1 }
  s.appendAof [.del victim]

/-- The bounded loop; `none` is a loop left by `break` or by its bound. -/
def evictLoop (env : Env) (incoming : ℕ) : ℕ → KvEngine → Option FerrumError × KvEngine
  | 0, s => (none, s)
  | rounds + 1, s =>
    if s.fits incoming then (none, s)
    else if s.eviction.policy = .noEviction then (some .outOfMemory, s)
    else
      match s.selectVictim env with
      | (none, s) => (some .outOfMemory, s)
      | (some victim, s) => evictLoop env incoming rounds (s.evictVictim victim)

def enforceMemoryLimit (env : Env) (s : KvEngine) (incoming : ℕ) :
    Except FerrumError Unit × KvEngine :=
  if s.eviction.maxMemory = 0 then (.ok (), s)
  else
    match evictLoop env incoming (max s.store.entries.length 1 + 16) s with
    | (some e, s) => (.error e, s)
    | (none, s) => if s.fits incoming then (.ok (), s) else (.error .outOfMemory, s)

def enforceForWrite (env : Env) (s : KvEngine) (key : Key) (valueLen : ℕ) :
    Except FerrumError Unit × KvEngine :=
  let incoming := key.length + valueLen + perEntryOverhead
  let net := incoming - s.store.weightAt entryBytes key
  s.enforceMemoryLimit env net

def setEvictionConfig (env : Env) (s : KvEngine) (cfg : EvictionConfig) : KvEngine :=
  let newKind := cfg.policy.indexKind
  let s :=
    if newKind ≠ s.indexKind then
      let s :=
        if newKind.isSieve then
          { s with
            sieve := SieveState.rebuild (env.iter s.store) cfg.policy.scope, ac := s.ac.clear }
        else if newKind.isAc then
          { s with
            ac := AdaptiveClimbState.rebuild (env.iter s.store) cfg.policy.scope
            sieve := s.sieve.clear }
        else { s with sieve := s.sieve.clear, ac := s.ac.clear }
      { s with indexKind := newKind }
    else s
  { s with eviction := cfg }

end KvEngine

end FerrumKv
