import FerrumKv.Glob
import FerrumKv.WriteGuard

/-!
# The engine's commands

The public methods of the engine, each with the shared-lock path of its source and the exclusive
path behind it, and the runs they make up.
-/

namespace FerrumKv

def scanKeysLimit : ℕ := 10000

namespace KvEngine

variable (env : Env)

def set (s : KvEngine) (key value : Bytes) : Except FerrumError (Option Bytes) × KvEngine :=
  s.insert env key value

def setNx (s : KvEngine) (key value : Bytes) : Except FerrumError Bool × KvEngine :=
  s.insertNx env key value

def mset (s : KvEngine) (pairs : List (Key × Bytes)) : Except FerrumError Unit × KvEngine :=
  s.insertMany env pairs

/-- The pass of `mget` under the shared lock: the answers, and the positions found expired. -/
def mgetShared : ℕ → List Key → KvEngine → (List (Option Bytes) × List (ℕ × Key)) × KvEngine
  | _, [], s => (([], []), s)
  | i, key :: keys, s =>
    match s.store.lookup key with
    | some entry =>
      if entry.isExpired env.shared then
        let r := mgetShared (i + 1) keys s
        ((none :: r.1.1, (i, key) :: r.1.2), r.2)
      else
        let r := mgetShared (i + 1) keys ((s.touchAccess (env.access i) key).recordHit)
        ((some entry.data :: r.1.1, r.1.2), r.2)
    | none =>
      let r := mgetShared (i + 1) keys s.recordMiss
      ((none :: r.1.1, r.1.2), r.2)

def mget (s : KvEngine) (keys : List Key) : List (Option Bytes) × KvEngine :=
  let r := mgetShared env 0 keys s
  (r.1.1, r.1.2.foldl (fun s p => (s.fetchLive env p.1 p.2).2) r.2)

def notAnInteger : FerrumError := .parseError "value is not an integer or out of range"

def notAFloat : FerrumError := .parseError "value is not a valid float"

def notFinite : FerrumError := .parseError "increment would produce NaN or Infinity"

def incrBy (s : KvEngine) (key : Key) (delta : Int64) : Except FerrumError Int64 × KvEngine :=
  match validateKey key with
  | .error e => (.error e, s)
  | .ok () =>
    match s.readState env key with
    | (some (data, ttl), s) =>
      match parseI64 data with
      | none => (.error notAnInteger, s)
      | some n => store s n ttl
    | (none, s) => store s 0 none
where
  store (s : KvEngine) (current : Int64) (ttl : Option ℕ) :
      Except FerrumError Int64 × KvEngine :=
    match checkedAdd current delta with
    | none => (.error notAnInteger, s)
    | some newValue =>
      match s.insertKeepTtl env key (i64ToString newValue) ttl with
      | (.error e, s) => (.error e, s)
      | (.ok (), s) => (.ok newValue, s)

def incrByFloat (s : KvEngine) (key : Key) (delta : UInt64) : Except FerrumError UInt64 × KvEngine :=
  match validateKey key with
  | .error e => (.error e, s)
  | .ok () =>
    match s.readState env key with
    | (some (data, ttl), s) =>
      match env.float.parse data with
      | none => (.error notAFloat, s)
      | some n => store s n ttl
    | (none, s) => store s 0 none
where
  store (s : KvEngine) (current : UInt64) (ttl : Option ℕ) :
      Except FerrumError UInt64 × KvEngine :=
    let newValue := env.float.add current delta
    if env.float.isFinite newValue = false then (.error notFinite, s)
    else
      match s.insertKeepTtl env key (env.float.render newValue) ttl with
      | (.error e, s) => (.error e, s)
      | (.ok (), s) => (.ok newValue, s)

def get (s : KvEngine) (key : Key) : Option Bytes × KvEngine :=
  match s.store.lookup key with
  | some entry =>
    if entry.isExpired env.shared then s.fetchLive env 0 key
    else (some entry.data, (s.touchAccess (env.access 0) key).recordHit)
  | none => (none, s.recordMiss)

def del (s : KvEngine) (key : Key) : Bool × KvEngine := s.remove env key

def delMany (s : KvEngine) (keys : List Key) : ℕ × KvEngine :=
  if keys = [] then (0, s) else s.removeMany env keys

def existsKey (s : KvEngine) (key : Key) : Bool × KvEngine :=
  match s.store.lookup key with
  | some entry =>
    if entry.isExpired env.shared then s.containsLive env key else (true, s.recordHit)
  | none => (false, s.recordMiss)

/-- The pass of `exists_many` under the shared lock: the count, and the keys found expired. -/
def existsShared : List Key → KvEngine → (ℕ × List Key) × KvEngine
  | [], s => ((0, []), s)
  | key :: keys, s =>
    match s.store.lookup key with
    | some entry =>
      if entry.isExpired env.shared then
        let r := existsShared keys s
        ((r.1.1, key :: r.1.2), r.2)
      else
        let r := existsShared keys s.recordHit
        ((r.1.1 + 1, r.1.2), r.2)
    | none => existsShared keys s.recordMiss

/-- The pass over the expired keys under the write lock, counting those found live. -/
def existsExclusive : List Key → KvEngine → ℕ × KvEngine
  | [], s => (0, s)
  | key :: keys, s =>
    let c := s.containsLive env key
    let r := existsExclusive keys c.2
    (if c.1 then r.1 + 1 else r.1, r.2)

def existsMany (s : KvEngine) (keys : List Key) : ℕ × KvEngine :=
  if keys = [] then (0, s)
  else
    let r := existsShared env keys s
    let r' := existsExclusive env r.1.2 r.2
    (r.1.1 + r'.1, r'.2)

def dbsize (s : KvEngine) : ℕ :=
  ((env.iter s.store).filter fun e => !e.2.isExpired env.shared).length

def scanKeys (s : KvEngine) (pattern : Bytes) : List Key :=
  (((env.iter s.store).filter fun e =>
    !e.2.isExpired env.shared && globMatch pattern e.1).map (·.1)).take scanKeysLimit

/-- The loop of `expire_stats` over the values: the number of live keys with a deadline, and the
saturating sum of their remaining lifetimes. -/
def expireSums (now : ℕ) (entries : List (Σ _ : Key, ValueEntry)) : ℕ × ℕ :=
  entries.foldl (fun acc e =>
    if e.2.isExpired now then acc
    else
      match e.2.expireAt with
      | some deadline => (acc.1 + 1, min (acc.2 + (deadline - now)) (2 ^ 64 - 1))
      | none => acc) (0, 0)

def expireStats (s : KvEngine) : ℕ × ℕ :=
  let r := expireSums env.shared (env.iter s.store)
  (r.1, if r.1 = 0 then 0 else r.2 / r.1)

def append (s : KvEngine) (key suffix : Bytes) : Except FerrumError ℕ × KvEngine :=
  match validateKey key with
  | .error e => (.error e, s)
  | .ok () =>
    match s.readState env key with
    | (some (data, ttl), s) => store s (data ++ suffix) ttl
    | (none, s) => store s suffix none
where
  store (s : KvEngine) (newValue : Bytes) (ttl : Option ℕ) :
      Except FerrumError ℕ × KvEngine :=
    match validateValue newValue with
    | .error e => (.error e, s)
    | .ok () =>
      match s.insertKeepTtl env key newValue ttl with
      | (.error e, s) => (.error e, s)
      | (.ok (), s) => (.ok newValue.length, s)

def strlen (s : KvEngine) (key : Key) : ℕ × KvEngine :=
  match s.store.lookup key with
  | some entry =>
    if entry.isExpired env.shared then s.strlenOf env key else (entry.data.length, s)
  | none => (0, s)

def flushdb (s : KvEngine) : KvEngine := s.clear

def expireAtMs (s : KvEngine) (key : Key) (absEpochMs : Int64) : Bool × KvEngine :=
  s.expireAt env key absEpochMs

def ttlMs (s : KvEngine) (key : Key) : TtlStatus × KvEngine :=
  match s.store.lookup key with
  | some entry =>
    if entry.isExpired env.shared then s.ttlOf env key else (ttlStatus env.shared entry, s)
  | none => (.missing, s)

def memoryUsage (s : KvEngine) (key : Key) : Option ℕ × KvEngine :=
  match s.store.lookup key with
  | some entry =>
    if entry.isExpired env.shared then s.memoryOf env key else (some (entryBytes key entry), s)
  | none => (none, s)

/-- Removes an entry the sweeper found expired. -/
def sweepVictim (s : KvEngine) (key : Key) : KvEngine :=
  let s := s.trackRemove key
  let s := { s with expiredKeys := s.expiredKeys + 1 }
  s.appendAof [.del key]

/-- The entries a sweep examines, from the cursor on and around. -/
def sweepWindow (s : KvEngine) (sample : ℕ) : List (Σ _ : Key, ValueEntry) :=
  let entries := env.iter s.store
  let start := if entries.length = 0 then 0 else s.sweepCursor % entries.length
  (entries.drop start ++ entries.take start).take sample

def sweepExpired (s : KvEngine) (sample : ℕ) : SweepStats × KvEngine :=
  if sample = 0 then (⟨0, 0⟩, s)
  else
    let len := (env.iter s.store).length
    let start := if len = 0 then 0 else s.sweepCursor % len
    let window := s.sweepWindow env sample
    let victims := (window.filter fun e => e.2.isExpired env.now).map (·.1)
    let s :=
      if 0 < len then { s with sweepCursor := (start + window.length) % len } else s
    (⟨window.length, victims.length⟩, victims.foldl sweepVictim s)

end KvEngine

inductive Command
  | set (key value : Bytes)
  | setNx (key value : Bytes)
  | mset (pairs : List (Key × Bytes))
  | get (key : Key)
  | mget (keys : List Key)
  | incrBy (key : Key) (delta : Int64)
  | incrByFloat (key : Key) (delta : UInt64)
  | append (key suffix : Bytes)
  | del (key : Key)
  | delMany (keys : List Key)
  | existsKey (key : Key)
  | existsMany (keys : List Key)
  | dbsize
  | scanKeys (pattern : Bytes)
  | expireStats
  | strlen (key : Key)
  | flushdb
  | expireAtMs (key : Key) (absEpochMs : Int64)
  | persist (key : Key)
  | ttlMs (key : Key)
  | memoryUsage (key : Key)
  | sweepExpired (sample : ℕ)
  | setEvictionConfig (cfg : EvictionConfig)

inductive Reply
  | done
  | flag (b : Bool)
  | count (n : ℕ)
  | integer (n : Int64)
  | float (bits : UInt64)
  | value (v : Option Bytes)
  | values (vs : List (Option Bytes))
  | keys (ks : List Key)
  | stats (expires avgTtlMs : ℕ)
  | ttl (t : TtlStatus)
  | usage (n : Option ℕ)
  | swept (stats : SweepStats)
  deriving DecidableEq, Repr

def answer {α : Type} (f : α → Reply) (r : Except FerrumError α × KvEngine) :
    Except FerrumError Reply × KvEngine := (r.1.map f, r.2)

def reply {α : Type} (f : α → Reply) (r : α × KvEngine) : Except FerrumError Reply × KvEngine :=
  (.ok (f r.1), r.2)

def exec (env : Env) (s : KvEngine) : Command → Except FerrumError Reply × KvEngine
  | .set key value => answer .value (s.set env key value)
  | .setNx key value => answer .flag (s.setNx env key value)
  | .mset pairs => answer (fun _ => .done) (s.mset env pairs)
  | .get key => reply .value (s.get env key)
  | .mget keys => reply .values (s.mget env keys)
  | .incrBy key delta => answer .integer (s.incrBy env key delta)
  | .incrByFloat key delta => answer .float (s.incrByFloat env key delta)
  | .append key suffix => answer .count (s.append env key suffix)
  | .del key => reply .flag (s.del env key)
  | .delMany keys => reply .count (s.delMany env keys)
  | .existsKey key => reply .flag (s.existsKey env key)
  | .existsMany keys => reply .count (s.existsMany env keys)
  | .dbsize => (.ok (.count (s.dbsize env)), s)
  | .scanKeys pattern => (.ok (.keys (s.scanKeys env pattern)), s)
  | .expireStats => (.ok (.stats (s.expireStats env).1 (s.expireStats env).2), s)
  | .strlen key => reply .count (s.strlen env key)
  | .flushdb => (.ok .done, s.flushdb)
  | .expireAtMs key absEpochMs => reply .flag (s.expireAtMs env key absEpochMs)
  | .persist key => reply .flag (s.persist env key)
  | .ttlMs key => reply .ttl (s.ttlMs env key)
  | .memoryUsage key => reply .usage (s.memoryUsage env key)
  | .sweepExpired sample => reply .swept (s.sweepExpired env sample)
  | .setEvictionConfig cfg => (.ok .done, s.setEvictionConfig env cfg)

/-- A command with what it reads from outside. -/
structure Call where
  env : Env
  cmd : Command

def Call.step (s : KvEngine) (c : Call) : KvEngine := (exec c.env s c.cmd).2

def run (s : KvEngine) (calls : List Call) : KvEngine := calls.foldl Call.step s

end FerrumKv
