import FerrumKv.Commands

/-!
# The effects of a command on the keyspace

A command is a short sequence of effects on the store (`Trace`): an entry is used, given another
deadline, removed, dropped because it has expired, swept or evicted. From the state a command
starts in, `uses` lists the keys it uses and `expirations` the expired entries it removes.
-/

namespace FerrumKv

open KvEngine

/-- The keys a command names. -/
def Command.keys : Command → List Key
  | .set key _ | .setNx key _ | .get key | .incrBy key _ | .incrByFloat key _ | .append key _
  | .del key | .existsKey key | .strlen key | .expireAtMs key _ | .persist key | .ttlMs key
  | .memoryUsage key => [key]
  | .mset pairs => pairs.map (·.1)
  | .mget keys | .delMany keys | .existsMany keys => keys
  | .dbsize | .scanKeys _ | .expireStats | .flushdb | .sweepExpired _ | .setEvictionConfig _ => []

/-- `s` holds some of the entries of `s₀`, unchanged, under the same configuration. -/
structure PartOf (s₀ s : KvEngine) : Prop where
  lookup : ∀ k e, s.store.lookup k = some e → s₀.store.lookup k = some e
  eviction : s.eviction = s₀.eviction

/-- One effect of a command. `use` stamps an entry with the command's access reading `i`, by
touching the entry or by writing a fresh one; `remove` takes away an entry that has not expired, and
`lapse` one that has; `evict` comes before the command has written anything; `note` leaves the store
alone. -/
inductive Effect
  | note
  | use (i : ℕ) (key : Key)
  | retime (key : Key)
  | remove (key : Key)
  | lapse (key : Key)
  | sweep (key : Key)
  | evict (key : Key)
  | flush
  | configure (cfg : EvictionConfig)
  deriving DecidableEq, Repr

namespace Effect

def used : Effect → Option (ℕ × Key)
  | use i key => some (i, key)
  | _ => none

def expired : Effect → Option Key
  | lapse key => some key
  | sweep key => some key
  | _ => none

def victim : Effect → Option Key
  | evict key => some key
  | _ => none

def isSweep : Effect → Bool
  | sweep _ => true
  | _ => false

def isEvict : Effect → Bool
  | evict _ => true
  | _ => false

def config (old : EvictionConfig) : Effect → EvictionConfig
  | configure cfg => cfg
  | _ => old

/-- The store that an effect in the state `s` leaves, of the command `cmd` that began in `s₀`. -/
inductive Edits (env : Env) (cmd : Command) (s₀ s : KvEngine) : Effect → Store → Prop
  | note : Edits env cmd s₀ s note s.store
  | use (i : ℕ) (key : Key) (e : ValueEntry) (hk : key ∈ cmd.keys)
    (he : e.lastAccessNs = (env.access i).ns) :
    Edits env cmd s₀ s (use i key) (s.store.insert key e)
  | retime (key : Key) (e : ValueEntry) (d : Option ℕ) (hk : key ∈ cmd.keys)
    (he : s.store.lookup key = some e) :
    Edits env cmd s₀ s (retime key) (s.store.insert key { e with expireAt := d })
  | remove (key : Key) (hk : key ∈ cmd.keys)
    (hx : ∀ e, s.store.lookup key = some e → e.isExpired env.now = false) :
    Edits env cmd s₀ s (remove key) (s.store.erase key)
  | lapse (key : Key) (e : ValueEntry) (hk : key ∈ cmd.keys) (he : s.store.lookup key = some e)
    (hx : e.isExpired env.now = true) : Edits env cmd s₀ s (lapse key) (s.store.erase key)
  | sweep (key : Key) (e : ValueEntry) (hc : ∃ sample, cmd = .sweepExpired sample)
    (he : s.store.lookup key = some e) (hx : e.isExpired env.now = true) :
    Edits env cmd s₀ s (sweep key) (s.store.erase key)
  | evict (key : Key) (hmax : s.eviction.maxMemory ≠ 0) (hpart : PartOf s₀ s)
    (hv : (s.selectVictim env).1 = some key) : Edits env cmd s₀ s (evict key) (s.store.erase key)
  | flush (hc : cmd = .flushdb) : Edits env cmd s₀ s flush ∅
  | configure (cfg : EvictionConfig) (hc : cmd = .setEvictionConfig cfg) :
    Edits env cmd s₀ s (configure cfg) s.store

/-- An effect takes the engine from `s` to `s'`. -/
structure Does (env : Env) (cmd : Command) (s₀ : KvEngine) (eff : Effect) (s s' : KvEngine) :
    Prop where
  store : eff.Edits env cmd s₀ s s'.store
  eviction : s'.eviction = eff.config s.eviction
  expiredKeys : s'.expiredKeys = s.expiredKeys + eff.isSweep.toNat
  evictedKeys : s'.evictedKeys = s.evictedKeys + eff.isEvict.toNat

end Effect

/-- A sequence of effects of the command `cmd` that began in `s₀`. -/
inductive Trace (env : Env) (cmd : Command) (s₀ : KvEngine) :
    KvEngine → List Effect → KvEngine → Prop
  | nil (s : KvEngine) : Trace env cmd s₀ s [] s
  | cons {s t s' : KvEngine} {eff : Effect} {effs : List Effect} (h : eff.Does env cmd s₀ s t)
    (ht : Trace env cmd s₀ t effs s') : Trace env cmd s₀ s (eff :: effs) s'

def liveAt (t : ℕ) (s : KvEngine) (key : Key) : Bool :=
  (s.store.lookup key).any fun e => !e.isExpired t

def expiredAt (t : ℕ) (s : KvEngine) (key : Key) : Bool :=
  (s.store.lookup key).any (·.isExpired t)

def onOk {α β : Type} (r : Except FerrumError α) (l : List β) : List β :=
  match r with
  | .ok _ => l
  | .error _ => []

/-- The positions and keys of `keys`, from position `i` on, that satisfy `p`. -/
def positions (p : Key → Bool) : ℕ → List Key → List (ℕ × Key)
  | _, [] => []
  | i, key :: keys =>
    if p key then (i, key) :: positions p (i + 1) keys else positions p (i + 1) keys

/-- The keys a command uses, each with its access reading: a successful write, and every key found
by `GET` or `MGET`. An entry that `MGET` finds expired and then live again under the write lock,
which a clock that does not go back never shows, is used after the others. -/
def uses (env : Env) (s : KvEngine) : Command → List (ℕ × Key)
  | .set key value => onOk (s.set env key value).1 [(0, key)]
  | .setNx key value => if (s.setNx env key value).1.toOption = some true then [(0, key)] else []
  | .mset pairs => onOk (s.mset env pairs).1 (positions (fun _ => true) 0 (pairs.map (·.1)))
  | .incrBy key delta => onOk (s.incrBy env key delta).1 [(0, key)]
  | .incrByFloat key delta => onOk (s.incrByFloat env key delta).1 [(0, key)]
  | .append key suffix => onOk (s.append env key suffix).1 [(0, key)]
  | .get key => if (s.get env key).1.isSome then [(0, key)] else []
  | .mget keys =>
    positions (liveAt env.shared s) 0 keys
      ++ positions (fun k => expiredAt env.shared s k && liveAt env.now s k) 0 keys
  | _ => []

/-- The keys of a list that satisfy `p`, each at its first place only. -/
def firsts (p : Key → Bool) : List Key → List Key
  | [] => []
  | key :: keys =>
    if p key then key :: firsts (fun k => p k && k ≠ key) keys else firsts p keys

/-- The keys whose expired entries a command removes. The commands that look under the shared lock
first go on only where the entry has expired there too. -/
def expirations (env : Env) (s : KvEngine) : Command → List Key
  | .setNx key value =>
    if (validatePair key value).toBool && expiredAt env.now s key then [key] else []
  | .incrBy key _ | .incrByFloat key _ | .append key _ =>
    if (validateKey key).toBool && expiredAt env.now s key then [key] else []
  | .del key | .expireAtMs key _ | .persist key => if expiredAt env.now s key then [key] else []
  | .get key | .existsKey key | .strlen key | .ttlMs key | .memoryUsage key =>
    if expiredAt env.shared s key && expiredAt env.now s key then [key] else []
  | .mget keys | .existsMany keys =>
    firsts (fun k => expiredAt env.shared s k && expiredAt env.now s k) keys
  | .delMany keys => firsts (expiredAt env.now s) keys
  | .sweepExpired sample =>
    ((s.sweepWindow env sample).filter fun e => e.2.isExpired env.now).map (·.1)
  | .set _ _ | .mset _ | .dbsize | .scanKeys _ | .expireStats | .flushdb
  | .setEvictionConfig _ => []

end FerrumKv
