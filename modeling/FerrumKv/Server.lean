import FerrumKv.Config
import FerrumKv.Encoder

/-!
# The server's commands

What the connections share, and `execute_command`: one command with its reply, its entry in the slow
log and its message to the monitors. A lock that was poisoned by a panic is a flag; the panics
themselves are another module's.
-/

namespace FerrumKv

structure SlowLogEntry where
  id : ℕ
  tsSecs : ℕ
  durationUs : ℕ
  args : List Bytes
  peer : Bytes
  deriving DecidableEq, Repr

structure MonitorMessage where
  timestampMs : Int64
  peer : Bytes
  args : List Bytes
  deriving DecidableEq, Repr

/-- A subscriber of the registry: its channel, whether the receiver of it still exists, and what was
sent to it. -/
structure Monitor where
  channel : ℕ
  live : Bool
  inbox : List MonitorMessage
  deriving DecidableEq, Repr

/-- What the connections share. `poisoned` says that a panic poisoned the lock of the store, and
`channels` how many channels the registry ever created. -/
structure Server where
  engine : KvEngine
  poisoned : Bool
  authPassword : Option Bytes
  slowlogSlowerThanUs : Int64
  slowlogMaxLen : ℕ
  slowlog : List SlowLogEntry
  slowlogSeq : ℕ
  totalCommands : ℕ
  monitors : List Monitor
  channels : ℕ

/-- What one request reads from outside, besides the engine's own readings: the clock of the monitors
and of `expire_reply`, the time the command took, the time of the slow log, the client's address as
text, whether the thread of a rewrite can be spawned, and what `INFO` shows of the hybrid controller
and of the log's writer. A sum that passed `is_finite` is a finite number. -/
structure Reading where
  env : Env
  isFinite : ∀ x, env.float.isFinite x = true → Binary64.isFinite x = true
  monitorMs : Int64
  expireMs : Int64
  elapsedUs : ℕ
  tsSecs : ℕ
  client : Option Bytes
  spawnError : Option Bytes
  aheAlpha : Bytes
  aheLastHitRatio : Bytes
  aofWriteErrors : ℕ
  aofFsyncs : ℕ
  aofFsyncSkips : ℕ
  aofAppendBatches : ℕ

/-- The address shown for a command without a client. -/
def unspecifiedPeer : Bytes := text "0.0.0.0:0"

def version : String := "0.6.0"

def perIndexEntryBytes : ℕ := 48

namespace Server

def new : Server where
  engine := KvEngine.new
  poisoned := false
  authPassword := none
  slowlogSlowerThanUs := 10000
  slowlogMaxLen := 128
  slowlog := []
  slowlogSeq := 0
  totalCommands := 0
  monitors := []
  channels := 0

/-- An empty password is none. -/
def setRequirepass (s : Server) (pw : Bytes) : Server :=
  { s with authPassword := if pw = [] then none else some pw }

/-- The flag `auth_required` is published with the password, under its lock. -/
def authRequired (s : Server) : Bool := s.authPassword.isSome

def constantTimeEq (a b : Bytes) : Bool :=
  if a.length ≠ b.length then false
  else decide ((a.zip b).foldl (fun diff p => diff ||| (p.1 ^^^ p.2)) 0 = 0)

def authenticate (s : Server) (provided : Bytes) : Except ServerError Bool :=
  match s.authPassword with
  | some expected => .ok (constantTimeEq provided expected)
  | none => .error (.parseError (text "Client sent AUTH, but no password is set"))

/-! ## Slow log and monitors -/

def slowlogArmed (s : Server) : Bool := decide (s.slowlogSlowerThanUs ≠ 0)

def slowlogWouldLog (s : Server) (durationUs : ℕ) : Bool :=
  if s.slowlogSlowerThanUs = 0 then false
  else if s.slowlogSlowerThanUs < 0 then true
  else decide (s.slowlogSlowerThanUs.toInt < durationUs)

/-- Appends an entry and drops the oldest ones above the cap. -/
def maybePushSlowlog (s : Server) (r : Reading) (args : List Bytes) : Server :=
  if s.slowlogWouldLog r.elapsedUs then
    let entry :=
      { id := s.slowlogSeq + 1, tsSecs := r.tsSecs, durationUs := r.elapsedUs, args := args
        peer := r.client.getD unspecifiedPeer }
    let ring := s.slowlog ++ [entry]
    { s with
      slowlogSeq := s.slowlogSeq + 1
      slowlog := ring.drop (ring.length - max s.slowlogMaxLen 1) }
  else s

def slowlogGet (s : Server) (count : Option ℕ) : List SlowLogEntry :=
  match count with
  | some n => s.slowlog.reverse.take n
  | none => s.slowlog.reverse

/-- Sends to the subscribers whose receivers exist and forgets the others. -/
def broadcast (s : Server) (msg : MonitorMessage) : Server :=
  { s with
    monitors := (s.monitors.filter (·.live)).map fun m => { m with inbox := m.inbox ++ [msg] } }

/-- A new channel for a client that monitors. -/
def subscribe (s : Server) : Server :=
  { s with monitors := s.monitors ++ [⟨s.channels, true, []⟩], channels := s.channels + 1 }

/-- An engine method that takes the lock of the store after it checked `first`. -/
def locked {α : Type} (s : Server) (first : Except FerrumError Unit)
    (f : KvEngine → Except FerrumError α × KvEngine) : Except ServerError α × Server :=
  if s.poisoned then
    match first with
    | .error e => (.error (.ofEngine e), s)
    | .ok () => (.error .lockPoisoned, s)
  else
    let r := f s.engine
    (r.1.mapError .ofEngine, { s with engine := r.2 })

/-- A method that takes the lock first and does not fail under it. -/
def withStore {α : Type} (s : Server) (f : KvEngine → α × KvEngine) :
    Except ServerError α × Server :=
  s.locked (.ok ()) fun e => (.ok (f e).1, (f e).2)

/-- The lock is taken only where the index has to change. -/
def setEvictionConfig (s : Server) (env : Env) (cfg : EvictionConfig) :
    Except ServerError Unit × Server :=
  if s.poisoned = true ∧ cfg.policy.indexKind ≠ s.engine.indexKind then (.error .lockPoisoned, s)
  else (.ok (), { s with engine := s.engine.setEvictionConfig env cfg })

def policyIndexMemory (s : Server) : ℕ :=
  if s.engine.indexKind = .none ∨ s.poisoned = true then 0
  else s.engine.store.entries.length * perIndexEntryBytes

/-- Claims the rewrite slot and spawns a worker; a slot that is taken is left alone. -/
def rewriteAof (s : Server) (r : Reading) : Except ServerError Unit :=
  if s.engine.aof = none then .error .aofNotEnabled
  else
    match r.spawnError with
    | some e => .error (.internal (text "failed to spawn aof rewrite thread: " ++ e))
    | none => .ok ()

/-! ## `INFO` -/

def field (name : String) (value : Bytes) : Bytes := text name ++ 58 :: value ++ crlf

def number (name : String) (n : ℕ) : Bytes := field name (Decimal.ofNat n)

def serverText : Bytes := text "# Server" ++ crlf ++ field "ferrum_version" (text version) ++ crlf

def memoryText (s : Server) (r : Reading) : Bytes :=
  text "# Memory" ++ crlf
    ++ number "used_memory" s.engine.usedMemory
    ++ number "maxmemory" s.engine.eviction.maxMemory
    ++ field "maxmemory_policy" (text s.engine.eviction.policy.name)
    ++ number "maxmemory_samples" s.engine.eviction.samples
    ++ number "used_memory_policy_indexes" s.policyIndexMemory
    ++ field "ahe_alpha" r.aheAlpha
    ++ field "ahe_last_hit_ratio" r.aheLastHitRatio
    ++ crlf

def statsText (s : Server) (r : Reading) : Bytes :=
  text "# Stats" ++ crlf
    ++ number "total_commands_processed" s.totalCommands
    ++ number "keyspace_hits" s.engine.hits
    ++ number "keyspace_misses" s.engine.misses
    ++ number "evicted_keys" s.engine.evictedKeys
    ++ number "expired_keys" s.engine.expiredKeys
    ++ number "aof_write_errors" r.aofWriteErrors
    ++ number "aof_fsyncs" r.aofFsyncs
    ++ number "aof_fsync_skips" r.aofFsyncSkips
    ++ number "aof_append_batches" r.aofAppendBatches
    ++ crlf

/-- A poisoned store shows no keys. -/
def keyspaceText (s : Server) (r : Reading) : Bytes :=
  let keys := if s.poisoned then 0 else s.engine.dbsize r.env
  let stats := s.engine.expireStats r.env
  text "# Keyspace" ++ crlf
    ++ (if 0 < keys then
        text "db0:keys=" ++ Decimal.ofNat keys ++ text ",expires=" ++ Decimal.ofNat stats.1
          ++ text ",avg_ttl=" ++ Decimal.ofNat stats.2 ++ crlf
      else [])
    ++ crlf

/-- The wanted sections, with their names. -/
def renderInfoSections (s : Server) (r : Reading) (part : Option Bytes) : List (Bytes × Bytes) :=
  let sections :=
    [(text "server", serverText), (text "memory", s.memoryText r), (text "stats", s.statsText r),
      (text "keyspace", s.keyspaceText r)]
  match part with
  | none => sections
  | some p => sections.filter fun x => eqIgnoreAsciiCase p x.1

/-! ## `CONFIG` -/

def configPairs (s : Server) : List (String × Bytes) :=
  [("maxmemory", Decimal.ofNat s.engine.eviction.maxMemory),
    ("maxmemory-policy", text s.engine.eviction.policy.name),
    ("maxmemory-samples", Decimal.ofNat s.engine.eviction.samples),
    ("requirepass", if s.authPassword.isSome then text "(redacted)" else []),
    ("slowlog-log-slower-than", i64ToString s.slowlogSlowerThanUs),
    ("slowlog-max-len", Decimal.ofNat s.slowlogMaxLen)]

/-- Pairs of bulk strings, as an array of twice as many elements or as a map. -/
def encodePairs (version : ProtocolVersion) (pairs : List (Bytes × Bytes)) : Bytes :=
  (match version with
    | .resp2 => Encoder.encodeArrayHeader (pairs.length * 2)
    | .resp3 => Encoder.encodeMapHeader pairs.length)
    ++ pairs.flatMap fun p => Encoder.encodeBulkString p.1 ++ Encoder.encodeBulkString p.2

def configGet (s : Server) (version : ProtocolVersion) (pattern : Bytes) : Bytes :=
  if eqIgnoreAsciiCase pattern (text "*") then
    encodePairs version (s.configPairs.map fun p => (text p.1, p.2))
  else if Utf8.valid pattern = false then encodePairs version []
  else
    match s.configPairs.find? fun p => eqIgnoreAsciiCase (text p.1) pattern with
    | some p => encodePairs version [(text p.1, p.2)]
    | none => encodePairs version []

inductive Parameter
  | requirepass
  | maxMemory
  | maxMemoryPolicy
  | maxMemorySamples
  | slowlogLogSlowerThan
  | slowlogMaxLen
  | unknown
  deriving DecidableEq, Repr

def parameter (name : Bytes) : Parameter :=
  if name = text "requirepass" then .requirepass
  else if name = text "maxmemory" then .maxMemory
  else if name = text "maxmemory-policy" then .maxMemoryPolicy
  else if name = text "maxmemory-samples" then .maxMemorySamples
  else if name = text "slowlog-log-slower-than" then .slowlogLogSlowerThan
  else if name = text "slowlog-max-len" then .slowlogMaxLen
  else .unknown

def ok : Bytes := Encoder.encodeSimpleString (text "OK")

def invalidArgument (name why : String) : Bytes :=
  Encoder.encodeError
    (text "ERR Invalid argument for CONFIG SET '" ++ text name ++ text "' (" ++ text why ++ text ")")

def answered {α : Type} (f : α → Bytes) (r : Except ServerError α × Server) : Bytes × Server :=
  match r with
  | (.ok a, s) => (f a, s)
  | (.error e, s) => (writeFerrumError e, s)

def configure (s : Server) (env : Env) (cfg : EvictionConfig) : Bytes × Server :=
  answered (fun _ => ok) (s.setEvictionConfig env cfg)

/-- `CONFIG SET` of a parameter by its lower-cased name. -/
def configSetValue (s : Server) (env : Env) (name value : Bytes) : Bytes × Server :=
  match parameter name with
  | .requirepass => (ok, s.setRequirepass value)
  | .maxMemory =>
    match parseBytes value with
    | .ok bytes => s.configure env { s.engine.eviction with maxMemory := bytes }
    | .error e => (Encoder.encodeError (text "ERR " ++ e.message "maxmemory" value), s)
  | .maxMemoryPolicy =>
    match EvictionPolicy.fromName (asciiLowercase value) with
    | some p => s.configure env { s.engine.eviction with policy := p }
    | none =>
      (Encoder.encodeError
        (text "ERR Invalid argument '" ++ value ++ text "' for CONFIG SET 'maxmemory-policy'"), s)
  | .maxMemorySamples =>
    match parseU64 (Utf8.trim value) with
    | some n =>
      if 0 < n then s.configure env { s.engine.eviction with samples := n }
      else (invalidArgument "maxmemory-samples" "must be > 0", s)
    | none => (invalidArgument "maxmemory-samples" "not an integer", s)
  | .slowlogLogSlowerThan =>
    match parseI64 (Utf8.trim value) with
    | some v => (ok, { s with slowlogSlowerThanUs := v })
    | none => (invalidArgument "slowlog-log-slower-than" "not an integer", s)
  | .slowlogMaxLen =>
    match parseU64 (Utf8.trim value) with
    | some v =>
      if 0 < v then (ok, { s with slowlogMaxLen := v })
      else (invalidArgument "slowlog-max-len" "must be > 0", s)
    | none => (invalidArgument "slowlog-max-len" "not an integer", s)
  | .unknown => (Encoder.encodeError (text "ERR Unknown parameter '" ++ name ++ text "'"), s)

def configSet (s : Server) (env : Env) (param value : Bytes) : Bytes × Server :=
  if Utf8.valid param = false then
    (Encoder.encodeError (text "ERR Unknown parameter (non-UTF8 parameter name)"), s)
  else if Utf8.valid value = false then
    (Encoder.encodeError (text "ERR Invalid argument (non-UTF8 value)"), s)
  else s.configSetValue env (asciiLowercase param) value

/-! ## Replies -/

def encNull : ProtocolVersion → Bytes
  | .resp2 => Encoder.encodeNullBulk
  | .resp3 => Encoder.encodeNull

def encBool (version : ProtocolVersion) (v : Bool) : Bytes :=
  match version with
  | .resp2 => Encoder.encodeInteger (if v then 1 else 0)
  | .resp3 => Encoder.encodeBoolean v

def encValue (version : ProtocolVersion) : Option Bytes → Bytes
  | some v => Encoder.encodeBulkString v
  | none => encNull version

/-- A count, `as i64`. -/
def encCount (n : ℕ) : Bytes := Encoder.encodeInteger (Int64.ofNat n)

def encodeSlowlogEntry (e : SlowLogEntry) : Bytes :=
  Encoder.encodeArrayHeader 6 ++ encCount e.id ++ encCount e.tsSecs ++ encCount e.durationUs
    ++ (Encoder.encodeArrayHeader e.args.length ++ e.args.flatMap Encoder.encodeBulkString)
    ++ Encoder.encodeBulkString e.peer ++ Encoder.encodeBulkString []

def encodeSlowlogEntries (entries : List SlowLogEntry) : Bytes :=
  Encoder.encodeArrayHeader entries.length ++ entries.flatMap encodeSlowlogEntry

/-- The reply to `TTL` and `PTTL`; `render` is what they make of the remaining milliseconds. -/
def encTtl (render : Int64 → Int64) : TtlStatus → Bytes
  | .missing => Encoder.encodeInteger (-2)
  | .noExpire => Encoder.encodeInteger (-1)
  | .millis ms => Encoder.encodeInteger (render ms)

def checkedSecondsToMs (seconds : Int64) : Option Int64 :=
  if -2 ^ 63 ≤ seconds.toInt * 1000 ∧ seconds.toInt * 1000 < 2 ^ 63 then some (seconds * 1000)
  else none

def expireReply (s : Server) (r : Reading) (key : Bytes) (deltaMs : Option Int64) :
    Except ServerError Bool × Server :=
  let absMs :=
    match deltaMs with
    | some d => saturatingAdd r.expireMs d
    | none => r.expireMs
  s.withStore fun e => e.expireAtMs r.env key absMs

def slowLogReply (s : Server) (sub : Bytes) (args : List Bytes) : Bytes × Server :=
  if eqIgnoreAsciiCase sub (text "GET") then
    match args with
    | [] => (encodeSlowlogEntries (s.slowlogGet none), s)
    | arg :: _ =>
      match if Utf8.valid arg then parseU64 (Utf8.trim arg) else none with
      | some n => (encodeSlowlogEntries (s.slowlogGet (some n)), s)
      | none => (Encoder.encodeError (text "ERR value is not an integer or out of range"), s)
  else if eqIgnoreAsciiCase sub (text "LEN") then (encCount s.slowlog.length, s)
  else if eqIgnoreAsciiCase sub (text "RESET") then (ok, { s with slowlog := [] })
  else (Encoder.encodeError (text "ERR unknown slowlog subcommand"), s)

/-- The parser gives every `CONFIG` the arguments that are read here. -/
def configReply (s : Server) (env : Env) (version : ProtocolVersion) (sub : Bytes)
    (args : List Bytes) : Bytes × Server :=
  if eqIgnoreAsciiCase sub (text "GET") then
    match args with
    | pattern :: _ => (s.configGet version pattern, s)
    | [] => ([], s)
  else if eqIgnoreAsciiCase sub (text "SET") then
    match args with
    | param :: value :: _ => s.configSet env param value
    | _ => ([], s)
  else (Encoder.encodeError (text "ERR unknown config subcommand"), s)

def infoReply (s : Server) (r : Reading) (version : ProtocolVersion) (part : Option Bytes) : Bytes :=
  let sections := s.renderInfoSections r part
  match version with
  | .resp2 => Encoder.encodeBulkString (sections.flatMap (·.2))
  | .resp3 => encodePairs .resp3 sections

def internalReply (cmd : String) : Bytes :=
  Encoder.encodeError (text "ERR internal: " ++ text cmd ++ text " handled by connection layer")

/-- The match of `execute_command`. -/
def dispatch (s : Server) (r : Reading) (version : ProtocolVersion) :
    Protocol.Command → Bytes × Server
  | .set key value => answered (fun _ => ok) (s.locked (.ok ()) fun e => e.set r.env key value)
  | .setNx key value =>
    answered (encBool version) (s.locked (.ok ()) fun e => e.setNx r.env key value)
  | .mSet pairs => answered (fun _ => ok) (s.locked (.ok ()) fun e => e.mset r.env pairs)
  | .mGet keys =>
    answered (fun values =>
      Encoder.encodeArrayHeader values.length ++ values.flatMap (encValue version))
      (s.withStore fun e => e.mget r.env keys)
  | .incrBy key delta =>
    answered Encoder.encodeInteger (s.locked (validateKey key) fun e => e.incrBy r.env key delta)
  | .incrByFloat key delta =>
    answered (fun n =>
      match version with
      | .resp2 => Encoder.encodeBulkString (r.env.float.render n)
      | .resp3 => Encoder.encodeDouble n)
      (s.locked (validateKey key) fun e => e.incrByFloat r.env key delta)
  | .get key => answered (encValue version) (s.withStore fun e => e.get r.env key)
  | .del keys =>
    if keys = [] then (encCount 0, s)
    else answered encCount (s.withStore fun e => e.delMany r.env keys)
  | .existsMany keys =>
    if keys = [] then (encCount 0, s)
    else answered encCount (s.withStore fun e => e.existsMany r.env keys)
  | .ping none => (Encoder.encodeSimpleString (text "PONG"), s)
  | .ping (some msg) => (Encoder.encodeBulkString msg, s)
  | .append key value =>
    answered encCount (s.locked (validateKey key) fun e => e.append r.env key value)
  | .strLen key => answered encCount (s.withStore fun e => e.strlen r.env key)
  | .dbSize => answered encCount (s.withStore fun e => (e.dbsize r.env, e))
  | .flushDb => answered (fun _ => ok) (s.withStore fun e => ((), e.flushdb))
  | .expire key seconds =>
    answered (encBool version) (s.expireReply r key (checkedSecondsToMs seconds))
  | .pExpire key millis => answered (encBool version) (s.expireReply r key (some millis))
  | .pExpireAt key absEpochMs =>
    answered (encBool version) (s.withStore fun e => e.expireAtMs r.env key absEpochMs)
  | .persist key => answered (encBool version) (s.withStore fun e => e.persist r.env key)
  | .ttl key =>
    answered (encTtl fun ms => (ms + 999) / 1000) (s.withStore fun e => e.ttlMs r.env key)
  | .pTtl key => answered (encTtl id) (s.withStore fun e => e.ttlMs r.env key)
  | .memoryUsage key =>
    answered (fun usage => usage.elim (encNull version) encCount)
      (s.withStore fun e => e.memoryUsage r.env key)
  | .info part => (s.infoReply r version part, s)
  | .config sub args => s.configReply r.env version sub args
  | .auth _ => (internalReply "AUTH", s)
  | .slowLog sub args => s.slowLogReply sub args
  | .rewriteAof => answered (fun _ => ok) (s.rewriteAof r, s)
  | .monitor => (internalReply "MONITOR", s)
  | .hello _ => (internalReply "HELLO", s)

def isSlowlogMeta : Protocol.Command → Bool
  | .slowLog _ _ | .rewriteAof => true
  | _ => false

def monitorMeta : Protocol.Command → Bool
  | .slowLog _ _ | .rewriteAof | .monitor => true
  | _ => false

/-- Counts the command and shows it to the monitors. -/
def announce (s : Server) (r : Reading) (cmd : Protocol.Command) : Server :=
  let s := { s with totalCommands := s.totalCommands + 1 }
  if monitorMeta cmd = false ∧ s.monitors ≠ [] then
    s.broadcast ⟨r.monitorMs, r.client.getD unspecifiedPeer, cmd.argsRedacted r.env.float⟩
  else s

/-- Logs a command that was slow, if the log was switched on before it ran. -/
def noteSlow (s : Server) (r : Reading) (armed : Bool) (cmd : Protocol.Command) : Server :=
  if isSlowlogMeta cmd = false ∧ armed = true then
    s.maybePushSlowlog r (cmd.argsRedacted r.env.float)
  else s

/-- One command: the bytes it appends to the reply buffer, and the server after it. -/
def executeCommand (s : Server) (r : Reading) (version : ProtocolVersion)
    (cmd : Protocol.Command) : Bytes × Server :=
  let armed := s.slowlogArmed
  let reply := (s.announce r cmd).dispatch r version cmd
  (reply.1, reply.2.noteSlow r armed cmd)

end Server

end FerrumKv
