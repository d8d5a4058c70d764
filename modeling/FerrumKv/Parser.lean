import FerrumKv.Lib.Utf8
import FerrumKv.Replay

/-!
# The request parser

The commands a client can send, the decoder of one request from the bytes received so far, and the
argument vector of a command that the slow log and the monitors show. An index or a slice that is out
of range is the failure `panic`; an unfinished request is `none`.
-/

namespace FerrumKv

/-- The bytes of a text of the source, all of them ASCII. -/
def text (s : String) : Bytes := ascii s.toList

namespace Protocol

inductive Command
  | set (key value : Bytes)
  | setNx (key value : Bytes)
  | mSet (pairs : List (Bytes × Bytes))
  | mGet (keys : List Bytes)
  | incrBy (key : Bytes) (delta : Int64)
  | incrByFloat (key : Bytes) (delta : UInt64)
  | get (key : Bytes)
  | del (keys : List Bytes)
  | existsMany (keys : List Bytes)
  | ping (msg : Option Bytes)
  | append (key value : Bytes)
  | strLen (key : Bytes)
  | dbSize
  | flushDb
  | expire (key : Bytes) (seconds : Int64)
  | pExpire (key : Bytes) (millis : Int64)
  | pExpireAt (key : Bytes) (absEpochMs : Int64)
  | persist (key : Bytes)
  | ttl (key : Bytes)
  | pTtl (key : Bytes)
  | memoryUsage (key : Bytes)
  | info (part : Option Bytes)
  | config (sub : Bytes) (args : List Bytes)
  | auth (password : Bytes)
  | slowLog (sub : Bytes) (args : List Bytes)
  | rewriteAof
  | monitor
  | hello (version : Option UInt8)
  deriving DecidableEq, Repr

/-- Why a well-framed request is no command. -/
inductive CommandError
  | wrongArity (cmd : String)
  | unknownCommand (cmd : Bytes)
  | parseError (msg : String)
  deriving DecidableEq, Repr

/-- Why the bytes cannot be a request. -/
inductive ParseFault
  | expectedArray (found : UInt8)
  | emptyArray (count : Int64)
  | arrayTooLarge (count : ℕ)
  | nonAsciiLength
  | invalidInteger (line : Bytes)
  | expectedBulk (found : UInt8)
  | nullBulk
  | bulkTooLarge (len : Int64)
  | missingCrlf
  deriving DecidableEq, Repr

inductive Failure
  | fault (e : ParseFault)
  | panic
  deriving DecidableEq, Repr

/-! ## Commands -/

inductive Verb
  | set
  | setNx
  | mSet
  | mGet
  | incr
  | decr
  | incrBy
  | decrBy
  | incrByFloat
  | get
  | del
  | existsMany
  | ping
  | append
  | strLen
  | dbSize
  | flushDb
  | expire
  | pExpire
  | pExpireAt
  | persist
  | ttl
  | pTtl
  | memory
  | info
  | config
  | auth
  | slowLog
  | rewriteAof
  | monitor
  | hello
  deriving DecidableEq, Repr

def verbs : List (String × Verb) :=
  [("SET", .set), ("SETNX", .setNx), ("MSET", .mSet), ("MGET", .mGet), ("INCR", .incr),
    ("DECR", .decr), ("INCRBY", .incrBy), ("DECRBY", .decrBy), ("INCRBYFLOAT", .incrByFloat),
    ("GET", .get), ("DEL", .del), ("EXISTS", .existsMany), ("PING", .ping), ("APPEND", .append),
    ("STRLEN", .strLen), ("DBSIZE", .dbSize), ("FLUSHDB", .flushDb), ("EXPIRE", .expire),
    ("PEXPIRE", .pExpire), ("PEXPIREAT", .pExpireAt), ("PERSIST", .persist), ("TTL", .ttl),
    ("PTTL", .pTtl), ("MEMORY", .memory), ("INFO", .info), ("CONFIG", .config), ("AUTH", .auth),
    ("SLOWLOG", .slowLog), ("BGREWRITEAOF", .rewriteAof), ("MONITOR", .monitor), ("HELLO", .hello)]

def asciiUppercase (bytes : Bytes) : Bytes := bytes.map toAsciiUppercase

/-- The verb a name stands for, in any case. -/
def verb? (name : Bytes) : Option Verb :=
  (verbs.find? fun v => decide (text v.1 = asciiUppercase name)).map (·.2)

def notAnInteger : CommandError := .parseError "value is not an integer or out of range"

def parseIntegerArgument (bytes : Bytes) : Except CommandError Int64 :=
  match parseI64 bytes with
  | some n => .ok n
  | none => .error notAnInteger

/-- A byte string that is not UTF-8 is no number either. -/
def parseFloatArgument (float : FloatOps) (bytes : Bytes) : Except CommandError UInt64 :=
  match float.parse bytes with
  | some x => .ok x
  | none => .error (.parseError "value is not a valid float")

def checkedNeg (n : Int64) : Except CommandError Int64 :=
  if n.toInt = -2 ^ 63 then .error notAnInteger else .ok (-n)

def noArgs (cmd : String) (args : List Bytes) (c : Command) : Except CommandError Command :=
  match args with
  | [] => .ok c
  | _ => .error (.wrongArity cmd)

def oneArg (cmd : String) (args : List Bytes) (f : Bytes → Command) : Except CommandError Command :=
  match args with
  | [a] => .ok (f a)
  | _ => .error (.wrongArity cmd)

def twoArgs (cmd : String) (args : List Bytes) (f : Bytes → Bytes → Except CommandError Command) :
    Except CommandError Command :=
  match args with
  | [a, b] => f a b
  | _ => .error (.wrongArity cmd)

def someArgs (cmd : String) (args : List Bytes) (f : List Bytes → Command) :
    Except CommandError Command :=
  match args with
  | [] => .error (.wrongArity cmd)
  | args => .ok (f args)

def pairUp : List Bytes → List (Bytes × Bytes)
  | k :: v :: rest => (k, v) :: pairUp rest
  | _ => []

def buildMemory : List Bytes → Except CommandError Command
  | sub :: key :: _ =>
    if asciiUppercase sub ≠ text "USAGE" then
      .error (.unknownCommand (text "MEMORY " ++ Utf8.lossy sub))
    else .ok (.memoryUsage key)
  | _ => .error (.wrongArity "MEMORY")

def buildConfig : List Bytes → Except CommandError Command
  | [] => .error (.wrongArity "CONFIG")
  | sub :: rest =>
    if asciiUppercase sub = text "GET" then
      oneArg "CONFIG GET" rest fun param => .config (text "GET") [param]
    else if asciiUppercase sub = text "SET" then
      twoArgs "CONFIG SET" rest fun param value => .ok (.config (text "SET") [param, value])
    else .error (.unknownCommand (text "CONFIG " ++ Utf8.lossy sub))

def buildSlowLog : List Bytes → Except CommandError Command
  | [] => .error (.wrongArity "SLOWLOG")
  | sub :: rest =>
    if asciiUppercase sub = text "GET" then
      match rest with
      | [] | [_] => .ok (.slowLog (text "GET") rest)
      | _ => .error (.wrongArity "SLOWLOG GET")
    else if asciiUppercase sub = text "LEN" then
      noArgs "SLOWLOG LEN" rest (.slowLog (text "LEN") [])
    else if asciiUppercase sub = text "RESET" then
      noArgs "SLOWLOG RESET" rest (.slowLog (text "RESET") [])
    else .error (.unknownCommand (text "SLOWLOG " ++ Utf8.lossy sub))

def buildHello : List Bytes → Except CommandError Command
  | [] => .ok (.hello none)
  | [v] =>
    if v = text "2" then .ok (.hello (some 2))
    else if v = text "3" then .ok (.hello (some 3))
    else .error (.parseError "NOPROTO unsupported protocol version")
  | _ => .error (.wrongArity "HELLO")

/-- The command that a verb and its arguments make up. -/
def buildArgs (float : FloatOps) (args : List Bytes) : Verb → Except CommandError Command
  | .set => twoArgs "SET" args fun key value => .ok (.set key value)
  | .setNx => twoArgs "SETNX" args fun key value => .ok (.setNx key value)
  | .mSet =>
    if args = [] ∨ args.length % 2 ≠ 0 then .error (.wrongArity "MSET")
    else .ok (.mSet (pairUp args))
  | .mGet => someArgs "MGET" args .mGet
  | .incr => oneArg "INCR" args fun key => .incrBy key 1
  | .decr => oneArg "DECR" args fun key => .incrBy key (-1)
  | .incrBy => twoArgs "INCRBY" args fun key raw => (parseIntegerArgument raw).map (.incrBy key)
  | .decrBy => twoArgs "DECRBY" args fun key raw =>
    ((parseIntegerArgument raw).bind checkedNeg).map (.incrBy key)
  | .incrByFloat => twoArgs "INCRBYFLOAT" args fun key raw =>
    (parseFloatArgument float raw).map (.incrByFloat key)
  | .get => oneArg "GET" args .get
  | .del => someArgs "DEL" args .del
  | .existsMany => someArgs "EXISTS" args .existsMany
  | .ping =>
    match args with
    | [] => .ok (.ping none)
    | [msg] => .ok (.ping (some msg))
    | _ => .error (.wrongArity "PING")
  | .append => twoArgs "APPEND" args fun key value => .ok (.append key value)
  | .strLen => oneArg "STRLEN" args .strLen
  | .dbSize => noArgs "DBSIZE" args .dbSize
  | .flushDb => noArgs "FLUSHDB" args .flushDb
  | .expire => twoArgs "EXPIRE" args fun key raw => (parseIntegerArgument raw).map (.expire key)
  | .pExpire => twoArgs "PEXPIRE" args fun key raw => (parseIntegerArgument raw).map (.pExpire key)
  | .pExpireAt => twoArgs "PEXPIREAT" args fun key raw =>
    (parseIntegerArgument raw).map (.pExpireAt key)
  | .persist => oneArg "PERSIST" args .persist
  | .ttl => oneArg "TTL" args .ttl
  | .pTtl => oneArg "PTTL" args .pTtl
  | .memory => buildMemory args
  | .info =>
    match args with
    | [] => .ok (.info none)
    | [part] => .ok (.info (some part))
    | _ => .error (.wrongArity "INFO")
  | .config => buildConfig args
  | .auth => oneArg "AUTH" args .auth
  | .slowLog => buildSlowLog args
  | .rewriteAof => noArgs "BGREWRITEAOF" args .rewriteAof
  | .monitor => noArgs "MONITOR" args .monitor
  | .hello => buildHello args

def buildCommand (float : FloatOps) (name : Bytes) (args : List Bytes) :
    Except CommandError Command :=
  match verb? name with
  | some v => buildArgs float args v
  | none => .error (.unknownCommand (Utf8.lossy name))

namespace Command

def args (float : FloatOps) : Command → List Bytes
  | .set key value => [text "SET", key, value]
  | .setNx key value => [text "SETNX", key, value]
  | .mSet pairs => text "MSET" :: pairs.flatMap fun p => [p.1, p.2]
  | .mGet keys => text "MGET" :: keys
  | .incrBy key delta => [text "INCRBY", key, i64ToString delta]
  | .incrByFloat key delta => [text "INCRBYFLOAT", key, float.render delta]
  | .get key => [text "GET", key]
  | .del keys => text "DEL" :: keys
  | .existsMany keys => text "EXISTS" :: keys
  | .ping none => [text "PING"]
  | .ping (some msg) => [text "PING", msg]
  | .append key value => [text "APPEND", key, value]
  | .strLen key => [text "STRLEN", key]
  | .dbSize => [text "DBSIZE"]
  | .flushDb => [text "FLUSHDB"]
  | .expire key seconds => [text "EXPIRE", key, i64ToString seconds]
  | .pExpire key millis => [text "PEXPIRE", key, i64ToString millis]
  | .pExpireAt key absEpochMs => [text "PEXPIREAT", key, i64ToString absEpochMs]
  | .persist key => [text "PERSIST", key]
  | .ttl key => [text "TTL", key]
  | .pTtl key => [text "PTTL", key]
  | .memoryUsage key => [text "MEMORY", text "USAGE", key]
  | .info none => [text "INFO"]
  | .info (some part) => [text "INFO", part]
  | .config sub args => text "CONFIG" :: sub :: args
  | .auth password => [text "AUTH", password]
  | .slowLog sub args => text "SLOWLOG" :: sub :: args
  | .rewriteAof => [text "BGREWRITEAOF"]
  | .monitor => [text "MONITOR"]
  | .hello none => [text "HELLO"]
  | .hello (some v) => [text "HELLO", Decimal.ofNat v.toNat]

/-- The argument vector with the password of an `AUTH` masked. -/
def argsRedacted (float : FloatOps) : Command → List Bytes
  | .auth _ => [text "AUTH", text "***"]
  | cmd => cmd.args float

end Command

/-! ## Framing -/

def maxArrayElements : ℕ := 2 ^ 20

def maxBulkLen : ℕ := 512 * 1024 * 1024

def index (buf : Bytes) (i : ℕ) : Except Failure UInt8 :=
  match buf[i]? with
  | some b => .ok b
  | none => .error .panic

def slice (buf : Bytes) (start stop : ℕ) : Except Failure Bytes :=
  if start ≤ stop ∧ stop ≤ buf.length then .ok ((buf.take stop).drop start) else .error .panic

def crlfPosition : Bytes → Option ℕ
  | [] => none
  | b :: rest => if b = 13 ∧ rest.head? = some 10 then some 0 else (crlfPosition rest).map (· + 1)

def findCrlf (buf : Bytes) (start : ℕ) : Option ℕ :=
  if buf.length ≤ start then none else (crlfPosition (buf.drop start)).map (· + start)

def parseLine (line : Bytes) : Except Failure Int64 :=
  if Utf8.valid line = false then .error (.fault .nonAsciiLength)
  else
    match parseI64 line with
    | none => .error (.fault (.invalidInteger line))
    | some value => .ok value

/-- The integer of the line at `start`, and where the next line begins. -/
def readIntegerLine (buf : Bytes) (start : ℕ) : Except Failure (Option (Int64 × ℕ)) :=
  match findCrlf buf start with
  | none => .ok none
  | some crlf =>
    match slice buf start crlf with
    | .error e => .error e
    | .ok line =>
      match parseLine line with
      | .error e => .error e
      | .ok value => .ok (some (value, crlf + 2))

/-- The payload of `len` bytes at `afterLen` with the CRLF behind it. -/
def readPayload (buf : Bytes) (afterLen len : ℕ) : Except Failure (Option (Bytes × ℕ)) :=
  let payloadEnd := afterLen + len
  if buf.length < payloadEnd + 2 then .ok none
  else
    match slice buf payloadEnd (payloadEnd + 2) with
    | .error e => .error e
    | .ok terminator =>
      if terminator ≠ crlf then .error (.fault .missingCrlf)
      else
        match slice buf afterLen payloadEnd with
        | .error e => .error e
        | .ok payload => .ok (some (payload, payloadEnd + 2))

def readBulkString (buf : Bytes) (start : ℕ) : Except Failure (Option (Bytes × ℕ)) :=
  if buf.length ≤ start then .ok none
  else
    match index buf start with
    | .error e => .error e
    | .ok marker =>
      if marker ≠ 36 then .error (.fault (.expectedBulk marker))
      else
        match readIntegerLine buf (start + 1) with
        | .error e => .error e
        | .ok none => .ok none
        | .ok (some (len, afterLen)) =>
          if len.toInt < 0 then .error (.fault .nullBulk)
          else if (maxBulkLen : ℤ) < len.toInt then .error (.fault (.bulkTooLarge len))
          else readPayload buf afterLen len.toInt.toNat

/-- The loop over the elements of the array. -/
def readParts (buf : Bytes) : ℕ → ℕ → Except Failure (Option (List Bytes × ℕ))
  | 0, cursor => .ok (some ([], cursor))
  | count + 1, cursor =>
    match readBulkString buf cursor with
    | .error e => .error e
    | .ok none => .ok none
    | .ok (some (part, next)) =>
      match readParts buf count next with
      | .error e => .error e
      | .ok none => .ok none
      | .ok (some (parts, cursor)) => .ok (some (part :: parts, cursor))

inductive FrameParse
  | complete (command : Command) (consumed : ℕ)
  | invalid (error : CommandError) (consumed : ℕ)
  | incomplete
  deriving DecidableEq, Repr

/-- What the elements of a request make it; an array without elements has no name to take. -/
def finishFrame (float : FloatOps) (parts : List Bytes) (cursor : ℕ) : Except Failure FrameParse :=
  match parts with
  | [] => .error .panic
  | name :: args =>
    match buildCommand float name args with
    | .ok command => .ok (.complete command cursor)
    | .error e => .ok (.invalid e cursor)

/-- The array that follows the line with its number of elements. -/
def readArray (float : FloatOps) (buf : Bytes) (count : Int64) (cursor : ℕ) :
    Except Failure FrameParse :=
  if count.toInt < 1 then .error (.fault (.emptyArray count))
  else if maxArrayElements < count.toInt.toNat then
    .error (.fault (.arrayTooLarge count.toInt.toNat))
  else
    match readParts buf count.toInt.toNat cursor with
    | .error e => .error e
    | .ok none => .ok .incomplete
    | .ok (some (parts, cursor)) => finishFrame float parts cursor

def parseFrame (float : FloatOps) (buf : Bytes) : Except Failure FrameParse :=
  if buf = [] then .ok .incomplete
  else
    match index buf 0 with
    | .error e => .error e
    | .ok first =>
      if first ≠ 42 then .error (.fault (.expectedArray first))
      else
        match readIntegerLine buf 1 with
        | .error e => .error e
        | .ok none => .ok .incomplete
        | .ok (some (count, cursor)) => readArray float buf count cursor

/-- The commands a client can have executed. -/
def Produced (float : FloatOps) (command : Command) : Prop :=
  ∃ buf consumed, parseFrame float buf = .ok (.complete command consumed)

end Protocol

end FerrumKv
