import FerrumKv.Connection
import FerrumKv.Server

/-!
# The session of a client

What `handle_client` keeps between the requests of a connection and how it handles one: `AUTH`,
`HELLO` and `MONITOR` are the connection's own, every other command is refused or executed. The other
clients of the server act between the requests.
-/

namespace FerrumKv

/-- The formatter's rendering of a character and of a string, with their quotes and escapes. -/
structure DebugText where
  char : UInt8 → Bytes
  str : Bytes → Bytes

namespace Protocol

def ParseFault.message (debug : DebugText) : ParseFault → Bytes
  | .expectedArray found => text "expected '*' at start of RESP array, got " ++ debug.char found
  | .emptyArray count =>
    text "RESP array must contain at least one element, got " ++ i64ToString count
  | .arrayTooLarge count =>
    text "RESP array too large (" ++ Decimal.ofNat count ++ text " elements, max "
      ++ Decimal.ofNat maxArrayElements ++ text ")"
  | .nonAsciiLength => text "non-ASCII length prefix"
  | .invalidInteger line => text "invalid integer: " ++ debug.str line
  | .expectedBulk found => text "expected '$' at start of bulk string, got " ++ debug.char found
  | .nullBulk => text "null bulk string is not allowed in requests"
  | .bulkTooLarge len => text "bulk string too large (" ++ i64ToString len ++ text " bytes)"
  | .missingCrlf => text "bulk string not terminated by CRLF"

end Protocol

namespace Connection

open Protocol Encoder

/-- What happens around a connection: what the handling of its `i`-th request reads, and what the
other clients do to the server before it. -/
structure Surroundings where
  debug : DebugText
  reading : ℕ → Reading
  others : ℕ → Server → Server

/-- A connection with the server it is on: how many requests it has handled, whether it authenticated,
the bytes it was sent in reply, and the channel it monitors on. -/
structure Session where
  server : Server
  handled : ℕ
  authed : Bool
  version : ProtocolVersion
  sent : Bytes
  channel : Option ℕ

namespace Session

def start (server : Server) : Session where
  server := server
  handled := 0
  authed := false
  version := .resp2
  sent := []
  channel := none

def send (c : Session) (reply : Bytes) : Session := { c with sent := c.sent ++ reply }

/-- The session when its next request is handled. -/
def resume (w : Surroundings) (c : Session) : Session :=
  { c with server := w.others c.handled c.server, handled := c.handled + 1 }

def wrongPass : Bytes :=
  encodeError (text "WRONGPASS invalid username-password pair or user is disabled.")

def noAuth : Bytes := encodeError (text "NOAUTH Authentication required.")

def tooLarge : Bytes := encodeError (text "ERR request too large")

def authReply (c : Session) (password : Bytes) : Session :=
  match c.server.authenticate password with
  | .ok true => { c.send Server.ok with authed := true }
  | .ok false => c.send wrongPass
  | .error e => c.send (writeFerrumError e)

def negotiate (current : ProtocolVersion) : Option UInt8 → ProtocolVersion
  | some v => if v = 2 then .resp2 else if v = 3 then .resp3 else current
  | none => current

def helloReply (version : ProtocolVersion) : Bytes :=
  (match version with
    | .resp2 => encodeArrayHeader 8
    | .resp3 => encodeMapHeader 4)
    ++ encodeBulkString (text "server") ++ encodeBulkString (text "ferrum")
    ++ encodeBulkString (text "version") ++ encodeBulkString (text FerrumKv.version)
    ++ encodeBulkString (text "proto")
    ++ encodeInteger (match version with | .resp2 => 2 | .resp3 => 3)
    ++ encodeBulkString (text "mode") ++ encodeBulkString (text "standalone")

def hello (c : Session) (v : Option UInt8) : Session :=
  let version := negotiate c.version v
  { c with version := version, sent := c.sent ++ helloReply version }

/-- The connection leaves the read loop for the loop of a monitor. -/
def monitor (c : Session) : Session :=
  { c with
    server := c.server.subscribe, channel := some c.server.channels, sent := c.sent ++ Server.ok }

def execute (c : Session) (r : Reading) (cmd : Protocol.Command) : Session :=
  let reply := c.server.executeCommand r c.version cmd
  { c with server := reply.2, sent := c.sent ++ reply.1 }

/-- Handles a command; `false` leaves the read loop. -/
def handleCommand (c : Session) (r : Reading) : Protocol.Command → Session × Bool
  | .auth password => (c.authReply password, true)
  | .hello v => (c.hello v, true)
  | .monitor => (c.monitor, false)
  | cmd =>
    if c.server.authRequired = true ∧ c.authed = false then (c.send noAuth, true)
    else (c.execute r cmd, true)

/-- A parser that panics says nothing more. -/
def failureReply (debug : DebugText) : Failure → Bytes
  | .fault e => writeFerrumError (.parseError (e.message debug))
  | .panic => []

def handleClient (w : Surroundings) : Framing.Handler Frame Failure Session where
  item c frame :=
    match frame with
    | .ok cmd => (c.resume w).handleCommand (w.reading c.handled) cmd
    | .error e => ((c.resume w).send (writeFerrumError (.ofCommand e)), true)
  stop c e := (c.resume w).send (failureReply w.debug e)
  overflow c := (c.resume w).send tooLarge

def quoted (arg : Bytes) : Bytes := 34 :: (Utf8.lossy arg ++ [34])

/-- The line for one command of another client. -/
def monitorLine (msg : MonitorMessage) : Bytes :=
  43 :: i64ToString msg.timestampMs ++ text " [" ++ msg.peer ++ text "] "
    ++ List.intercalate (text " ") (msg.args.map quoted) ++ crlf

/-- What the loop of a monitor has written when the server has become `later`. -/
def delivered (c : Session) (later : Server) : Bytes :=
  match c.channel with
  | none => []
  | some channel =>
    ((later.monitors.find? (·.channel = channel)).map (·.inbox)).getD [] |>.flatMap monitorLine

end Session

end Connection

end FerrumKv
