import FerrumKv.Credentials
import FerrumKv.Lib.Resp

/-!
# The stream of a monitor

Which commands of the other clients a monitor is shown, and what their lines look like on the wire.
-/

namespace FerrumKv

open Connection

/-- A simple string: a line after its mark, and the only line break behind it. -/
def IsSimpleString (bytes : Bytes) : Prop := ∃ line, Resp.Line line ∧ bytes = 43 :: (line ++ crlf)

/-- The bytes that the text of a socket address can have. -/
def addressBytes : Bytes := text "0123456789abcdef.:[]%"

/-- The byte strings of a client that a command carries, without a password, which is masked. -/
def Protocol.Command.payloads : Protocol.Command → List Bytes
  | .set key value | .setNx key value | .append key value => [key, value]
  | .mSet pairs => pairs.flatMap fun p => [p.1, p.2]
  | .mGet keys | .del keys | .existsMany keys => keys
  | .incrBy key _ | .incrByFloat key _ | .get key | .strLen key | .expire key _ | .pExpire key _
  | .pExpireAt key _ | .persist key | .ttl key | .pTtl key | .memoryUsage key => [key]
  | .ping (some msg) => [msg]
  | .info (some part) => [part]
  | .config sub args | .slowLog sub args => sub :: args
  | .ping none | .info none | .dbSize | .flushDb | .auth _ | .rewriteAof | .monitor | .hello _ => []

def Server.message (r : Reading) (cmd : Protocol.Command) : MonitorMessage :=
  ⟨r.monitorMs, r.client.getD unspecifiedPeer, cmd.argsRedacted r.env.float⟩

namespace Hub

/-- Whether the read loop answers a command of a connection itself. -/
def ofConnection : Protocol.Command → Bool
  | .auth _ | .hello _ | .monitor => true
  | _ => false

/-- The command that an event shows to the monitors, with what it reads. -/
def shown (h : Hub) : Event Protocol.Command → Option (Reading × Protocol.Command)
  | .request c r cmd =>
    if h.refuses c || ofConnection cmd || Server.monitorMeta cmd then none else some (r, cmd)
  | .dashboard r cmd =>
    if Server.monitorMeta cmd then none else some ({ r with client := none }, cmd)
  | .connect _ | .hangUp _ => none

def shownIn : Hub → List (Event Protocol.Command) → List (Reading × Protocol.Command)
  | _, [] => []
  | h, e :: events => (h.shown e).toList ++ shownIn (h.step e) events

/-- The client of a command is a socket address, and its numbers are printed on one line. -/
def Event.Addressed : Event Protocol.Command → Prop
  | .request _ r _ | .dashboard r _ =>
    (∀ peer, r.client = some peer → peer ⊆ addressBytes)
      ∧ ∀ x, Resp.Line (r.env.float.render x)
  | .connect _ | .hangUp _ => True

end Hub

end FerrumKv
