import FerrumKv.Lib.Framing
import FerrumKv.Parser

/-!
# A client connection

The read loop of `handle_client`: every read is appended to the buffer, complete requests are taken
off its front and handled one by one, a request that is not a command is answered and skipped, and
bytes that cannot be a request close the connection, as does a rest above the limit.
-/

namespace FerrumKv.Connection

open Protocol

/-- Upper bound on the unparsed bytes that are kept. -/
def readBufMax : ℕ := valueMaxBytes + 1024 * 1024

/-- A request: a command, or why it is none. -/
abbrev Frame := Except CommandError Protocol.Command

/-- The parser as the read loop sees it. -/
def verdict (float : FloatOps) (buf : Bytes) : Framing.Verdict Frame Failure :=
  match parseFrame float buf with
  | .ok (.complete command consumed) => .item (.ok command) consumed
  | .ok (.invalid error consumed) => .item (.error error) consumed
  | .ok .incomplete => .more
  | .error e => .stop e

/-- The read loop over what the successive reads return; `none` is a loop that does not end. The
connection is left with the unparsed rest, or closed. -/
def serve {σ : Type} (float : FloatOps) (h : Framing.Handler Frame Failure σ) (s : σ)
    (reads : List Bytes) : Option (σ × Option Bytes) :=
  Framing.feedAll (verdict float) h readBufMax reads (s, some [])

inductive Outcome
  | command (c : Protocol.Command)
  | invalid (e : CommandError)
  | protocolError (e : Failure)
  | tooLarge
  deriving DecidableEq, Repr

/-- Notes what is handled. A `MONITOR` leaves the loop. -/
def recorder : Framing.Handler Frame Failure (List Outcome) where
  item outcomes frame :=
    match frame with
    | .ok c => (outcomes ++ [.command c], decide (c ≠ .monitor))
    | .error e => (outcomes ++ [.invalid e], true)
  stop outcomes e := outcomes ++ [.protocolError e]
  overflow outcomes := outcomes ++ [.tooLarge]

/-- What a connection handles, in order, and the unparsed rest unless it was closed. -/
def outcomes (float : FloatOps) (reads : List Bytes) : Option (List Outcome × Option Bytes) :=
  serve float recorder [] reads

end FerrumKv.Connection
