import FerrumKv.Session
import Mathlib.Logic.Function.Basic

/-!
# Passwords and what operators are shown

The server with all its connections and the dashboard as one system; two runs of it, side by side,
that differ in the passwords of `AUTH` and `CONFIG SET requirepass` alone; and what the monitors,
the slow log and `CONFIG GET` show of each.
-/

namespace FerrumKv

open Connection

/-! ## All connections -/

/-- What the read loop keeps of a connection between its requests. -/
structure Conn where
  authed : Bool := false
  version : ProtocolVersion := .resp2
  channel : Option ℕ := none
  deriving DecidableEq

structure Hub where
  server : Server
  conn : ℕ → Conn

namespace Hub

def start (server : Server) : Hub := ⟨server, fun _ => {}⟩

/-- A connection is opened; a command arrives on one; a command arrives from the dashboard; the
receiver of a channel goes away. -/
inductive Event (κ : Type)
  | connect (c : ℕ)
  | request (c : ℕ) (r : Reading) (cmd : κ)
  | dashboard (r : Reading) (cmd : κ)
  | hangUp (channel : ℕ)

def Event.map {κ μ : Type} (f : κ → μ) : Event κ → Event μ
  | .connect c => .connect c
  | .request c r cmd => .request c r (f cmd)
  | .dashboard r cmd => .dashboard r (f cmd)
  | .hangUp channel => .hangUp channel

def session (h : Hub) (c : ℕ) : Session where
  server := h.server
  handled := 0
  authed := (h.conn c).authed
  version := (h.conn c).version
  sent := []
  channel := (h.conn c).channel

def handle (h : Hub) (c : ℕ) (r : Reading) (cmd : Protocol.Command) : Session :=
  ((h.session c).handleCommand r cmd).1

/-- The dashboard's commands have no client and are answered in the default version. -/
def console (h : Hub) (r : Reading) (cmd : Protocol.Command) : Bytes × Server :=
  h.server.executeCommand { r with client := none } .resp2 cmd

/-- A connection that monitors has left the read loop. -/
def step (h : Hub) : Event Protocol.Command → Hub
  | .connect c => { h with conn := Function.update h.conn c {} }
  | .request c r cmd =>
    if (h.conn c).channel.isSome then h
    else
      let x := h.handle c r cmd
      ⟨x.server, Function.update h.conn c ⟨x.authed, x.version, x.channel⟩⟩
  | .dashboard r cmd => { h with server := (h.console r cmd).2 }
  | .hangUp channel =>
    { h with
      server := { h.server with
        monitors := h.server.monitors.map fun m =>
          if m.channel = channel then { m with live := false } else m } }

def run (h : Hub) (events : List (Event Protocol.Command)) : Hub := events.foldl step h

def reply (h : Hub) : Event Protocol.Command → Bytes
  | .request c r cmd => if (h.conn c).channel.isSome then [] else (h.handle c r cmd).sent
  | .dashboard r cmd => (h.console r cmd).1
  | _ => []

/-- Whether a request on the connection is not executed. -/
def refuses (h : Hub) (c : ℕ) : Bool :=
  (h.conn c).channel.isSome || (h.server.authRequired && !(h.conn c).authed)

end Hub

/-! ## Two runs -/

/-- The commands of two runs at one place: the same, or different in the password alone. -/
inductive TwinCommand
  | same (cmd : Protocol.Command)
  | auth (password password' : Bytes)
  | requirepass (param value value' : Bytes) (named : asciiLowercase param = text "requirepass")

namespace TwinCommand

def first : TwinCommand → Protocol.Command
  | .same cmd => cmd
  | .auth password _ => .auth password
  | .requirepass param value _ _ => .config (text "SET") [param, value]

def second : TwinCommand → Protocol.Command
  | .same cmd => cmd
  | .auth _ password' => .auth password'
  | .requirepass param _ value' _ => .config (text "SET") [param, value']

end TwinCommand

namespace Hub

def first (server : Server) (events : List (Event TwinCommand)) : Hub :=
  (start server).run (events.map (·.map TwinCommand.first))

def second (server : Server) (events : List (Event TwinCommand)) : Hub :=
  (start server).run (events.map (·.map TwinCommand.second))

/-- An `AUTH` has the same outcome in both runs. -/
def SameOutcome (h h' : Hub) : Event TwinCommand → Prop
  | .request c _ cmd =>
    (h.conn c).channel = none → ∀ password password', cmd.first = .auth password →
      cmd.second = .auth password' →
        h.server.authenticate password = h'.server.authenticate password'
  | _ => True

/-- The monitors have been sent the same, the slow log holds the same, and every `CONFIG GET` would
be answered with the same bytes. -/
def SameView (h h' : Hub) : Prop :=
  h.server.monitors = h'.server.monitors ∧ h.server.slowlog = h'.server.slowlog
    ∧ ∀ version pattern, h.server.configGet version pattern = h'.server.configGet version pattern

end Hub

namespace Server

/-- Whether a password is set after `CONFIG SET requirepass value`. -/
def setsPassword (s : Server) (value : Bytes) : Bool :=
  if Utf8.valid value then decide (value ≠ []) else s.authRequired

/-- No monitor listens, the command is too fast for the slow log, and the two values leave a
password set or leave none. -/
def Hides (s : Server) (r : Reading) (value value' : Bytes) : Prop :=
  (∀ m ∈ s.monitors, m.live = false) ∧ s.slowlogWouldLog r.elapsedUs = false
    ∧ s.setsPassword value = s.setsPassword value'

end Server

/-- A `CONFIG SET requirepass` that is executed with different values shows none of them. -/
def Hub.Discreet (h : Hub) : Hub.Event TwinCommand → Prop
  | .request c r (.requirepass _ value value' _) =>
    value = value' ∨ h.refuses c = true ∨ h.server.Hides r value value'
  | .dashboard r (.requirepass _ value value' _) => value = value' ∨ h.server.Hides r value value'
  | _ => True

end FerrumKv
