import FerrumKv.MonitorStream
import Mathlib.Logic.Function.Basic

/-!
# Clients that enter `MONITOR` while others run commands

A client that monitors is answered with `+OK` first and subscribes then. A command of another client
looks for subscribers after it began, and sends its message to all of them later. Each of these is a
step that others can come between.
-/

namespace FerrumKv

/-- Where a client stands that enters `MONITOR`: `acknowledged` is the time between `+OK` and the
subscription. -/
inductive MonitorPhase
  | connected
  | acknowledged
  | subscribed (channel : ℕ)

/-- Where a command stands: not begun, begun, with subscribers found, and past the broadcast. -/
inductive CommandPhase
  | waiting
  | begun
  | found
  | passed
  deriving DecidableEq, Repr

/-- The server, the clients that monitor and the commands. `received` are the commands whose
messages were sent to a monitor, in order; no step reads it. -/
structure MonitorSystem where
  server : Server
  monitor : ℕ → MonitorPhase
  command : ℕ → CommandPhase
  received : ℕ → List ℕ

inductive MonitorEvent
  | acknowledge (m : ℕ)
  | subscribe (m : ℕ)
  | start (c : ℕ)
  | check (c : ℕ)
  | send (c : ℕ)
  deriving DecidableEq, Repr

namespace MonitorSystem

def start (server : Server) : MonitorSystem where
  server := server
  monitor _ := .connected
  command _ := .waiting
  received _ := []

def Subscribed (s : MonitorSystem) (m : ℕ) : Prop := ∃ channel, s.monitor m = .subscribed channel

/-- What the monitors received once a command is sent. -/
def receivedAfter (s : MonitorSystem) (c m : ℕ) : List ℕ :=
  match s.monitor m with
  | .subscribed _ => s.received m ++ [c]
  | _ => s.received m

def advance (s : MonitorSystem) (c : ℕ) (p : CommandPhase) : MonitorSystem :=
  { s with command := Function.update s.command c p }

/-- A step of a client or a command that is not where the event takes it from does nothing. -/
def step (calls : ℕ → Reading × Protocol.Command) (s : MonitorSystem) : MonitorEvent → MonitorSystem
  | .acknowledge m =>
    match s.monitor m with
    | .connected => { s with monitor := Function.update s.monitor m .acknowledged }
    | _ => s
  | .subscribe m =>
    match s.monitor m with
    | .acknowledged =>
      { s with
        server := s.server.subscribe
        monitor := Function.update s.monitor m (.subscribed s.server.channels) }
    | _ => s
  | .start c =>
    match s.command c with
    | .waiting =>
      { s.advance c .begun with
        server := { s.server with totalCommands := s.server.totalCommands + 1 } }
    | _ => s
  | .check c =>
    match s.command c with
    | .begun =>
      if Server.monitorMeta (calls c).2 = false ∧ s.server.monitors ≠ [] then s.advance c .found
      else s.advance c .passed
    | _ => s
  | .send c =>
    match s.command c with
    | .found =>
      { s.advance c .passed with
        server := s.server.broadcast (Server.message (calls c).1 (calls c).2)
        received := s.receivedAfter c }
    | _ => s

def run (calls : ℕ → Reading × Protocol.Command) (s : MonitorSystem) (events : List MonitorEvent) :
    MonitorSystem := events.foldl (step calls) s

/-- The command began after `+OK` was written to the monitor. -/
def BeginsAfter (calls : ℕ → Reading × Protocol.Command) (s : MonitorSystem)
    (events : List MonitorEvent) (m c : ℕ) : Prop :=
  ∃ n, events[n]? = some (.start c) ∧ (s.run calls (events.take n)).command c = .waiting
    ∧ (s.run calls (events.take n)).monitor m ≠ .connected

/-- When the command looks for subscribers there is one, and when it is sent the monitor is one. -/
def InTime (calls : ℕ → Reading × Protocol.Command) (s : MonitorSystem)
    (events : List MonitorEvent) (m c : ℕ) : Prop :=
  (∀ n, events[n]? = some (.check c) → (s.run calls (events.take n)).command c = .begun →
      (s.run calls (events.take n)).server.monitors ≠ [])
    ∧ ∀ n, events[n]? = some (.send c) → (s.run calls (events.take n)).command c = .found →
      (s.run calls (events.take n)).Subscribed m

end MonitorSystem

end FerrumKv
