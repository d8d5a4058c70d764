import FerrumKv.Atomics
import FerrumKv.Session
import FerrumKv.Shutdown

/-!
# The server from its first connection to its shutdown

The accept loop, the task of every connection and the shutdown signal as one system. The accept loop
and the tasks race the signal against the listener, a read or a monitor's channel, and poll the
signal first. Each access to the signal, each read, each request and each write is a step, and the
tasks take their steps in any order. When the accept loop has left, `run_listener` shuts the runtime
down, which drops tasks at their awaits. A slot is taken and given back in one step.
-/

namespace FerrumKv

open Connection

/-- Reply bytes above which a batch is written before the next request is taken. -/
def writeBatchMax : ℕ := 64 * 1024

/-- Where the accept loop stands: polling the signal, polling the listener, with a connection before
the flag is read again, before a slot is asked for, or left. -/
inductive AcceptPc
  | select (w : Wait)
  | listening (calls : ℕ)
  | accepted
  | checked
  | left
  deriving DecidableEq, Repr

/-- Where the task of a connection stands. In `handle_client`: at the head of the loop, polling the
signal, polling the socket, taking requests off the buffer, writing a batch, writing the replies of
a read, writing a last reply, writing the `+OK` of a monitor, and about to subscribe. In
`run_monitor_loop`: polling the signal and polling the channel. At the end: before the guard is
dropped, and after. -/
inductive ClientPc
  | unborn
  | top
  | select (w : Wait)
  | reading (calls : ℕ)
  | draining
  | batch
  | flushing
  | lastWrite
  | subscribing
  | welcomed
  | monitoring (w : Wait)
  | receiving (calls : ℕ)
  | closing
  | gone
  deriving DecidableEq, Repr

def ClientPc.holds : ClientPc → Bool
  | .unborn | .gone => false
  | _ => true

/-- Whether the task has nothing to write before it waits or ends. -/
def ClientPc.settled : ClientPc → Bool
  | .draining | .batch | .flushing | .lastWrite | .subscribing => false
  | _ => true

/-- Whether the task can be dropped: not yet polled, or at an await. While it takes requests off the
buffer it awaits those that it hands to the blocking pool. -/
def ClientPc.awaits : ClientPc → Bool
  | .unborn | .welcomed | .closing | .gone => false
  | _ => true

/-- A task with its connection. `broken` says that a write failed, or that the task panicked or was
dropped before it had written its replies. The bytes put into the reply buffer, those written and
the number of reads are history that no step reads. -/
structure Client where
  pc : ClientPc := .unborn
  authed : Bool := false
  version : ProtocolVersion := .resp2
  inbuf : Bytes := []
  outbuf : Bytes := []
  channel : Option ℕ := none
  taken : ℕ := 0
  broken : Bool := false
  produced : Bytes := []
  written : Bytes := []
  reads : ℕ := 0

namespace Client

def emit (x : Client) (reply : Bytes) : Client :=
  { x with outbuf := x.outbuf ++ reply, produced := x.produced ++ reply }

/-- A request is done with; a full reply buffer is written before the next one. -/
def consume (x : Client) (n : ℕ) : Client :=
  { x with
    inbuf := x.inbuf.drop n
    pc := if writeBatchMax ≤ x.outbuf.length then .batch else .draining }

def flush (x : Client) (pc : ClientPc) : Client :=
  { x with outbuf := [], written := x.written ++ x.outbuf, pc := pc }

/-- A write goes no further than its first `sent` bytes, or the task panics. -/
def fail (x : Client) (sent : ℕ) : Client :=
  { x with pc := .closing, broken := true, written := x.written ++ x.outbuf.take sent }

/-- The task is dropped where it writes nothing. -/
def leave (x : Client) : Client := { x with pc := .closing, broken := x.broken || !x.pc.settled }

end Client

structure Lifecycle where
  maxClients : UInt64
  debug : DebugText
  signal : Shutdown
  triggering : ℕ → Bool
  returned : ℕ
  acceptor : AcceptPc
  active : UInt64
  nextClient : ℕ
  client : ℕ → Client
  server : Server

namespace Lifecycle

def start (notify : Notify) (maxClients : UInt64) (debug : DebugText) (server : Server) :
    Lifecycle where
  maxClients := maxClients
  debug := debug
  signal := { notify := notify }
  triggering _ := false
  returned := 0
  acceptor := .select .fresh
  active := 0
  nextClient := 0
  client _ := {}
  server := server

def setClient (s : Lifecycle) (c : ℕ) (x : Client) : Lifecycle :=
  { s with client := Function.update s.client c x }

def goto (s : Lifecycle) (c : ℕ) (pc : ClientPc) : Lifecycle :=
  s.setClient c { s.client c with pc := pc }

/-- The next step of the accept loop. A client without a slot is sent an error and dropped. -/
def stepAcceptor (s : Lifecycle) : Lifecycle :=
  match s.acceptor with
  | .select w =>
    match w, w.poll s.signal with
    | _, .resolved => { s with acceptor := .left }
    | .parked _, .parked calls => { s with acceptor := .listening calls }
    | _, w => { s with acceptor := .select w }
  | .listening calls => { s with acceptor := .select (.parked calls) }
  | .accepted => { s with acceptor := if s.signal.isTriggered then .left else .checked }
  | .checked =>
    match slotUpdate s.maxClients .acquire s.active with
    | none => { s with acceptor := .select .fresh }
    | some active =>
      { s.setClient s.nextClient { pc := .top } with
        acceptor := .select .fresh, active := active, nextClient := s.nextClient + 1 }
  | .left => s

/-! ## Connections -/

def session (s : Lifecycle) (c : ℕ) : Session where
  server := s.server
  handled := 0
  authed := (s.client c).authed
  version := (s.client c).version
  sent := []
  channel := none

def drain (s : Lifecycle) (c : ℕ) (r : Reading) : Lifecycle :=
  let x := s.client c
  match verdict r.env.float x.inbuf with
  | .more => s.goto c .flushing
  | .item (.ok .monitor) _ => s.setClient c { x.emit Server.ok with pc := .subscribing }
  | .item (.ok cmd) n =>
    let y := ((s.session c).handleCommand r cmd).1
    let x := { x with authed := y.authed, version := y.version }
    { s.setClient c ((x.emit y.sent).consume n) with server := y.server }
  | .item (.error e) n => s.setClient c ((x.emit (writeFerrumError (.ofCommand e))).consume n)
  | .stop (.fault e) =>
    s.setClient c { x.emit (Session.failureReply s.debug (.fault e)) with pc := .lastWrite }
  | .stop .panic => s.setClient c (x.fail 0)

/-- The end of a read: a rest that is too long is answered and ends the connection. -/
def afterFlush (x : Client) : Client :=
  if readBufMax < x.inbuf.length then { x.emit Session.tooLarge with pc := .lastWrite }
  else { x with pc := .top }

/-- The next message of the client's channel. -/
def message (s : Lifecycle) (c : ℕ) : Option MonitorMessage :=
  (s.client c).channel.bind fun channel =>
    (s.server.monitors.find? (·.channel = channel)).bind fun m => m.inbox[(s.client c).taken]?

/-- The client with the line of the message. -/
def taking (x : Client) (msg : MonitorMessage) : Client :=
  { x.emit (Session.monitorLine msg) with taken := x.taken + 1 }

/-- The registry when the receiver of a channel is gone. -/
def hangUp (server : Server) (channel : Option ℕ) : Server :=
  { server with
    monitors := server.monitors.map fun m =>
      if channel = some m.channel then { m with live := false } else m }

/-- The next step of a task; a write that the step makes succeeds. -/
def stepClient (s : Lifecycle) (c : ℕ) (r : Reading) : Lifecycle :=
  let x := s.client c
  match x.pc with
  | .unborn | .gone => s
  | .top => s.goto c (if s.signal.isTriggered then .closing else .select .fresh)
  | .select w =>
    match w, w.poll s.signal with
    | _, .resolved => s.goto c .closing
    | .parked _, .parked calls => s.goto c (.reading calls)
    | _, w => s.goto c (.select w)
  | .reading calls => s.goto c (.select (.parked calls))
  | .draining => s.drain c r
  | .batch => s.setClient c (x.flush .draining)
  | .flushing => s.setClient c (afterFlush (x.flush .top))
  | .lastWrite => s.setClient c (x.flush .closing)
  | .subscribing => s.setClient c (x.flush .welcomed)
  | .welcomed =>
    { s.setClient c { x with pc := .monitoring .fresh, channel := some s.server.channels } with
      server := s.server.subscribe }
  | .monitoring w =>
    match w, w.poll s.signal with
    | _, .resolved => s.goto c .closing
    | .parked _, .parked calls => s.goto c (.receiving calls)
    | _, w => s.goto c (.monitoring w)
  | .receiving calls =>
    match s.message c with
    | some msg => s.setClient c ((taking x msg).flush (.monitoring .fresh))
    | none => s.goto c (.monitoring (.parked calls))
  | .closing =>
    { s.goto c .gone with
      active := s.active - 1
      server := hangUp s.server x.channel }

/-- Whether the task is about to write something. -/
def writes (s : Lifecycle) (c : ℕ) : Bool :=
  match (s.client c).pc with
  | .batch | .flushing => !(s.client c).outbuf.isEmpty
  | .lastWrite | .subscribing => true
  | .receiving _ => (s.message c).isSome
  | _ => false

/-- The client as it is during the write. -/
def writing (s : Lifecycle) (c : ℕ) : Client :=
  match (s.client c).pc, s.message c with
  | .receiving _, some msg => taking (s.client c) msg
  | _, _ => s.client c

/-- The client when its task is dropped, in a write of which `sent` bytes had gone out or outside of
one. -/
def dropped (s : Lifecycle) (c : ℕ) (sent : Option ℕ) : Client :=
  match sent with
  | some n => if s.writes c then (s.writing c).fail n else (s.client c).leave
  | none => (s.client c).leave

/-- The server when the task is dropped: a request that was with the blocking pool is executed if
the pool had begun with it. -/
def executed (s : Lifecycle) (c : ℕ) (begun : Option Reading) : Server :=
  match (s.client c).pc, begun with
  | .draining, some r => (s.drain c r).server
  | _, _ => s.server

/-! ## Steps -/

/-- A caller of `trigger` makes the next half of its call; the accept loop takes its next step; the
listener it polls has a connection, or fails; a task takes its next step; the socket it polls has
bytes, or has ended, failed or been idle for too long; a write that it is about to make fails after
some bytes; the runtime, which is shut down when the accept loop has left, drops it; the dashboard
executes a command. -/
inductive Event
  | trigger (t : ℕ)
  | acceptor
  | connect
  | acceptFails
  | client (c : ℕ) (r : Reading)
  | arrives (c : ℕ) (bytes : Bytes)
  | ends (c : ℕ)
  | writeFails (c : ℕ) (sent : ℕ)
  | drops (c : ℕ) (sent : Option ℕ) (begun : Option Reading)
  | console (r : Reading) (cmd : Protocol.Command)

def step (s : Lifecycle) : Event → Lifecycle
  | .trigger t =>
    if s.triggering t then
      { s with
        signal := s.signal.notifyWaiters
        triggering := Function.update s.triggering t false
        returned := s.returned + 1 }
    else
      { s with signal := s.signal.store, triggering := Function.update s.triggering t true }
  | .acceptor => s.stepAcceptor
  | .connect =>
    match s.acceptor with
    | .listening _ => { s with acceptor := .accepted }
    | _ => s
  | .acceptFails =>
    match s.acceptor with
    | .listening _ => { s with acceptor := .select .fresh }
    | _ => s
  | .client c r => s.stepClient c r
  | .arrives c bytes =>
    match (s.client c).pc with
    | .reading _ =>
      s.setClient c
        { s.client c with
          pc := .draining, inbuf := (s.client c).inbuf ++ bytes, reads := (s.client c).reads + 1 }
    | _ => s
  | .ends c =>
    match (s.client c).pc with
    | .reading _ => s.goto c .closing
    | _ => s
  | .writeFails c sent => if s.writes c then s.setClient c ((s.writing c).fail sent) else s
  | .drops c sent begun =>
    if s.acceptor = .left ∧ (s.client c).pc.awaits = true then
      { s.setClient c (s.dropped c sent) with server := s.executed c begun }
    else s
  | .console r cmd =>
    { s with server := (s.server.executeCommand { r with client := none } .resp2 cmd).2 }

def run (s : Lifecycle) (events : List Event) : Lifecycle := events.foldl step s

def Event.ofAcceptor : Event → Bool
  | .acceptor => true
  | _ => false

def Event.ofClient (c : ℕ) : Event → Bool
  | .client c' _ => decide (c' = c)
  | _ => false

/-- Whether an event leaves the signal alone and sends no monitor anything from outside. -/
def Event.silent : Event → Bool
  | .trigger _ | .console _ _ => false
  | _ => true

/-- The task is a monitor that has nothing to send. -/
def IdleMonitor (s : Lifecycle) (c : ℕ) : Prop :=
  ((∃ w, (s.client c).pc = .monitoring w) ∨ ∃ n, (s.client c).pc = .receiving n)
    ∧ s.message c = none

def holders (s : Lifecycle) : ℕ :=
  (List.range s.nextClient).countP fun c => (s.client c).pc.holds

end Lifecycle

end FerrumKv
