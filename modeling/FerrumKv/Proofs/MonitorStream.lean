import FerrumKv.MonitorStream
import FerrumKv.Proofs.Credentials
import FerrumKv.Proofs.Frame
import FerrumKv.Proofs.Server

/-!
# The lines of a monitor, and who breaks them

A monitor is sent one message for every command that is shown while it listens, in order. The
arguments stand in its line as they were sent, between quotes: the line is one simple string exactly
if no key, value or other byte string of the client has a CR or an LF in it
(`monitor_stream_framed`). A client that sends one writes lines of its own into the stream
(`monitor_line_injected`).
-/

namespace FerrumKv

open Connection
open Resp (Line line_append_iff line_intercalate_iff)

namespace Server

/-- Every channel was created by the registry. -/
def Fresh (s : Server) : Prop := ∀ m ∈ s.monitors, m.channel < s.channels

/-- The subscriber of the channel is listening, and was sent the messages. -/
def Listens (s : Server) (channel : ℕ) (msgs : List MonitorMessage) : Prop :=
  s.monitors.find? (·.channel = channel) = some ⟨channel, true, msgs⟩

def forsake (s : Server) (channel : ℕ) : Server :=
  { s with
    monitors := s.monitors.map fun m =>
      if m.channel = channel then { m with live := false } else m }

section Registry

variable {s s' : Server} {channel : ℕ} {msgs : List MonitorMessage}

theorem announce_registry (s : Server) (r : Reading) (cmd : Protocol.Command) :
    (s.announce r cmd).registry
      = if monitorMeta cmd then s.registry else (s.broadcast (message r cmd)).registry := by
  unfold announce
  simp only []
  by_cases hmeta : monitorMeta cmd = true
  · rw [if_neg fun h => Bool.false_ne_true (h.1.symm.trans hmeta), if_pos hmeta]
    rfl
  · rw [if_neg hmeta]
    by_cases hnone : s.monitors = []
    · rw [if_neg fun h => h.2 hnone]
      simp [registry, broadcast, hnone]
    · rw [if_pos ⟨by simpa using hmeta, hnone⟩]
      rfl

theorem Fresh.of_registry (h : s.Fresh) (hs : s'.registry = s.registry) : s'.Fresh := by
  obtain ⟨hm, hc⟩ := Prod.mk.inj hs
  unfold Fresh
  rw [hm, hc]
  exact h

theorem Listens.of_registry (h : s.Listens channel msgs) (hs : s'.registry = s.registry) :
    s'.Listens channel msgs := by
  unfold Listens
  rw [(Prod.mk.inj hs).1]
  exact h

theorem Fresh.broadcast (h : s.Fresh) (msg : MonitorMessage) : (s.broadcast msg).Fresh := by
  intro m hm
  obtain ⟨m', hm', rfl⟩ := List.mem_map.1 hm
  exact h m' (List.mem_filter.1 hm').1

theorem Fresh.subscribe (h : s.Fresh) : s.subscribe.Fresh := by
  intro m hm
  rcases List.mem_append.1 hm with hm | hm
  · exact Nat.lt_succ_of_lt (h m hm)
  · rw [List.mem_singleton.1 hm]
    exact Nat.lt_succ_self _

theorem Fresh.forsake (h : s.Fresh) (channel : ℕ) : (s.forsake channel).Fresh := by
  intro m hm
  obtain ⟨m', hm', rfl⟩ := List.mem_map.1 hm
  split_ifs
  · exact h m' hm'
  · exact h m' hm'

theorem listens_subscribe (h : s.Fresh) : s.subscribe.Listens s.channels [] := by
  have hnew : s.monitors.find? (·.channel = s.channels) = none :=
    List.find?_eq_none.2 fun m hm => by
      have := h m hm
      simp only [decide_eq_true_eq]
      omega
  unfold Listens Server.subscribe
  rw [List.find?_append, hnew]
  simp

theorem Listens.broadcast (h : s.Listens channel msgs) (msg : MonitorMessage) :
    (s.broadcast msg).Listens channel (msgs ++ [msg]) := by
  obtain ⟨hp, before, after, hsplit, hbefore⟩ := List.find?_eq_some_iff_append.1 h
  unfold Listens Server.broadcast
  simp only []
  rw [hsplit, List.find?_map, List.filter_append, List.filter_cons_of_pos rfl, List.find?_append]
  have hnone : (before.filter (·.live)).find? ((fun m : Monitor => decide (m.channel = channel)) ∘
      fun m => { m with inbox := m.inbox ++ [msg] }) = none :=
    List.find?_eq_none.2 fun m hm => by simpa using hbefore m (List.mem_filter.1 hm).1
  rw [hnone]
  simp

theorem Listens.subscribe (h : s.Listens channel msgs) : s.subscribe.Listens channel msgs := by
  unfold Listens Server.subscribe
  rw [List.find?_append, h]
  rfl

theorem Listens.forsake {gone : ℕ} (h : s.Listens channel msgs) (hne : gone ≠ channel) :
    (s.forsake gone).Listens channel msgs := by
  have hcomp : ((fun m : Monitor => decide (m.channel = channel)) ∘ fun m =>
      if m.channel = gone then { m with live := false } else m)
      = fun m => decide (m.channel = channel) := by
    funext m
    simp only [Function.comp]
    split_ifs <;> rfl
  unfold Listens Server.forsake
  simp only []
  rw [List.find?_map, hcomp, h]
  simp [hne.symm]

end Registry

end Server

namespace Hub

/-- What an event does to the registry. -/
inductive Registers (h : Hub) (e : Event Protocol.Command) : Server → Prop
  | shows {q : Reading × Protocol.Command} (hq : h.shown e = some q) :
      Registers h e (h.server.broadcast (Server.message q.1 q.2))
  | enters (hq : h.shown e = none) : Registers h e h.server.subscribe
  | hangsUp (hq : h.shown e = none) {channel : ℕ} (he : e = .hangUp channel) :
      Registers h e (h.server.forsake channel)
  | keeps (hq : h.shown e = none) : Registers h e h.server

theorem gated_of_ofConnection {cmd : Protocol.Command} (h : ofConnection cmd = false) :
    Session.Gated cmd := by
  cases cmd
  case auth | hello | monitor => exact (Bool.false_ne_true h.symm).elim
  all_goals trivial

/-- A command that the read loop answers itself changes the registry only if it is `MONITOR`. -/
theorem handle_ofConnection (h : Hub) (c : ℕ) (r : Reading) {cmd : Protocol.Command}
    (hcmd : ofConnection cmd = true) :
    (h.handle c r cmd).server = h.server ∨ (h.handle c r cmd).server = h.server.subscribe := by
  cases cmd with
  | auth password =>
    left
    show ((h.session c).authReply password).server = h.server
    unfold Session.authReply
    split <;> rfl
  | hello v => exact .inl rfl
  | monitor => exact .inr rfl
  | _ => exact (Bool.false_ne_true hcmd).elim

theorem registers_executed {h : Hub} {e : Event Protocol.Command} {r : Reading}
    {version : ProtocolVersion} {cmd : Protocol.Command}
    (hq : h.shown e = if Server.monitorMeta cmd then none else some (r, cmd)) :
    ∃ s, Registers h e s ∧ (h.server.executeCommand r version cmd).2.registry = s.registry := by
  rw [Server.executeCommand_registry, Server.announce_registry]
  split_ifs at hq ⊢ with hmeta
  · exact ⟨_, .keeps hq, rfl⟩
  · exact ⟨_, .shows hq, rfl⟩

theorem step_registers (h : Hub) (e : Event Protocol.Command) :
    ∃ s, Registers h e s ∧ (h.step e).server.registry = s.registry := by
  cases e with
  | connect c => exact ⟨_, .keeps rfl, rfl⟩
  | hangUp channel => exact ⟨_, .hangsUp rfl rfl, rfl⟩
  | dashboard r cmd => exact registers_executed rfl
  | request c r cmd =>
    by_cases hown : ofConnection cmd = true
    · have hnone : h.shown (.request c r cmd) = none := by simp [shown, hown]
      simp only [step]
      split_ifs
      · exact ⟨_, .keeps hnone, rfl⟩
      · rcases h.handle_ofConnection c r hown with hs | hs
        · exact ⟨_, .keeps hnone, congrArg Server.registry hs⟩
        · exact ⟨_, .enters hnone, congrArg Server.registry hs⟩
    · rw [step_gated (gated_of_ofConnection (by simpa using hown))]
      split_ifs with hrefused
      · exact ⟨_, .keeps (by simp [shown, hrefused]), rfl⟩
      · exact registers_executed (by simp [shown, hrefused, hown])

theorem fresh_step {h : Hub} (hf : h.server.Fresh) (e : Event Protocol.Command) :
    (h.step e).server.Fresh := by
  obtain ⟨s, hs, heq⟩ := h.step_registers e
  cases hs with
  | shows => exact (hf.broadcast _).of_registry heq
  | enters => exact hf.subscribe.of_registry heq
  | hangsUp => exact (hf.forsake _).of_registry heq
  | keeps => exact hf.of_registry heq

theorem fresh_run {h : Hub} (hf : h.server.Fresh) (events : List (Event Protocol.Command)) :
    (h.run events).server.Fresh :=
  @Runs.foldl_invariant _ _ step (·.server.Fresh) (fun _ e hf => fresh_step hf e) events h hf

theorem listens_step {h : Hub} {channel : ℕ} {msgs : List MonitorMessage}
    (hl : h.server.Listens channel msgs) {e : Event Protocol.Command}
    (he : e ≠ .hangUp channel) :
    (h.step e).server.Listens channel
      (msgs ++ (h.shown e).toList.map fun q => Server.message q.1 q.2) := by
  obtain ⟨s, hs, heq⟩ := h.step_registers e
  cases hs with
  | shows hq => simpa [hq] using (hl.broadcast _).of_registry heq
  | enters hq => simpa [hq] using hl.subscribe.of_registry heq
  | @hangsUp hq gone hgone =>
    have hne : gone ≠ channel := fun hc => he (hc ▸ hgone)
    simpa [hq] using (hl.forsake hne).of_registry heq
  | keeps hq => simpa [hq] using hl.of_registry heq

theorem listens_run {channel : ℕ} : ∀ (events : List (Event Protocol.Command)) {h : Hub}
    {msgs : List MonitorMessage}, h.server.Listens channel msgs → .hangUp channel ∉ events →
      (h.run events).server.Listens channel
        (msgs ++ (h.shownIn events).map fun q => Server.message q.1 q.2)
  | [], h, msgs, hl, _ => by simpa [shownIn, run] using hl
  | e :: events, h, msgs, hl, hstays => by
    rw [List.mem_cons, not_or] at hstays
    have hnext := listens_run events (listens_step hl (Ne.symm hstays.1)) hstays.2
    rw [shownIn, List.map_append, ← List.append_assoc]
    exact hnext

end Hub

theorem isSimpleString_iff (line : Bytes) : IsSimpleString (43 :: (line ++ crlf)) ↔ Line line := by
  constructor
  · rintro ⟨line', hline, heq⟩
    rw [List.cons.injEq, List.append_cancel_right_eq] at heq
    exact heq.2 ▸ hline
  · exact fun h => ⟨line, h, rfl⟩

theorem line_of_address {peer : Bytes} (h : peer ⊆ addressBytes) : Line peer :=
  ⟨fun hb => absurd (h hb) (by decide), fun hb => absurd (h hb) (by decide)⟩

theorem line_quoted_iff (arg : Bytes) : Line (Session.quoted arg) ↔ Line arg := by
  have hcr : (13 : UInt8) ∈ Utf8.lossy arg ↔ 13 ∈ arg := Utf8.mem_lossy (by decide) arg
  have hlf : (10 : UInt8) ∈ Utf8.lossy arg ↔ 10 ∈ arg := Utf8.mem_lossy (by decide) arg
  simp [Line, Session.quoted, hcr, hlf]

theorem isSimpleString_monitorLine_iff {msg : MonitorMessage} (hpeer : Line msg.peer) :
    IsSimpleString (Session.monitorLine msg) ↔ ∀ arg ∈ msg.args, Line arg := by
  have hsplit : Session.monitorLine msg
      = 43 :: ((i64ToString msg.timestampMs ++ text " [" ++ msg.peer ++ text "] "
          ++ List.intercalate (text " ") (msg.args.map Session.quoted)) ++ crlf) := by
    simp [Session.monitorLine]
  have hopen : Line (text " [") := by decide
  have hclose : Line (text "] ") := by decide
  have hblank : Line (text " ") := by decide
  have htime : Line (i64ToString msg.timestampMs) := Resp.line_ofInt _
  rw [hsplit, isSimpleString_iff]
  simp only [line_append_iff, line_intercalate_iff hblank, List.forall_mem_map, line_quoted_iff,
    htime, hopen, hpeer, hclose, true_and]

namespace Protocol.Command

theorem forall_line_cons {word : Bytes} (h : Line word) (args : List Bytes) :
    (∀ arg ∈ word :: args, Line arg) ↔ ∀ arg ∈ args, Line arg := by
  simp [h]

/-- The words and numbers of a command are lines, so its payloads decide. -/
theorem forall_line_argsRedacted_iff {float : FloatOps} (hfloat : ∀ x, Line (float.render x))
    (cmd : Protocol.Command) :
    (∀ arg ∈ cmd.argsRedacted float, Line arg) ↔ ∀ p ∈ cmd.payloads, Line p := by
  have hint : ∀ n, Line (i64ToString n) := fun n => Resp.line_ofInt _
  have hnat : ∀ n, Line (Decimal.ofNat n) := fun n => (Resp.digits_ofNat n).line
  cases cmd with
  | ping msg => cases msg <;> exact forall_line_cons (by decide) _
  | info part => cases part <;> exact forall_line_cons (by decide) _
  | hello v =>
    cases v with
    | none => exact forall_line_cons (by decide) _
    | some v => exact (forall_line_cons (by decide) _).trans (forall_line_cons (hnat _) _)
  | memoryUsage key =>
    exact (forall_line_cons (by decide) _).trans (forall_line_cons (by decide) _)
  | auth password =>
    exact (forall_line_cons (by decide) _).trans (forall_line_cons (by decide) _)
  | incrBy key n | expire key n | pExpire key n | pExpireAt key n =>
    exact (forall_line_cons (by decide) _).trans (by simp [payloads, hint])
  | incrByFloat key delta =>
    exact (forall_line_cons (by decide) _).trans (by simp [payloads, hfloat])
  | _ => exact forall_line_cons (by decide) _

end Protocol.Command

namespace Hub

theorem shown_addressed {h : Hub} {e : Event Protocol.Command} (haddr : e.Addressed)
    {q : Reading × Protocol.Command} (hq : h.shown e = some q) :
    Line (Server.message q.1 q.2).peer ∧ ∀ x, Line (q.1.env.float.render x) := by
  have hnone : Line unspecifiedPeer := by decide
  cases e with
  | connect | hangUp => cases hq
  | dashboard r cmd =>
    obtain ⟨-, ⟨⟩⟩ := Option.ite_none_left_eq_some.1 hq
    exact ⟨hnone, haddr.2⟩
  | request c r cmd =>
    obtain ⟨-, ⟨⟩⟩ := Option.ite_none_left_eq_some.1 hq
    refine ⟨?_, haddr.2⟩
    unfold Server.message
    cases hc : r.client with
    | none => exact hnone
    | some peer => exact line_of_address (haddr.1 peer hc)

theorem shownIn_addressed : ∀ {events : List (Event Protocol.Command)} {h : Hub},
    (∀ e ∈ events, e.Addressed) → ∀ q ∈ h.shownIn events,
      Line (Server.message q.1 q.2).peer ∧ ∀ x, Line (q.1.env.float.render x)
  | [], _, _, _, hq => (List.not_mem_nil hq).elim
  | e :: events, h, haddr, q, hq => by
    rw [List.forall_mem_cons] at haddr
    rcases List.mem_append.1 hq with hq | hq
    · exact shown_addressed haddr.1 (Option.mem_toList.1 hq)
    · exact shownIn_addressed haddr.2 q hq

theorem delivered_of_listens {m : Session} {s : Server} {channel : ℕ} {msgs : List MonitorMessage}
    (hm : m.channel = some channel) (h : s.Listens channel msgs) :
    m.delivered s = msgs.flatMap Session.monitorLine := by
  unfold Server.Listens at h
  simp [Session.delivered, hm, h]

/-- What a client that sent `MONITOR` is sent after its `+OK`, while it stays: one line for every
command that is shown, in order; and every line is one simple string exactly if no byte string of
the commands shown has a CR or an LF in it. -/
theorem monitor_stream_framed (server : Server) (hserver : server.monitors = [])
    (before after : List (Event Protocol.Command)) (c : ℕ) (r : Reading)
    (hreads : (((start server).run before).conn c).channel = none)
    (hstays : .hangUp ((start server).run before).server.channels ∉ after)
    (haddr : ∀ e ∈ after, e.Addressed) :
    let h := (start server).run before
    let m := h.handle c r .monitor
    let entered := h.step (.request c r .monitor)
    m.sent = Server.ok
      ∧ m.delivered (entered.run after).server
          = ((entered.shownIn after).map fun q =>
              Session.monitorLine (Server.message q.1 q.2)).flatten
      ∧ ((∀ q ∈ entered.shownIn after,
            IsSimpleString (Session.monitorLine (Server.message q.1 q.2)))
          ↔ ∀ q ∈ entered.shownIn after, ∀ p ∈ q.2.payloads, Line p) := by
  intro h m entered
  have hfresh : h.server.Fresh := fresh_run (by simp [start, Server.Fresh, hserver]) before
  have hentered : entered.server = h.server.subscribe := by
    show (h.step (.request c r .monitor)).server = _
    simp only [step]
    rw [if_neg (by simp [h, hreads])]
    rfl
  have hlistens : entered.server.Listens h.server.channels [] :=
    hentered ▸ Server.listens_subscribe hfresh
  have hinbox := listens_run after hlistens hstays
  refine ⟨rfl, ?_, forall₂_congr fun q hq => ?_⟩
  · rw [delivered_of_listens rfl hinbox, List.nil_append, List.flatMap_map, List.flatMap_def]
  · obtain ⟨hpeer, hfloat⟩ := shownIn_addressed haddr q hq
    rw [isSimpleString_monitorLine_iff hpeer]
    exact Protocol.Command.forall_line_argsRedacted_iff hfloat q.2

def remote : Reading := { steadyReading 7 with client := some (text "127.0.0.1:50000") }

theorem remote_addressed (c : ℕ) (cmd : Protocol.Command) :
    (Event.request c remote cmd).Addressed := by
  have hnil : Line [] := by decide
  refine ⟨fun peer hp => ?_, fun _ => hnil⟩
  cases hp
  decide

/-- A client monitors while another one writes a key; the connections' own commands and `SLOWLOG`
are not shown. -/
theorem monitor_stream_framed_set :
    let entered := (start Server.new).step (.request 0 remote .monitor)
    let after := [Event.request 1 remote (.hello none), .request 1 remote (.set [107] [0, 255]),
      .request 1 remote (.slowLog (text "RESET") [])]
    ((start Server.new).handle 0 remote .monitor).delivered (entered.run after).server
        = text "+7 [127.0.0.1:50000] \"SET\" \"k\" \"" ++ [0, 0xEF, 0xBF, 0xBD] ++ text "\"\r\n"
      ∧ ∀ q ∈ entered.shownIn after,
          IsSimpleString (Session.monitorLine (Server.message q.1 q.2)) := by
  intro entered after
  obtain ⟨-, hdelivered, hlines⟩ := monitor_stream_framed Server.new rfl [] after 0 remote rfl
    (by simp [after]) (by
      simp only [after, List.forall_mem_cons, List.not_mem_nil, false_implies, implies_true,
        and_true, remote_addressed])
  refine ⟨hdelivered.trans (by decide), hlines.2 ?_⟩
  have hshown : (entered.shownIn after).map (·.2.payloads) = [[[107], [0, 255]]] := by
    decide
  intro q hq p hp
  have hmem : q.2.payloads ∈ (entered.shownIn after).map (·.2.payloads) := List.mem_map_of_mem hq
  rw [hshown, List.mem_singleton] at hmem
  simp only [hmem, List.mem_cons, List.not_mem_nil, or_false] at hp
  rcases hp with rfl | rfl <;> decide

/-- One `SET` of another client is shown as two lines, and the second one is the client's own. -/
theorem monitor_line_injected :
    let value := text "v\"\r\n+7 [10.0.0.1:1] \"FLUSHDB"
    let entered := (start Server.new).step (.request 0 remote .monitor)
    let after := [Event.request 1 remote (.set [107] value)]
    (entered.shownIn after).length = 1
      ∧ ((start Server.new).handle 0 remote .monitor).delivered (entered.run after).server
          = text "+7 [127.0.0.1:50000] \"SET\" \"k\" \"v\"\r\n"
            ++ text "+7 [10.0.0.1:1] \"FLUSHDB\"\r\n"
      ∧ IsSimpleString (text "+7 [127.0.0.1:50000] \"SET\" \"k\" \"v\"\r\n")
      ∧ IsSimpleString (text "+7 [10.0.0.1:1] \"FLUSHDB\"\r\n") := by
  refine ⟨by decide, by decide,
    ⟨text "7 [127.0.0.1:50000] \"SET\" \"k\" \"v\"", by decide, by decide⟩,
    ⟨text "7 [10.0.0.1:1] \"FLUSHDB\"", by decide, by decide⟩⟩

end Hub

end FerrumKv
