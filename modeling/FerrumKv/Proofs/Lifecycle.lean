import FerrumKv.Lifecycle
import FerrumKv.Proofs.Atomics
import FerrumKv.Proofs.Session
import FerrumKv.Proofs.Shutdown

/-!
# Connections, slots and the end of the server

Every result here is an invariant read off `ClientMove`, which says what one step of a task does.
The counter is the number of open connections and never passes the limit (`slots_held`); what a task
answered is written before it waits again or ends, unless a write fails or the runtime drops the
task before (`replies_written`); once the flag is set, no connection is read from twice and one more
is admitted at most (`stops_reading`); once a `trigger` has returned, the accept loop and every task
end (`tasks_end`). Monitors never look at their sockets: as many of them as there are slots keep the
server closed (`monitors_keep_slots`).
-/

namespace FerrumKv

open Connection

namespace Lifecycle

variable {signal : Shutdown} {x : Client} {s : Lifecycle} {e : Event} {p p' : ClientPc} {c : ℕ}

variable (notify : Notify) (maxClients : UInt64) (debug : DebugText) (server : Server)

/-! ## What a step of a task does -/

/-- A step that changes where the task stands and nothing else. -/
inductive PcMove (signal : Shutdown) : ClientPc → ClientPc → Prop
  | stop (h : signal.flag = true) : PcMove signal .top .closing
  | enter (h : signal.flag = false) : PcMove signal .top (.select .fresh)
  | woken {w : Wait} (h : w.poll signal = .resolved) : PcMove signal (.select w) .closing
  | pending {n : ℕ} (h : signal.notify.resolves n signal.notifyCalls = false) :
      PcMove signal (.select (.parked n)) (.reading n)
  | polled {w w' : Wait} (h : w.poll signal = w') (hw' : w' ≠ .resolved)
      (hw : ∀ n, w ≠ .parked n) : PcMove signal (.select w) (.select w')
  | again (n : ℕ) : PcMove signal (.reading n) (.select (.parked n))
  | drained : PcMove signal .draining .flushing
  | monitorWoken {w : Wait} (h : w.poll signal = .resolved) : PcMove signal (.monitoring w) .closing
  | monitorPending {n : ℕ} (h : signal.notify.resolves n signal.notifyCalls = false) :
      PcMove signal (.monitoring (.parked n)) (.receiving n)
  | monitorPolled {w w' : Wait} (h : w.poll signal = w') (hw' : w' ≠ .resolved)
      (hw : ∀ n, w ≠ .parked n) : PcMove signal (.monitoring w) (.monitoring w')
  | monitorAgain (n : ℕ) : PcMove signal (.receiving n) (.monitoring (.parked n))
  | released : PcMove signal .closing .gone

/-- What a step of a task does to it. -/
inductive ClientMove (signal : Shutdown) (x : Client) : Client → Prop
  | none (h : x.pc.holds = false) : ClientMove signal x x
  | pc {p : ClientPc} (h : PcMove signal x.pc p) : ClientMove signal x { x with pc := p }
  | request {n : ℕ} (authed : Bool) (version : ProtocolVersion) (reply : Bytes)
      (h : x.pc = .draining) (hn : 0 < n) (hle : n ≤ x.inbuf.length) :
      ClientMove signal x
        ((({ x with authed := authed, version := version } : Client).emit reply).consume n)
  | monitor (h : x.pc = .draining) (hlen : 0 < x.inbuf.length) :
      ClientMove signal x { x.emit Server.ok with pc := .subscribing }
  | fault (reply : Bytes) (h : x.pc = .draining) :
      ClientMove signal x { x.emit reply with pc := .lastWrite }
  | panic (h : x.pc = .draining) : ClientMove signal x (x.fail 0)
  | batch (h : x.pc = .batch) : ClientMove signal x (x.flush .draining)
  | flushed (h : x.pc = .flushing) : ClientMove signal x (x.flush .top)
  | tooLarge (h : x.pc = .flushing) :
      ClientMove signal x { (x.flush .top).emit Session.tooLarge with pc := .lastWrite }
  | last (h : x.pc = .lastWrite) : ClientMove signal x (x.flush .closing)
  | welcome (h : x.pc = .subscribing) : ClientMove signal x (x.flush .welcomed)
  | subscribed (channel : ℕ) (h : x.pc = .welcomed) :
      ClientMove signal x { x with pc := .monitoring .fresh, channel := some channel }
  | line {n : ℕ} (msg : MonitorMessage) (h : x.pc = .receiving n) :
      ClientMove signal x ((taking x msg).flush (.monitoring .fresh))

theorem consume_pc (x : Client) (n : ℕ) :
    (x.consume n).pc = .batch ∨ (x.consume n).pc = .draining := by
  unfold Client.consume
  by_cases h : writeBatchMax ≤ x.outbuf.length <;> simp [h]

section Moves

variable {s : Lifecycle} {c : ℕ} {r : Reading}

/-- A step of task `c` leaves it as `x`; the last one gives the slot back. -/
def after (s : Lifecycle) (c : ℕ) (x : Client) (server : Server) : Lifecycle :=
  { s.setClient c x with
    server := server
    active := if (s.client c).pc = .closing then s.active - 1 else s.active }

theorem with_server_eq_after {server : Server} (h : (s.client c).pc ≠ .closing) :
    { s.setClient c x with server := server } = s.after c x server := by
  rw [after, if_neg h]
  rfl

theorem setClient_eq_after (h : (s.client c).pc ≠ .closing) :
    s.setClient c x = s.after c x s.server := with_server_eq_after h

theorem eq_after_self (h : (s.client c).pc.holds = false) :
    s = s.after c (s.client c) s.server := by
  rw [← setClient_eq_after (by rintro hc; rw [hc] at h; cases h), setClient,
    Function.update_eq_self]

theorem goto_moves {p q : ClientPc} (hpc : (s.client c).pc = q) (hne : q ≠ .closing)
    (h : PcMove s.signal q p) :
    ∃ x server, s.goto c p = s.after c x server ∧ ClientMove s.signal (s.client c) x := by
  subst hpc
  exact ⟨_, _, setClient_eq_after hne, .pc h⟩

theorem poll_cases (signal : Shutdown) (w : Wait) :
    w.poll signal = .resolved
      ∨ (∃ n, w = .parked n ∧ w.poll signal = .parked n
        ∧ signal.notify.resolves n signal.notifyCalls = false)
      ∨ w.poll signal ≠ .resolved ∧ ∀ n, w ≠ .parked n := by
  cases w with
  | parked n =>
    cases h : signal.notify.resolves n signal.notifyCalls with
    | false => exact .inr (.inl ⟨n, rfl, by simp [Wait.poll, h], h⟩)
    | true => exact .inl (by simp [Wait.poll, h])
  | resolved => exact .inl rfl
  | fresh | probed | armed n =>
    by_cases h : signal.flag = true <;> simp [Wait.poll, h]

theorem length_of_item {ops : FloatOps} {buf : Bytes}
    {item : Except Protocol.CommandError Protocol.Command} {n : ℕ}
    (h : verdict ops buf = .item item n) : 0 < n ∧ n ≤ buf.length :=
  ⟨(verdict_stable ops).pos _ _ _ h, ((verdict_stable ops).exact _ _ _ h).1⟩

theorem drain_moves (h : (s.client c).pc = .draining) :
    ∃ x server, s.drain c r = s.after c x server ∧ ClientMove s.signal (s.client c) x := by
  have hne : (s.client c).pc ≠ .closing := by rw [h]; simp
  unfold drain
  simp only []
  split
  · exact goto_moves h nofun .drained
  · rename_i n hv
    obtain ⟨hpos, hle⟩ := length_of_item hv
    exact ⟨_, _, setClient_eq_after hne, .monitor h (hpos.trans_le hle)⟩
  · rename_i cmd n _ hv
    obtain ⟨hpos, hle⟩ := length_of_item hv
    exact ⟨_, _, with_server_eq_after hne, .request _ _ _ h hpos hle⟩
  · rename_i e n hv
    obtain ⟨hpos, hle⟩ := length_of_item hv
    exact ⟨_, _, setClient_eq_after hne, .request _ _ _ h hpos hle⟩
  · exact ⟨_, _, setClient_eq_after hne, .fault _ h⟩
  · exact ⟨_, _, setClient_eq_after hne, .panic h⟩

theorem stepClient_moves (s : Lifecycle) (c : ℕ) (r : Reading) :
    ∃ x server, s.stepClient c r = s.after c x server ∧ ClientMove s.signal (s.client c) x := by
  rcases hpc : (s.client c).pc <;> simp only [stepClient, hpc]
  case unborn | gone =>
    have hh : (s.client c).pc.holds = false := by rw [hpc]; rfl
    exact ⟨_, _, eq_after_self hh, .none hh⟩
  case closing =>
    refine ⟨_, hangUp s.server (s.client c).channel, ?_, .pc (by rw [hpc]; exact .released)⟩
    rw [after, if_pos hpc]
    rfl
  all_goals have hne : (s.client c).pc ≠ .closing := by rw [hpc]; simp
  case top =>
    refine goto_moves hpc nofun ?_
    rw [Shutdown.isTriggered]
    split_ifs with hf
    · exact .stop hf
    · exact .enter (Bool.eq_false_iff.2 hf)
  case select w =>
    rcases poll_cases s.signal w with hp | ⟨n, rfl, hp, hn⟩ | ⟨hp, hw⟩
    · rw [hp]
      exact goto_moves hpc nofun (.woken hp)
    · rw [hp]
      exact goto_moves hpc nofun (.pending hn)
    · split
      · exact absurd ‹_› hp
      · exact absurd rfl (hw _)
      · exact goto_moves hpc nofun (.polled rfl hp hw)
  case reading n => exact goto_moves hpc nofun (.again n)
  case draining => exact drain_moves hpc
  case batch => exact ⟨_, _, setClient_eq_after hne, .batch hpc⟩
  case flushing =>
    unfold afterFlush
    split
    · exact ⟨_, _, setClient_eq_after hne, .tooLarge hpc⟩
    · exact ⟨_, _, setClient_eq_after hne, .flushed hpc⟩
  case lastWrite => exact ⟨_, _, setClient_eq_after hne, .last hpc⟩
  case subscribing => exact ⟨_, _, setClient_eq_after hne, .welcome hpc⟩
  case welcomed => exact ⟨_, _, with_server_eq_after hne, .subscribed _ hpc⟩
  case monitoring w =>
    rcases poll_cases s.signal w with hp | ⟨n, rfl, hp, hn⟩ | ⟨hp, hw⟩
    · rw [hp]
      exact goto_moves hpc nofun (.monitorWoken hp)
    · rw [hp]
      exact goto_moves hpc nofun (.monitorPending hn)
    · split
      · exact absurd ‹_› hp
      · exact absurd rfl (hw _)
      · exact goto_moves hpc nofun (.monitorPolled rfl hp hw)
  case receiving n =>
    split
    · exact ⟨_, _, setClient_eq_after hne, .line _ hpc⟩
    · exact goto_moves hpc nofun (.monitorAgain n)

/-- How a write that fails and a task that is dropped leave the client. -/
inductive Cut (s : Lifecycle) (c : ℕ) : Client → Prop
  | fail (sent : ℕ) (h : s.writes c = true) : Cut s c ((s.writing c).fail sent)
  | leave (h : (s.client c).pc.awaits = true) : Cut s c (s.client c).leave

theorem cut_dropped (h : (s.client c).pc.awaits = true) (sent : Option ℕ) :
    Cut s c (s.dropped c sent) := by
  cases sent with
  | none => exact .leave h
  | some n =>
    simp only [dropped]
    split_ifs with hw
    · exact .fail n hw
    · exact .leave h

theorem Cut.pc (h : Cut s c x) : x.pc = .closing := by
  cases h <;> rfl

theorem Cut.reads (h : Cut s c x) : x.reads = (s.client c).reads := by
  cases h with
  | fail sent hw =>
    simp only [Client.fail, writing]
    split <;> rfl
  | leave => rfl

theorem Cut.holds (h : Cut s c x) : (s.client c).pc.holds = true := by
  cases h with
  | fail sent hw =>
    unfold writes at hw
    cases hp : (s.client c).pc <;> rw [hp] at hw <;> first | rfl | cases hw
  | leave ha => cases hp : (s.client c).pc <;> rw [hp] at ha <;> first | rfl | cases ha

/-- What an event does to task `c`: nothing, unless it is a step of the task, what the socket it
polls has for it, a write of its that fails, the end of the runtime, or the step that spawns it. -/
inductive TaskStep (s : Lifecycle) (c : ℕ) : Event → Client → Prop
  | none {e : Event} (h : ∀ r, e ≠ .client c r) : TaskStep s c e (s.client c)
  | moves {r : Reading} {x : Client} (h : ClientMove s.signal (s.client c) x) :
      TaskStep s c (.client c r) x
  | arrives {n : ℕ} (bytes : Bytes) (h : (s.client c).pc = .reading n) :
      TaskStep s c (.arrives c bytes)
        { s.client c with
          pc := .draining, inbuf := (s.client c).inbuf ++ bytes, reads := (s.client c).reads + 1 }
  | ends {n : ℕ} (h : (s.client c).pc = .reading n) :
      TaskStep s c (.ends c) { s.client c with pc := .closing }
  | cut {e : Event} {x : Client} (he : ∀ c', e.ofClient c' = false) (h : Cut s c x) :
      TaskStep s c e x
  | spawned (h : s.acceptor = .checked) (hc : c = s.nextClient) :
    TaskStep s c .acceptor { pc := .top }

theorem after_client (s : Lifecycle) (c : ℕ) (x : Client) (server : Server) :
    (s.after c x server).client = Function.update s.client c x := rfl

theorem stepAcceptor_client (s : Lifecycle) :
    s.stepAcceptor.client = s.client
        ∧ s.stepAcceptor.nextClient = s.nextClient ∧ s.stepAcceptor.active = s.active
      ∨ s.acceptor = .checked
        ∧ s.stepAcceptor.client = Function.update s.client s.nextClient { pc := .top }
        ∧ s.stepAcceptor.nextClient = s.nextClient + 1
        ∧ slotUpdate s.maxClients .acquire s.active = some s.stepAcceptor.active := by
  unfold stepAcceptor
  split
  · split <;> exact .inl ⟨rfl, rfl, rfl⟩
  · exact .inl ⟨rfl, rfl, rfl⟩
  · exact .inl ⟨rfl, rfl, rfl⟩
  · rename_i h
    split
    · exact .inl ⟨rfl, rfl, rfl⟩
    · exact .inr ⟨h, rfl, rfl, ‹_›⟩
  · exact .inl ⟨rfl, rfl, rfl⟩

theorem TaskStep.update {c c' : ℕ} (h : TaskStep s c' e x)
    (hother : c ≠ c' → ∀ r, e ≠ .client c r) :
    TaskStep s c e (Function.update s.client c' x c) := by
  by_cases hc : c = c'
  · subst hc
    rw [Function.update_self]
    exact h
  · rw [Function.update_of_ne hc]
    exact .none (hother hc)

theorem step_task (s : Lifecycle) (e : Event) (c : ℕ) : TaskStep s c e ((s.step e).client c) := by
  cases e with
  | trigger t =>
    simp only [step]
    split_ifs <;> exact .none nofun
  | acceptor =>
    rcases stepAcceptor_client s with ⟨h, -⟩ | ⟨hc, h, -⟩
    · rw [step, h]
      exact .none nofun
    · rw [step, h]
      exact (TaskStep.spawned hc rfl).update nofun
  | connect | acceptFails =>
    simp only [step]
    split <;> exact .none nofun
  | console r cmd => exact .none nofun
  | client c' r =>
    obtain ⟨x, server, h, hm⟩ := stepClient_moves s c' r
    rw [step, h, after_client]
    refine (TaskStep.moves hm).update fun hc r' he => hc ?_
    cases he
    rfl
  | arrives c' bytes =>
    simp only [step]
    split
    · exact (TaskStep.arrives bytes ‹_›).update nofun
    · exact .none nofun
  | ends c' =>
    simp only [step]
    split
    · exact (TaskStep.ends ‹_›).update nofun
    · exact .none nofun
  | writeFails c' sent =>
    simp only [step]
    split_ifs with h
    · exact (TaskStep.cut (fun _ => rfl) (.fail sent h)).update nofun
    · exact .none nofun
  | drops c' sent begun =>
    simp only [step]
    split_ifs with h
    · exact (TaskStep.cut (fun _ => rfl) (cut_dropped h.2 sent)).update nofun
    · exact .none nofun

/-- Only `trigger` touches the signal; only the accept loop and the tasks touch the slots. -/
structure Frame (s : Lifecycle) (e : Event) (s' : Lifecycle) : Prop where
  maxClients : s'.maxClients = s.maxClients
  signal : (∀ t, e ≠ .trigger t) →
    s'.signal = s.signal ∧ s'.triggering = s.triggering ∧ s'.returned = s.returned
  slots : e ≠ .acceptor → (∀ c r, e ≠ .client c r) →
    s'.nextClient = s.nextClient ∧ s'.active = s.active

theorem step_frame (s : Lifecycle) (e : Event) : Frame s e (s.step e) := by
  cases e with
  | trigger t =>
    simp only [step]
    split_ifs <;> exact ⟨rfl, fun h => absurd rfl (h t), fun _ _ => ⟨rfl, rfl⟩⟩
  | acceptor =>
    simp only [step, stepAcceptor]
    split <;> (try split) <;> exact ⟨rfl, fun _ => ⟨rfl, rfl, rfl⟩, fun h => absurd rfl h⟩
  | client c r =>
    obtain ⟨x, server, heq, -⟩ := stepClient_moves s c r
    rw [step, heq]
    exact ⟨rfl, fun _ => ⟨rfl, rfl, rfl⟩, fun _ h => absurd rfl (h c r)⟩
  | writeFails | drops =>
    simp only [step]
    split_ifs <;> exact ⟨rfl, fun _ => ⟨rfl, rfl, rfl⟩, fun _ _ => ⟨rfl, rfl⟩⟩
  | connect | acceptFails | arrives | ends =>
    simp only [step]
    split <;> exact ⟨rfl, fun _ => ⟨rfl, rfl, rfl⟩, fun _ _ => ⟨rfl, rfl⟩⟩
  | console r cmd => exact ⟨rfl, fun _ => ⟨rfl, rfl, rfl⟩, fun _ _ => ⟨rfl, rfl⟩⟩

/-- Where an event leaves the accept loop, and how many connections it has then admitted. -/
inductive AcceptStep (s : Lifecycle) : Event → AcceptPc → ℕ → Prop
  | none {e : Event} (h : e.ofAcceptor = false) : AcceptStep s e s.acceptor s.nextClient
  | connected {n : ℕ} (h : s.acceptor = .listening n) :
      AcceptStep s .connect .accepted s.nextClient
  | failed {n : ℕ} (h : s.acceptor = .listening n) :
      AcceptStep s .acceptFails (.select .fresh) s.nextClient
  | woken {w : Wait} (h : s.acceptor = .select w) (hp : w.poll s.signal = .resolved) :
      AcceptStep s .acceptor .left s.nextClient
  | pending {n : ℕ} (h : s.acceptor = .select (.parked n))
      (hn : s.signal.notify.resolves n s.signal.notifyCalls = false) :
      AcceptStep s .acceptor (.listening n) s.nextClient
  | polled {w : Wait} (h : s.acceptor = .select w) (hp : w.poll s.signal ≠ .resolved) :
      AcceptStep s .acceptor (.select (w.poll s.signal)) s.nextClient
  | again {n : ℕ} (h : s.acceptor = .listening n) :
      AcceptStep s .acceptor (.select (.parked n)) s.nextClient
  | stop (h : s.acceptor = .accepted) (hflag : s.signal.flag = true) :
      AcceptStep s .acceptor .left s.nextClient
  | checked (h : s.acceptor = .accepted) (hflag : s.signal.flag = false) :
      AcceptStep s .acceptor .checked s.nextClient
  | refused (h : s.acceptor = .checked) : AcceptStep s .acceptor (.select .fresh) s.nextClient
  | admitted (h : s.acceptor = .checked) :
      AcceptStep s .acceptor (.select .fresh) (s.nextClient + 1)
  | left (h : s.acceptor = .left) : AcceptStep s .acceptor .left s.nextClient

theorem step_accept (s : Lifecycle) (e : Event) :
    AcceptStep s e (s.step e).acceptor (s.step e).nextClient := by
  cases e with
  | acceptor =>
    simp only [step, stepAcceptor]
    split
    · rename_i w h
      rcases poll_cases s.signal w with hp | ⟨n, rfl, hp, hn⟩ | ⟨hp, hw⟩
      · rw [hp]
        exact .woken h hp
      · rw [hp]
        exact .pending h hn
      · split
        · exact absurd ‹_› hp
        · exact absurd rfl (hw _)
        · exact .polled h hp
    · exact .again ‹_›
    · rw [Shutdown.isTriggered]
      split_ifs with hflag
      · exact .stop ‹_› hflag
      · exact .checked ‹_› (Bool.eq_false_iff.2 hflag)
    · split
      · exact .refused ‹_›
      · exact .admitted ‹_›
    · rw [‹s.acceptor = .left›]
      exact .left ‹_›
  | client c r =>
    obtain ⟨x, server, heq, -⟩ := stepClient_moves s c r
    rw [step, heq]
    exact .none rfl
  | trigger | writeFails | drops =>
    simp only [step]
    split_ifs <;> exact .none rfl
  | connect =>
    simp only [step]
    split
    · exact .connected ‹_›
    · exact .none rfl
  | acceptFails =>
    simp only [step]
    split
    · exact .failed ‹_›
    · exact .none rfl
  | arrives | ends =>
    simp only [step]
    split <;> exact .none rfl
  | console r cmd => exact .none rfl

end Moves

/-! ## Replies -/

/-- What was put into the reply buffer is what was written and what is still in the buffer, which is
empty whenever the task waits. A task whose write failed only closes. -/
structure Answered (x : Client) : Prop where
  front : x.written <+: x.produced
  whole : x.broken = false → x.produced = x.written ++ x.outbuf
  empty : x.broken = false → x.pc.settled = true → x.outbuf = []
  closed : x.broken = true → x.pc = .closing ∨ x.pc = .gone

section Replies

variable {signal : Shutdown} {x x' : Client}

theorem Answered.sound (h : Answered x) {p : ClientPc} (hp : x.pc = p) (hc : p ≠ .closing)
    (hg : p ≠ .gone) : x.broken = false := by
  refine Bool.eq_false_iff.2 fun hb => ?_
  rcases h.closed hb with hx | hx
  · exact hc (hp.symm.trans hx)
  · exact hg (hp.symm.trans hx)

theorem PcMove.settled (h : PcMove signal p p') (hs : p'.settled = true) :
    p.settled = true := by
  cases h <;> first | rfl | cases hs

theorem PcMove.closed (h : PcMove signal p p') (hp : p = .closing ∨ p = .gone) :
    p' = .gone := by
  cases h <;> simp_all

theorem Answered.emits (h : Answered x) (hb : x.broken = false) (reply : Bytes)
    (hx : x'.broken = false) (hw : x'.written = x.written) (ho : x'.outbuf = x.outbuf ++ reply)
    (hp : x'.produced = x.produced ++ reply) (hs : x'.pc.settled = false) : Answered x' where
  front := by
    rw [hw, hp]
    exact h.front.trans (List.prefix_append _ _)
  whole _ := by rw [hp, hw, ho, h.whole hb, List.append_assoc]
  empty _ hs' := by
    rw [hs] at hs'
    cases hs'
  closed hb' := by
    rw [hx] at hb'
    cases hb'

theorem Answered.flush (h : Answered x) (hb : x.broken = false) (p : ClientPc) :
    Answered (x.flush p) where
  front := by
    rw [Client.flush, h.whole hb]
  whole _ := by simp [Client.flush, h.whole hb]
  empty _ _ := rfl
  closed hb' := by
    rw [Client.flush, hb] at hb'
    cases hb'

theorem answered_fail (h : x.produced = x.written ++ x.outbuf) (sent : ℕ) :
    Answered (x.fail sent) where
  front := by
    rw [Client.fail, h]
    exact (List.prefix_append_right_inj _).2 (List.take_prefix _ _)
  whole hb := by cases hb
  empty hb := by cases hb
  closed _ := .inl rfl

theorem Answered.keeps (h : Answered x) (hw : x'.written = x.written) (ho : x'.outbuf = x.outbuf)
    (hp : x'.produced = x.produced) (hb : x'.broken = x.broken)
    (hs : x'.pc.settled = true → x.pc.settled = true)
    (hc : x.pc = .closing ∨ x.pc = .gone → x'.pc = .closing ∨ x'.pc = .gone) : Answered x' where
  front := by rw [hw, hp]; exact h.front
  whole hb' := by rw [hw, hp, ho]; exact h.whole (hb ▸ hb')
  empty hb' hs' := by rw [ho]; exact h.empty (hb ▸ hb') (hs hs')
  closed hb' := hc (h.closed (hb ▸ hb'))

theorem Answered.moves (h : Answered x) (hm : ClientMove signal x x') : Answered x' := by
  cases hm with
  | none => exact h
  | pc hp => exact h.keeps rfl rfl rfl rfl hp.settled fun hc => .inr (hp.closed hc)
  | request authed version reply hpc _ _ =>
    have hb := h.sound hpc (by simp) (by simp)
    refine h.emits hb reply hb rfl rfl rfl ?_
    rcases consume_pc _ _ with h | h <;> rw [h] <;> rfl
  | monitor hpc _ =>
    have hb := h.sound hpc (by simp) (by simp)
    exact h.emits hb _ hb rfl rfl rfl rfl
  | fault reply hpc =>
    have hb := h.sound hpc (by simp) (by simp)
    exact h.emits hb reply hb rfl rfl rfl rfl
  | panic hpc => exact answered_fail (h.whole (h.sound hpc (by simp) (by simp))) 0
  | batch hpc | flushed hpc | last hpc | welcome hpc =>
    exact h.flush (h.sound hpc (by simp) (by simp)) _
  | tooLarge hpc =>
    have hb := h.sound hpc (by simp) (by simp)
    exact (h.flush hb .top).emits hb _ hb rfl rfl rfl rfl
  | subscribed channel hpc =>
    exact h.keeps rfl rfl rfl rfl (fun _ => by rw [hpc]; rfl) (by simp [hpc])
  | line msg hpc =>
    have hb := h.sound hpc (by simp) (by simp)
    have htaking : Answered { taking x msg with pc := .draining } :=
      h.emits hb _ hb rfl rfl rfl rfl
    exact htaking.flush hb (.monitoring .fresh)

theorem Answered.leave (h : Answered x) : Answered x.leave where
  front := h.front
  whole hb := h.whole (Bool.or_eq_false_iff.1 hb).1
  empty hb _ := by
    obtain ⟨hb, hs⟩ := Bool.or_eq_false_iff.1 hb
    exact h.empty hb (by simpa using hs)
  closed _ := .inl rfl

theorem Answered.cut (h : Answered (s.client c)) (hc : Cut s c x) :
    Answered x := by
  cases hc with
  | leave => exact h.leave
  | fail sent hw =>
    have hb : (s.client c).broken = false := by
      refine Bool.eq_false_iff.2 fun hb => ?_
      rcases h.closed hb with hp | hp <;> simp [writes, hp] at hw
    refine answered_fail ?_ sent
    unfold writing
    split
    · simp [taking, Client.emit, h.whole hb]
    · exact h.whole hb

end Replies

theorem Answered.step (h : Answered (s.client c)) (e : Event) :
    Answered ((s.step e).client c) := by
  have ht := step_task s e c
  generalize (s.step e).client c = x at ht
  cases ht with
  | none => exact h
  | moves hm => exact h.moves hm
  | arrives bytes hpc =>
    exact h.keeps rfl rfl rfl rfl (fun _ => by rw [hpc]; rfl) (by simp [hpc])
  | ends hpc => exact h.keeps rfl rfl rfl rfl (fun _ => by rw [hpc]; rfl) (by simp [hpc])
  | cut _ hc => exact h.cut hc
  | spawned => exact ⟨List.prefix_rfl, fun _ => rfl, fun _ _ => rfl, fun hb => by cases hb⟩

theorem countP_range_update {p p' : ℕ → Bool} (h : ∀ i, i ≠ c → p' i = p i) :
    ∀ {n : ℕ}, c < n →
      (List.range n).countP p' + (p c).toNat = (List.range n).countP p + (p' c).toNat
  | n + 1, hc => by
    simp only [List.range_succ, List.countP_append, List.countP_singleton]
    rcases Nat.lt_succ_iff_lt_or_eq.1 hc with hlt | rfl
    · rw [h n (by omega)]
      have ih := countP_range_update h hlt
      omega
    · have hsame : (List.range c).countP p' = (List.range c).countP p :=
        List.countP_congr fun i hi => by rw [h i (List.mem_range.1 hi).ne]
      rw [hsame]
      cases p c <;> cases p' c <;> simp

/-- The counter is the number of connections that hold a slot, which keeps to the limit, and what is
not yet numbered is not yet there. -/
structure Slots (s : Lifecycle) : Prop where
  exact : s.active = UInt64.ofNat s.holders
  limit : s.maxClients ≠ 0 → s.holders ≤ s.maxClients.toNat
  unborn : ∀ c, s.nextClient ≤ c → (s.client c).pc = .unborn

section Slots

variable {s s' : Lifecycle}

theorem holders_congr (hn : s'.nextClient = s.nextClient)
    (h : ∀ c, (s'.client c).pc.holds = (s.client c).pc.holds) : s'.holders = s.holders := by
  simp only [holders, hn, h]

theorem Slots.congr (hs : Slots s) (hn : s'.nextClient = s.nextClient) (ha : s'.active = s.active)
    (hm : s'.maxClients = s.maxClients) (h : ∀ c, (s'.client c).pc.holds = (s.client c).pc.holds)
    (hu : ∀ c, (s.client c).pc = .unborn → (s'.client c).pc = .unborn) : Slots s' where
  exact := by rw [ha, holders_congr hn h, hs.exact]
  limit hne := by
    rw [hm] at hne ⊢
    rw [holders_congr hn h]
    exact hs.limit hne
  unborn c hc := hu c (hs.unborn c (hn ▸ hc))

theorem PcMove.holds (h : PcMove signal p p')
    (hp : p ≠ .closing) : p'.holds = p.holds ∧ p ≠ .unborn := by
  cases h <;> first | exact ⟨rfl, by simp⟩ | exact absurd rfl hp

theorem ClientMove.holds {x x' : Client} (hm : ClientMove signal x x')
    (hp : x.pc ≠ .closing) : x'.pc.holds = x.pc.holds ∧ (x.pc = .unborn → x'.pc = .unborn) := by
  cases hm with
  | none => exact ⟨rfl, id⟩
  | pc h => exact ⟨(h.holds hp).1, fun hu => absurd hu (h.holds hp).2⟩
  | request _ _ _ h _ _ =>
    rw [h]
    rcases consume_pc _ _ with h | h <;> rw [h] <;> exact ⟨rfl, nofun⟩
  | monitor h _ | fault _ h | panic h | batch h | flushed h | tooLarge h | last h | welcome h
  | subscribed _ h | line _ h => exact ⟨by rw [h]; rfl, by simp [h]⟩

theorem ClientMove.gone {x x' : Client} (hm : ClientMove signal x x')
    (hp : x.pc = .closing) : x'.pc = .gone := by
  cases hm with
  | none h => rw [hp] at h; cases h
  | pc h =>
    rw [hp] at h
    cases h
    rfl
  | request _ _ _ h _ _ | monitor h _ | fault _ h | panic h | batch h | flushed h | tooLarge h
  | last h | welcome h | subscribed _ h | line _ h => rw [hp] at h; cases h

theorem Slots.client (hs : Slots s) (c : ℕ) (r : Reading) : Slots (s.stepClient c r) := by
  obtain ⟨x, server, heq, hm⟩ := stepClient_moves s c r
  rw [heq]
  by_cases hp : (s.client c).pc = .closing
  · have hc : c < s.nextClient := by
      by_contra hc
      have := hs.unborn c (by omega)
      rw [hp] at this
      cases this
    have hrest : ∀ i, i ≠ c →
        ((s.after c x server).client i).pc.holds = (s.client i).pc.holds := by
      intro i hi
      simp only [after_client, Function.update_of_ne hi]
    have hcount := countP_range_update hrest hc
    simp only [after_client, Function.update_self, hp, hm.gone hp, ClientPc.holds,
      Bool.toNat_true, Bool.toNat_false, Nat.add_zero] at hcount
    have hone : s.holders = (s.after c x server).holders + 1 := by
      simp only [holders, after_client]
      exact hcount.symm
    refine ⟨?_, fun hne => ?_, fun c' hc' => ?_⟩
    · have hactive : (s.after c x server).active = s.active - 1 := if_pos hp
      rw [hactive, hs.exact, hone, UInt64.ofNat_add, UInt64.ofNat_one, UInt64.add_sub_cancel]
    · have hle := hs.limit hne
      rw [hone] at hle
      exact Nat.le_of_succ_le hle
    · have hne : c' ≠ c := by
        have : s.nextClient ≤ c' := hc'
        omega
      rw [after_client, Function.update_of_ne hne]
      exact hs.unborn c' hc'
  · obtain ⟨hholds, hunborn⟩ := hm.holds hp
    refine hs.congr rfl (if_neg hp) rfl (fun c' => ?_) fun c' hu => ?_
    · rw [after_client]
      by_cases hc : c' = c
      · subst hc
        rw [Function.update_self, hholds]
      · rw [Function.update_of_ne hc]
    · rw [after_client]
      by_cases hc : c' = c
      · subst hc
        rw [Function.update_self]
        exact hunborn hu
      · rw [Function.update_of_ne hc]
        exact hu

theorem Slots.acceptor (hs : Slots s) : Slots s.stepAcceptor := by
  have hmax : s.stepAcceptor.maxClients = s.maxClients := (step_frame s .acceptor).maxClients
  rcases stepAcceptor_client s with ⟨hc, hn, ha⟩ | ⟨-, hc, hn, hu⟩
  · exact hs.congr hn ha hmax (fun c => by rw [hc]) fun c h => by rw [hc]; exact h
  · have hone : s.stepAcceptor.holders = s.holders + 1 := by
      simp only [holders, hn, hc, List.range_succ, List.countP_append, List.countP_singleton,
        Function.update_self]
      congr 1
      refine List.countP_congr fun i hi => ?_
      rw [Function.update_of_ne (List.mem_range.1 hi).ne]
    obtain ⟨hactive, hlimit⟩ := slotUpdate_acquire hs.exact hs.limit hu
    refine ⟨by rw [hone, hactive], fun hne => ?_, fun c hle => ?_⟩
    · rw [hmax] at hne ⊢
      rw [hone]
      exact hlimit hne
    · rw [hn] at hle
      rw [hc, Function.update_of_ne (by omega)]
      exact hs.unborn c (by omega)

theorem TaskStep.holds (h : TaskStep s c e x) (ha : e ≠ .acceptor) (hc : ∀ r, e ≠ .client c r) :
    x.pc.holds = (s.client c).pc.holds ∧ ((s.client c).pc = .unborn → x.pc = .unborn) := by
  cases h with
  | none => exact ⟨rfl, id⟩
  | moves => exact absurd rfl (hc _)
  | arrives _ h | ends h => exact ⟨by rw [h]; rfl, by simp [h]⟩
  | cut _ h =>
    have hh := h.holds
    exact ⟨by rw [h.pc, hh]; rfl, fun hu => by rw [hu] at hh; cases hh⟩
  | spawned => exact absurd rfl ha

theorem Slots.rest (hs : Slots s) (ha : e ≠ .acceptor) (hc : ∀ c r, e ≠ .client c r) :
    Slots (s.step e) := by
  have hf := step_frame s e
  have hh := fun c => (step_task s e c).holds ha (hc c)
  exact hs.congr (hf.slots ha hc).1 (hf.slots ha hc).2 hf.maxClients (fun c => (hh c).1)
    fun c => (hh c).2

theorem Slots.step (hs : Slots s) (e : Event) : Slots (s.step e) := by
  cases e with
  | acceptor => exact hs.acceptor
  | client c r => exact hs.client c r
  | _ => exact hs.rest nofun nofun

end Slots

theorem run_slots (events : List Event) :
    Slots ((start notify maxClients debug server).run events) :=
  Runs.foldl_invariant (I := Slots) (fun _ e hs => hs.step e) events
    ⟨rfl, fun _ => Nat.zero_le _, fun _ _ => rfl⟩

theorem run_maxClients (events : List Event) :
    (s.run events).maxClients = s.maxClients :=
  Runs.foldl_invariant (I := fun s' : Lifecycle => s'.maxClients = s.maxClients)
    (fun s' e h => (step_frame s' e).maxClients.trans h) events rfl

/-- In every state of the server the counter is the number of connections whose tasks have not
ended, and with a limit there are never more of them than it allows. -/
theorem slots_held (events : List Event) :
    ((start notify maxClients debug server).run events).active
        = UInt64.ofNat ((start notify maxClients debug server).run events).holders
      ∧ (maxClients ≠ 0 →
        ((start notify maxClients debug server).run events).holders ≤ maxClients.toNat) := by
  have hs := run_slots notify maxClients debug server events
  refine ⟨hs.exact, fun hne => ?_⟩
  have hmax : ((start notify maxClients debug server).run events).maxClients = maxClients :=
    run_maxClients events
  have hle := hs.limit (by rwa [hmax])
  rwa [hmax] at hle

/-! ## After the flag is set -/

theorem flag_step (h : s.signal.flag = true) (e : Event) :
    (s.step e).signal.flag = true := by
  by_cases ht : ∃ t, e = .trigger t
  · obtain ⟨t, rfl⟩ := ht
    simp only [step]
    split_ifs
    · exact h
    · rfl
  · rw [((step_frame s e).signal fun t he => ht ⟨t, he⟩).1]
    exact h

/-- The reads a task may still make once the flag is set. -/
def readsLeft : ClientPc → ℕ
  | .select (.parked _) | .reading _ => 1
  | _ => 0

/-- The connections the accept loop may still admit once the flag is set. -/
def admitsLeft : AcceptPc → ℕ
  | .checked => 1
  | _ => 0

section Stop

variable {s : Lifecycle}

theorem PcMove.reads (h : PcMove signal p p')
    (hflag : signal.flag = true) : readsLeft p' ≤ readsLeft p := by
  cases h with
  | enter hoff =>
    rw [hflag] at hoff
    cases hoff
  | polled h hw' hw =>
    subst h
    rename_i w
    cases w with
    | parked n => exact absurd rfl (hw n)
    | fresh | armed n | resolved => simp [Wait.poll, hflag] at hw'
    | probed => exact Nat.zero_le _
  | pending | again => exact le_rfl
  | _ => exact Nat.zero_le _

theorem ClientMove.reads {x x' : Client} (hm : ClientMove signal x x')
    (hflag : signal.flag = true) :
    x'.reads + readsLeft x'.pc ≤ x.reads + readsLeft x.pc := by
  cases hm with
  | none => exact le_rfl
  | pc h => exact Nat.add_le_add_left (h.reads hflag) _
  | request =>
    refine Nat.add_le_add_left ?_ _
    rcases consume_pc _ _ with h | h <;> rw [h] <;> exact Nat.zero_le _
  | _ => exact Nat.add_le_add_left (Nat.zero_le _) _

theorem TaskStep.reads (h : TaskStep s c e x) (hflag : s.signal.flag = true) :
    x.reads + readsLeft x.pc ≤ (s.client c).reads + readsLeft (s.client c).pc := by
  cases h with
  | none => exact le_rfl
  | moves hm => exact hm.reads hflag
  | arrives bytes h =>
    rw [h]
    exact le_rfl
  | ends => exact Nat.add_le_add_left (Nat.zero_le _) _
  | cut _ h =>
    rw [h.reads, h.pc]
    exact Nat.add_le_add_left (Nat.zero_le _) _
  | spawned => exact Nat.zero_le _

theorem admits_step (hflag : s.signal.flag = true) (e : Event) :
    (s.step e).nextClient + admitsLeft (s.step e).acceptor
      ≤ s.nextClient + admitsLeft s.acceptor := by
  have ha := step_accept s e
  generalize (s.step e).acceptor = p, (s.step e).nextClient = n at ha
  cases ha with
  | none | left => exact Nat.add_le_add_left (by simp [admitsLeft, *]) _
  | checked _ hoff =>
    rw [hflag] at hoff
    cases hoff
  | admitted h => simp [admitsLeft, h]
  | _ => exact Nat.add_le_add_left (Nat.zero_le _) _

/-- Once the flag is set, whatever happens: every task reads from its socket once more at most, and
one more connection is admitted at most. -/
theorem stops_reading (s : Lifecycle) (hflag : s.signal.flag = true) (later : List Event) :
    (∀ c, ((s.run later).client c).reads ≤ (s.client c).reads + 1)
      ∧ (s.run later).nextClient ≤ s.nextClient + 1 := by
  have hone : ∀ p, readsLeft p ≤ 1 := by
    intro p
    unfold readsLeft
    split <;> omega
  have hadmit : ∀ p, admitsLeft p ≤ 1 := by
    intro p
    unfold admitsLeft
    split <;> omega
  have hinv := Runs.foldl_invariant
    (I := fun s' : Lifecycle => s'.signal.flag = true
      ∧ (∀ c, (s'.client c).reads + readsLeft (s'.client c).pc
        ≤ (s.client c).reads + readsLeft (s.client c).pc)
      ∧ s'.nextClient + admitsLeft s'.acceptor ≤ s.nextClient + admitsLeft s.acceptor)
    (fun s' e h => ⟨flag_step h.1 e, fun c => ((step_task s' e c).reads h.1).trans (h.2.1 c),
      (admits_step h.1 e).trans h.2.2⟩) later ⟨hflag, fun _ => le_rfl, le_rfl⟩
  refine ⟨fun c => ?_, ?_⟩
  · have h := hinv.2.1 c
    have := hone (s.client c).pc
    exact (Nat.le_add_right _ _).trans (h.trans (by omega))
  · have h := hinv.2.2
    have := hadmit s.acceptor
    exact (Nat.le_add_right _ _).trans (h.trans (by omega))

/-- A client is admitted and its task waits for bytes; a second connection has passed the check of
the flag when the flag is set. -/
def caughtReading : List Event :=
  [.acceptor, .acceptor, .acceptor, .acceptor, .connect, .acceptor, .acceptor]
    ++ List.replicate 5 (.client 0 (steadyReading 0))
    ++ [.acceptor, .acceptor, .acceptor, .acceptor, .connect, .acceptor, .trigger 0]

/-- The bytes of a `PING` arrive, the second connection is admitted, and the first client sends
another `PING`, which is not read. -/
def lastRead : List Event :=
  [.arrives 0 (text "*1\r\n$4\r\nPING\r\n"), .acceptor] ++
    List.replicate 4 (.client 0 (steadyReading 0)) ++ [.arrives 0 (text "*1\r\n$4\r\nPING\r\n")]

theorem stops_reading_triggered :
    let s := (start .counting 2 alone.debug Server.new).run caughtReading
    (s.signal.flag = true ∧ (s.client 0).pc = .reading 0 ∧ s.acceptor = .checked
        ∧ s.nextClient = 1)
      ∧ (s.run lastRead).nextClient = 2 ∧ ((s.run lastRead).client 0).reads = 1 := by
  intro s
  have h := stops_reading s rfl lastRead
  exact ⟨⟨rfl, rfl, rfl, rfl⟩, le_antisymm h.2 (by decide), le_antisymm (h.1 0) (by decide)⟩

end Stop

/-! ## After a `trigger` has returned -/

/-- The future of the signal that the accept loop holds. -/
def acceptWait : AcceptPc → Wait
  | .select w => w
  | .listening n => .parked n
  | _ => .fresh

def clientWait : ClientPc → Wait
  | .select w | .monitoring w => w
  | .reading n | .receiving n => .parked n
  | _ => .fresh

/-- The futures of all tasks, the accept loop's first. -/
def waits (s : Lifecycle) : ℕ → Wait
  | 0 => acceptWait s.acceptor
  | c + 1 => clientWait (s.client c).pc

/-- The server as the signal sees it. -/
def signals (s : Lifecycle) : SignalSystem := ⟨s.signal, s.waits, s.triggering, s.returned⟩

/-- What a task does to a future: it keeps it, drops it or polls it. -/
def WaitMove (signal : Shutdown) (w w' : Wait) : Prop := w' = w ∨ w' = .fresh ∨ w' = w.poll signal

section End

variable {s : Lifecycle}

theorem PcMove.wait (h : PcMove signal p p') :
    WaitMove signal (clientWait p) (clientWait p') := by
  cases h with
  | polled h | monitorPolled h => exact .inr (.inr h.symm)
  | pending | again | monitorPending | monitorAgain => exact .inl rfl
  | _ => exact .inr (.inl rfl)

theorem ClientMove.wait {x x' : Client} (hm : ClientMove signal x x') :
    WaitMove signal (clientWait x.pc) (clientWait x'.pc) := by
  cases hm with
  | none => exact .inl rfl
  | pc h => exact h.wait
  | request => rcases consume_pc _ _ with h | h <;> rw [h] <;> exact .inr (.inl rfl)
  | _ => exact .inr (.inl rfl)

theorem TaskStep.wait (h : TaskStep s c e x) :
    WaitMove s.signal (clientWait (s.client c).pc) (clientWait x.pc) := by
  cases h with
  | none => exact .inl rfl
  | moves hm => exact hm.wait
  | cut _ h =>
    rw [h.pc]
    exact .inr (.inl rfl)
  | _ => exact .inr (.inl rfl)

theorem acceptor_wait (s : Lifecycle) (e : Event) :
    WaitMove s.signal (acceptWait s.acceptor) (acceptWait (s.step e).acceptor) := by
  have ha := step_accept s e
  generalize (s.step e).acceptor = p, (s.step e).nextClient = n at ha
  cases ha with
  | none => exact .inl rfl
  | pending h | again h =>
    rw [h]
    exact .inl rfl
  | polled h =>
    rw [h]
    exact .inr (.inr rfl)
  | _ => exact .inr (.inl rfl)

theorem signals_step (hs : (signals s).Sound) (e : Event) : (signals (s.step e)).Sound := by
  by_cases ht : ∃ t, e = .trigger t
  · obtain ⟨t, rfl⟩ := ht
    have heq : signals (s.step (.trigger t)) = (signals s).step (.trigger t) := by
      by_cases ht : s.triggering t = true <;>
        simp only [signals, step, SignalSystem.step, ht, if_true] <;> rfl
    rw [heq]
    exact hs.step _
  · obtain ⟨hsig, htrig, hret⟩ := (step_frame s e).signal fun t he => ht ⟨t, he⟩
    have hw := @SignalSystem.Sound.waits (signals s) hs (s.step e).waits (by
      rintro (_ | c)
      · exact acceptor_wait s e
      · exact (step_task s e c).wait)
    have heq : signals (s.step e) = { signals s with wait := (s.step e).waits } := by
      simp only [signals, hsig, htrig, hret]
    rw [heq]
    exact hw

theorem start_signals :
    (signals (start notify maxClients debug server)).Sound := by
  have heq : signals (start notify maxClients debug server) = SignalSystem.start notify := by
    simp only [signals, SignalSystem.start, start, SignalSystem.mk.injEq, true_and, and_true]
    funext i
    cases i <;> rfl
  rw [heq]
  exact SignalSystem.start_sound notify

theorem run_signals (events : List Event) :
    (signals ((start notify maxClients debug server).run events)).Sound :=
  Runs.foldl_invariant (I := fun s => (signals s).Sound) (fun _ e hs => signals_step hs e) events
    (start_signals notify maxClients debug server)

/-- The steps that a task has left once a `trigger` has returned and it reads no more. -/
def stepsLeft (x : Client) : ℕ :=
  match x.pc with
  | .unborn | .gone => 0
  | .closing => 1
  | .top => 2
  | .select w | .monitoring w => SignalSystem.left w + 2
  | .reading _ | .receiving _ => 4
  | .draining => 2 * x.inbuf.length + 4
  | .batch => 2 * x.inbuf.length + 5
  | .flushing => 3
  | .lastWrite => 2
  | .subscribing => 5
  | .welcomed => 4

def acceptStepsLeft : AcceptPc → ℕ
  | .select w => SignalSystem.left w + 1
  | .listening _ => 3
  | .accepted => 1
  | .checked => 3
  | .left => 0

theorem left_le_two (w : Wait) : SignalSystem.left w ≤ 2 := by
  cases w <;> simp [SignalSystem.left]

/-- What the signal's invariant says once a `trigger` has returned. -/
def Woken (signal : Shutdown) (w : Wait) : Prop :=
  signal.flag = true ∧ ∀ n, w = .parked n → n < signal.notifyCalls

theorem left_pos_of_poll {w : Wait} (h : w.poll signal ≠ .resolved) :
    1 ≤ SignalSystem.left w := by
  cases w with
  | resolved => exact absurd rfl h
  | _ => simp [SignalSystem.left]

theorem PcMove.lowers {p : ClientPc}
    (h : PcMove signal x.pc p) (hw : Woken signal (clientWait x.pc)) :
    stepsLeft { x with pc := p } + 1 ≤ stepsLeft x := by
  generalize hx : x.pc = q at h hw
  cases h with
  | stop | released => simp [stepsLeft, hx]
  | enter hoff => exact absurd (hw.1.symm.trans hoff) (by decide)
  | woken | monitorWoken => simp [stepsLeft, hx]
  | pending hn | monitorPending hn =>
    exact absurd hn (by rw [signal.notify.wakes (hw.2 _ rfl)]; decide)
  | polled hp hne _ | monitorPolled hp hne _ =>
    subst hp
    have hpos := left_pos_of_poll hne
    have hle := SignalSystem.left_poll hw.1 hw.2
    simp only [stepsLeft, hx, clientWait] at hle ⊢
    omega
  | again | monitorAgain => simp [stepsLeft, hx, SignalSystem.left]
  | drained => simp [stepsLeft, hx]

theorem stepsLeft_pos (h : x.pc.holds = true) : 1 ≤ stepsLeft x := by
  unfold stepsLeft
  cases hp : x.pc <;> rw [hp] at h <;> first | cases h; done | (simp only; omega)

theorem stepsLeft_consume (x : Client) {n : ℕ} (hn : 0 < n) (hle : n ≤ x.inbuf.length) :
    stepsLeft (x.consume n) + 1 ≤ 2 * x.inbuf.length + 4 := by
  have hlen : (x.consume n).inbuf.length = x.inbuf.length - n := by
    rw [Client.consume, List.length_drop]
  unfold stepsLeft
  rcases consume_pc x n with h | h <;> rw [h] <;> simp only [hlen] <;> omega

theorem ClientMove.lowers {x x' : Client} (hm : ClientMove signal x x')
    (hw : Woken signal (clientWait x.pc)) : stepsLeft x' ≤ stepsLeft x - 1 := by
  cases hm with
  | none h =>
    have : stepsLeft x = 0 := by
      unfold stepsLeft
      cases hp : x.pc <;> rw [hp] at h <;> first | rfl | cases h
    omega
  | pc h =>
    have := h.lowers hw
    omega
  | request authed version reply h hn hle =>
    have hc := stepsLeft_consume
      (({ x with authed := authed, version := version } : Client).emit reply) hn hle
    have hx : stepsLeft x = 2 * x.inbuf.length + 4 := by simp [stepsLeft, h]
    have hlen : (({ x with authed := authed, version := version } : Client).emit reply).inbuf.length
      = x.inbuf.length := rfl
    omega
  | monitor h hlen =>
    simp only [stepsLeft, h]
    omega
  | _ =>
    rename_i h
    simp [stepsLeft, h, Client.flush, Client.fail, SignalSystem.left]

theorem TaskStep.lowers (h : TaskStep s c e x)
    (hw : Woken s.signal (clientWait (s.client c).pc)) (hborn : c ≠ s.nextClient)
    (harr : ∀ bytes, e ≠ .arrives c bytes) :
    stepsLeft x ≤ stepsLeft (s.client c) - (e.ofClient c).toNat := by
  cases h with
  | none h =>
    have : e.ofClient c = false := by
      cases e with
      | client c' r =>
        have hne : c' ≠ c := by
          rintro rfl
          exact h r rfl
        simp [Event.ofClient, hne]
      | _ => rfl
    rw [this]
    exact le_rfl
  | moves hm => simpa [Event.ofClient] using hm.lowers hw
  | arrives bytes => exact absurd rfl (harr bytes)
  | ends h => simp [stepsLeft, h, Event.ofClient]
  | cut he h =>
    have hone : stepsLeft x = 1 := by rw [stepsLeft, h.pc]
    rw [hone, he c]
    exact stepsLeft_pos h.holds
  | spawned _ hc => exact absurd hc hborn

theorem acceptor_lowers (hw : Woken s.signal (acceptWait s.acceptor)) (e : Event) :
    acceptStepsLeft (s.step e).acceptor ≤ acceptStepsLeft s.acceptor - e.ofAcceptor.toNat := by
  have ha := step_accept s e
  generalize (s.step e).acceptor = p, (s.step e).nextClient = n at ha
  cases ha with
  | none h => simp [h]
  | pending h hn =>
    rw [h] at hw
    exact absurd hn (by rw [s.signal.notify.wakes (hw.2 _ rfl)]; decide)
  | polled h hp =>
    rw [h] at hw ⊢
    have hpos := left_pos_of_poll hp
    have hle := SignalSystem.left_poll hw.1 hw.2
    simp only [acceptStepsLeft, acceptWait, Event.ofAcceptor, Bool.toNat_true] at hle ⊢
    omega
  | checked _ hoff => exact absurd (hw.1.symm.trans hoff) (by decide)
  | connected h | failed h | again h | refused h | admitted h =>
    simp [h, acceptStepsLeft, SignalSystem.left, Event.ofAcceptor]
  | woken | stop | left => exact Nat.zero_le _

theorem returned_step (s : Lifecycle) (e : Event) : s.returned ≤ (s.step e).returned := by
  by_cases ht : ∃ t, e = .trigger t
  · obtain ⟨t, rfl⟩ := ht
    simp only [step]
    split_ifs
    · exact Nat.le_succ _
    · exact le_rfl
  · rw [((step_frame s e).signal fun t he => ht ⟨t, he⟩).2.2]

theorem ClientMove.born {x x' : Client} (hm : ClientMove signal x x')
    (h : x.pc ≠ .unborn) : x'.pc ≠ .unborn := by
  cases hm with
  | none => exact h
  | pc hp =>
    generalize x.pc = q at hp
    cases hp <;> nofun
  | request => rcases consume_pc _ _ with hp | hp <;> rw [hp] <;> nofun
  | _ => nofun

theorem TaskStep.born (ht : TaskStep s c e x) (h : (s.client c).pc ≠ .unborn) : x.pc ≠ .unborn := by
  cases ht with
  | none => exact h
  | moves hm => exact hm.born h
  | cut _ hc =>
    rw [hc.pc]
    nofun
  | _ => nofun

/-- What holds of a server of which a `trigger` has returned. -/
structure Ending (s : Lifecycle) : Prop where
  signals : (signals s).Sound
  slots : Slots s
  returned : 0 < s.returned

theorem Ending.step (h : Ending s) (e : Event) : Ending (s.step e) :=
  ⟨signals_step h.signals e, h.slots.step e, h.returned.trans_le (returned_step s e)⟩

theorem Ending.woken (h : Ending s) (i : ℕ) : Woken s.signal (s.waits i) :=
  ⟨(h.signals.returned h.returned).1, (h.signals.returned h.returned).2 i⟩

theorem stepsLeft_run (later : List Event) (h : Ending s)
    (hb : (s.client c).pc ≠ .unborn) (harr : ∀ bytes, Event.arrives c bytes ∉ later) :
    stepsLeft ((s.run later).client c) ≤ stepsLeft (s.client c) - later.countP (Event.ofClient c)
      ∧ ((s.run later).client c).pc ≠ .unborn := by
  obtain ⟨hinv, hle⟩ := Runs.foldl_countdown
    (I := fun s : Lifecycle => Ending s ∧ (s.client c).pc ≠ .unborn)
    (m := fun s => stepsLeft (s.client c)) later ⟨h, hb⟩ fun e he s hs =>
      ⟨⟨hs.1.step e, (step_task s e c).born hs.2⟩, (step_task s e c).lowers (hs.1.woken (c + 1))
        (fun hc => hs.2 (by rw [hc]; exact hs.1.slots.unborn _ le_rfl))
        fun bytes hbytes => harr bytes (hbytes ▸ he)⟩
  exact ⟨hle, hinv.2⟩

theorem stepsLeft_le (x : Client) : stepsLeft x ≤ 2 * x.inbuf.length + 5 := by
  unfold stepsLeft
  split <;> (try have := left_le_two ‹_›) <;> omega

theorem gone_of_stepsLeft (h : stepsLeft x = 0) (hb : x.pc ≠ .unborn) :
    x.pc = .gone := by
  by_contra hg
  have hholds : x.pc.holds = true := by
    cases hp : x.pc <;> first | rfl | exact absurd hp hb | exact absurd hp hg
  have := stepsLeft_pos hholds
  omega

end End

/-- Once a call of `trigger` has returned, the accept loop leaves with its third step at the latest,
and a task that reads no more ends after a number of its own steps that the bytes in its buffer
bound, whatever the others do. -/
theorem tasks_end (events later : List Event) :
    let s := (start notify maxClients debug server).run events
    0 < s.returned →
      (3 ≤ later.countP Event.ofAcceptor → (s.run later).acceptor = .left)
        ∧ ∀ c, (s.client c).pc ≠ .unborn → (∀ bytes, Event.arrives c bytes ∉ later) →
          2 * (s.client c).inbuf.length + 5 ≤ later.countP (Event.ofClient c) →
          ((s.run later).client c).pc = .gone := by
  intro s hret
  have hend : Ending s := ⟨run_signals notify maxClients debug server events,
    run_slots notify maxClients debug server events, hret⟩
  refine ⟨fun hsteps => ?_, fun c hborn harr hsteps => ?_⟩
  · have hle : acceptStepsLeft (s.run later).acceptor
        ≤ acceptStepsLeft s.acceptor - later.countP Event.ofAcceptor :=
      (Runs.foldl_countdown (m := fun s : Lifecycle => acceptStepsLeft s.acceptor) later hend
        fun e _ s hs => ⟨hs.step e, acceptor_lowers (hs.woken 0) e⟩).2
    have hthree : acceptStepsLeft s.acceptor ≤ 3 := by
      unfold acceptStepsLeft
      split <;> (try have := left_le_two ‹_›) <;> omega
    have hzero : acceptStepsLeft (s.run later).acceptor = 0 := by omega
    cases hp : (s.run later).acceptor <;> rw [hp] at hzero <;> simp [acceptStepsLeft] at hzero ⊢
  · obtain ⟨hle, hb⟩ := stepsLeft_run later hend hborn harr
    have hbound := stepsLeft_le (s.client c)
    exact gone_of_stepsLeft (by omega) hb

/-- The task of a client has the bytes of a `PING` in its buffer when a `trigger` returns. -/
def caughtDraining : List Event :=
  [.acceptor, .acceptor, .acceptor, .acceptor, .connect, .acceptor, .acceptor]
    ++ List.replicate 5 (.client 0 (steadyReading 0))
    ++ [.arrives 0 (text "*1\r\n$4\r\nPING\r\n"), .trigger 0, .trigger 0]

def lastSteps : List Event :=
  List.replicate 33 (.client 0 (steadyReading 0)) ++ [.acceptor, .acceptor, .acceptor]

theorem tasks_end_triggered :
    let s := (start .counting 1 alone.debug Server.new).run caughtDraining
    (s.client 0).inbuf.length = 14 ∧ (s.run lastSteps).acceptor = .left
      ∧ ((s.run lastSteps).client 0).pc = .gone := by
  have h := tasks_end .counting 1 alone.debug Server.new caughtDraining lastSteps (by decide)
  refine ⟨rfl, h.1 (by decide), h.2 0 (by decide) (fun bytes hb => ?_) (by decide)⟩
  simp [lastSteps] at hb

/-! ## Monitors without anything to send -/

/-- The signal before any `trigger`. -/
def Untouched (signal : Shutdown) : Prop := signal.flag = false ∧ signal.notifyCalls = 0

/-- Where a future of the signal stands then. -/
def quietWaits : List Wait := [.fresh, .probed, .armed 0, .parked 0]

theorem poll_quiet (hsig : Untouched signal) {w : Wait} (hw : w ∈ quietWaits) :
    w.poll signal ≠ .resolved ∧ w.poll signal ∈ quietWaits := by
  simp only [quietWaits, List.mem_cons, List.not_mem_nil, or_false] at hw
  rcases hw with rfl | rfl | rfl | rfl <;>
    simp [Wait.poll, quietWaits, hsig.1, hsig.2, signal.notify.quiet]

/-- The accept loop has not left, and no call has reached its future. -/
def Accepting (s : Lifecycle) : Prop :=
  s.acceptor ≠ .left ∧ acceptWait s.acceptor ∈ quietWaits

theorem Accepting.step (h : Accepting s) (hsig : Untouched s.signal) (e : Event) :
    Accepting (s.step e) := by
  unfold Accepting at h ⊢
  have ha := step_accept s e
  generalize (s.step e).acceptor = p, (s.step e).nextClient = n at ha
  cases ha with
  | none => exact h
  | woken hs hp =>
    rw [hs] at h
    exact absurd hp (poll_quiet hsig h.2).1
  | pending hs | again hs =>
    rw [hs] at h
    exact ⟨nofun, h.2⟩
  | polled hs =>
    rw [hs] at h
    exact ⟨nofun, (poll_quiet hsig h.2).2⟩
  | stop _ hflag => exact absurd (hsig.1.symm.trans hflag) (by decide)
  | left hs => exact absurd hs h.1
  | connected | failed | checked | refused | admitted =>
    exact ⟨nofun, List.mem_cons_self⟩

theorem untouched_of_flag (hs : (signals s).Sound) (hflag : s.signal.flag = false) :
    Untouched s.signal := by
  refine ⟨hflag, ?_⟩
  by_contra hne
  have hon : s.signal.flag = true := hs.notified (Nat.pos_of_ne_zero hne)
  exact absurd (hflag.symm.trans hon) (by decide)

theorem run_accepting (events : List Event)
    (hflag : ((start notify maxClients debug server).run events).signal.flag = false) :
    Accepting ((start notify maxClients debug server).run events) := by
  refine (Runs.foldl_invariant
    (I := fun s : Lifecycle => (signals s).Sound ∧ (s.signal.flag = false → Accepting s))
    (fun s e h => ⟨signals_step h.1 e, fun hoff => ?_⟩) events
    ⟨start_signals notify maxClients debug server, fun _ => ⟨nofun, List.mem_cons_self⟩⟩).2 hflag
  have hbefore : s.signal.flag = false := by
    refine Bool.eq_false_iff.2 fun hon => ?_
    exact absurd (hoff.symm.trans (flag_step hon e)) (by decide)
  exact (h.2 hbefore).step (untouched_of_flag h.1 hbefore) e

/-- Where a monitor stands as long as nothing is sent and the signal is untouched. -/
def stuckAt : List ClientPc := .receiving 0 :: quietWaits.map .monitoring

/-- All slots are taken, and by monitors that nothing wakes. -/
structure Wedged (s : Lifecycle) : Prop where
  full : slotUpdate s.maxClients .acquire s.active = none
  signal : Untouched s.signal
  tasks : ∀ c, (s.client c).pc.holds = true → (s.client c).pc ∈ stuckAt ∧ s.message c = none

section Wedged

variable {s : Lifecycle}

theorem goto_client (s : Lifecycle) (c c' : ℕ) (p : ClientPc) :
    (s.goto c p).client c'
      = { s.client c' with pc := if c' = c then p else (s.client c').pc } := by
  simp only [goto, setClient]
  by_cases h : c' = c
  · subst h
    simp
  · simp [h]

theorem message_goto (s : Lifecycle) (c c' : ℕ) (p : ClientPc) :
    (s.goto c p).message c' = s.message c' := by
  simp only [message, goto_client]
  rfl

theorem holds_of_mem_stuckAt {p : ClientPc} (h : p ∈ stuckAt) : p.holds = true := by
  fin_cases h <;> rfl

theorem stepClient_stuck (hsig : Untouched s.signal) (hp : (s.client c).pc ∈ stuckAt)
    (hm : s.message c = none) (r : Reading) : ∃ p ∈ stuckAt, s.stepClient c r = s.goto c p := by
  simp only [stuckAt, quietWaits, List.map_cons, List.map_nil, List.mem_cons, List.not_mem_nil,
    or_false] at hp
  rcases hp with hp | hp | hp | hp | hp
  · exact ⟨.monitoring (.parked 0), by simp [stuckAt, quietWaits], by simp [stepClient, hp, hm]⟩
  · exact ⟨.monitoring .probed, by simp [stuckAt, quietWaits],
      by simp [stepClient, hp, hsig.1, Wait.poll]⟩
  · exact ⟨.monitoring (.armed 0), by simp [stuckAt, quietWaits],
      by simp [stepClient, hp, hsig.2, Wait.poll]⟩
  · exact ⟨.monitoring (.parked 0), by simp [stuckAt, quietWaits],
      by simp [stepClient, hp, hsig.1, Wait.poll]⟩
  · exact ⟨.receiving 0, by simp [stuckAt],
      by simp [stepClient, hp, hsig.2, Wait.poll, s.signal.notify.quiet]⟩

theorem Wedged.goto (hw : Wedged s) {p : ClientPc} (hp : p ∈ stuckAt)
    (hc : (s.client c).pc.holds = true) :
    Wedged (s.goto c p) ∧ (s.goto c p).holders = s.holders := by
  have hholds : ∀ c', ((s.goto c p).client c').pc.holds = (s.client c').pc.holds := by
    intro c'
    rw [goto_client]
    by_cases h : c' = c
    · subst h
      simp [hc, holds_of_mem_stuckAt hp]
    · simp [h]
  refine ⟨⟨hw.full, hw.signal, fun c' hc' => ?_⟩, holders_congr rfl hholds⟩
  obtain ⟨hpc, hmsg⟩ := hw.tasks c' (hholds c' ▸ hc')
  rw [message_goto, goto_client]
  refine ⟨?_, hmsg⟩
  by_cases h : c' = c
  · simp [h, hp]
  · simpa [h] using hpc

theorem Wedged.acceptor (hw : Wedged s) {p : AcceptPc} : Wedged { s with acceptor := p } :=
  ⟨hw.full, hw.signal, hw.tasks⟩

theorem Wedged.step (hw : Wedged s) (ha : Accepting s) (he : e.silent = true) :
    Wedged (s.step e) ∧ (s.step e).nextClient = s.nextClient ∧ (s.step e).holders = s.holders := by
  have hnot : ∀ c n, (s.client c).pc ≠ .reading n := by
    intro c n h
    have := (hw.tasks c (by rw [h]; rfl)).1
    rw [h] at this
    simp [stuckAt, quietWaits] at this
  cases e with
  | trigger t => cases he
  | console r cmd => cases he
  | acceptor =>
    simp only [Lifecycle.step, stepAcceptor, hw.full]
    split
    · split <;> exact ⟨hw.acceptor, rfl, rfl⟩
    · exact ⟨hw.acceptor, rfl, rfl⟩
    · exact ⟨hw.acceptor, rfl, rfl⟩
    · exact ⟨hw.acceptor, rfl, rfl⟩
    · exact ⟨hw, rfl, rfl⟩
  | connect | acceptFails =>
    simp only [Lifecycle.step]
    split
    · exact ⟨hw.acceptor, rfl, rfl⟩
    · exact ⟨hw, rfl, rfl⟩
  | client c r =>
    cases hh : (s.client c).pc.holds with
    | false =>
      have hs : s.stepClient c r = s := by
        cases hp : (s.client c).pc <;> rw [hp] at hh <;> first
          | cases hh; done
          | simp [stepClient, hp]
      rw [Lifecycle.step, hs]
      exact ⟨hw, rfl, rfl⟩
    | true =>
      obtain ⟨hpc, hmsg⟩ := hw.tasks c hh
      obtain ⟨p, hp, heq⟩ := stepClient_stuck hw.signal hpc hmsg r
      rw [Lifecycle.step, heq]
      exact ⟨(hw.goto hp hh).1, rfl, (hw.goto hp hh).2⟩
  | arrives c | ends c =>
    simp only [Lifecycle.step]
    split
    · exact absurd ‹_› (hnot c _)
    · exact ⟨hw, rfl, rfl⟩
  | writeFails c =>
    have hno : s.writes c = false := by
      refine Bool.eq_false_iff.2 fun hwr => ?_
      obtain ⟨hpc, hmsg⟩ := hw.tasks c (Cut.fail 0 hwr).holds
      simp only [stuckAt, quietWaits, List.map_cons, List.map_nil, List.mem_cons, List.not_mem_nil,
        or_false] at hpc
      rcases hpc with hp | hp | hp | hp | hp <;> simp [writes, hp, hmsg] at hwr
    simp only [Lifecycle.step, hno]
    exact ⟨hw, rfl, rfl⟩
  | drops c =>
    rw [Lifecycle.step, if_neg fun h => ha.1 h.1]
    exact ⟨hw, rfl, rfl⟩

theorem Wedged.run : ∀ (later : List Event) {s : Lifecycle}, Wedged s → Accepting s →
    (∀ e ∈ later, e.silent = true) →
      (s.run later).nextClient = s.nextClient ∧ (s.run later).holders = s.holders
  | [], _, _, _, _ => ⟨rfl, rfl⟩
  | e :: later, s, hw, ha, hl => by
    obtain ⟨hw', hn, hh⟩ := hw.step ha (hl e List.mem_cons_self)
    obtain ⟨hn', hh'⟩ := Wedged.run later hw' (ha.step hw.signal e) fun e' he' =>
      hl e' (List.mem_cons_of_mem e he')
    exact ⟨hn'.trans hn, hh'.trans hh⟩

/-- Before any `trigger`, the futures of the signal are those that no call has reached. -/
theorem waits_of_quiet (hs : (signals s).Sound) (hsig : Untouched s.signal) (i : ℕ) :
    s.waits i ∈ quietWaits := by
  have hcalls := hsig.2
  cases hw : s.waits i with
  | fresh | probed => simp [quietWaits]
  | armed n =>
    have hle : n ≤ s.signal.notifyCalls := hs.armed i n hw
    simp [quietWaits, show n = 0 by omega]
  | parked n =>
    have hle : n ≤ s.signal.notifyCalls := hs.parked i n hw
    simp [quietWaits, show n = 0 by omega]
  | resolved =>
    have hflag : s.signal.flag = true := hs.resolved i hw
    exact absurd (hsig.1.symm.trans hflag) (by decide)

theorem stuck_of_idleMonitor (hs : (signals s).Sound) (hsig : Untouched s.signal)
    (h : s.IdleMonitor c) : (s.client c).pc ∈ stuckAt := by
  have hwait := waits_of_quiet hs hsig (c + 1)
  rcases h.1 with ⟨w, hw⟩ | ⟨n, hn⟩
  · simp only [waits, hw, clientWait] at hwait
    rw [hw]
    exact List.mem_cons_of_mem _ (List.mem_map_of_mem hwait)
  · simp only [waits, hn, clientWait, quietWaits, List.mem_cons, reduceCtorEq, Wait.parked.injEq,
      List.not_mem_nil, or_false, false_or] at hwait
    simp [hn, hwait, stuckAt]

end Wedged

/-- A monitor's task never looks at its socket. When every slot is taken by a monitor that has
nothing to send, no client is admitted any more, whatever the clients do and even if they have all
gone away: only a shutdown or a command from the dashboard changes that. -/
theorem monitors_keep_slots (events later : List Event) (hmax : maxClients ≠ 0)
    (hflag : ((start notify maxClients debug server).run events).signal.flag = false)
    (hfull : ((start notify maxClients debug server).run events).holders = maxClients.toNat)
    (hmon : ∀ c, (((start notify maxClients debug server).run events).client c).pc.holds = true →
      ((start notify maxClients debug server).run events).IdleMonitor c)
    (hlater : ∀ e ∈ later, e.silent = true) :
    (((start notify maxClients debug server).run events).run later).nextClient
        = ((start notify maxClients debug server).run events).nextClient
      ∧ (((start notify maxClients debug server).run events).run later).holders
        = maxClients.toNat := by
  have hs := run_signals notify maxClients debug server events
  have hslots := run_slots notify maxClients debug server events
  have hm : ((start notify maxClients debug server).run events).maxClients = maxClients :=
    run_maxClients events
  have ha := run_accepting notify maxClients debug server events hflag
  generalize (start notify maxClients debug server).run events = s at *
  have hsig := untouched_of_flag hs hflag
  have hfull' : slotUpdate s.maxClients .acquire s.active = none := by
    have hlt := maxClients.toNat_lt
    have hle : maxClients ≤ s.active := by
      rw [UInt64.le_iff_toNat_le, hslots.exact, hfull, UInt64.toNat_ofNat',
        Nat.mod_eq_of_lt (by omega)]
    simp [slotUpdate, hm, hmax, hle]
  have hw : Wedged s :=
    ⟨hfull', hsig, fun c hc => ⟨stuck_of_idleMonitor hs hsig (hmon c hc), (hmon c hc).2⟩⟩
  obtain ⟨hn, hh⟩ := Wedged.run later hw ha hlater
  exact ⟨hn, hh.trans hfull⟩

/-- A server with one slot, which its first client takes and then asks for `MONITOR`. -/
def monitored : List Event :=
  [.acceptor, .acceptor, .acceptor, .acceptor, .connect, .acceptor, .acceptor,
    .client 0 (steadyReading 0), .client 0 (steadyReading 0), .client 0 (steadyReading 0),
    .client 0 (steadyReading 0), .client 0 (steadyReading 0),
    .arrives 0 (text "*1\r\n$7\r\nMONITOR\r\n"),
    .client 0 (steadyReading 0), .client 0 (steadyReading 0), .client 0 (steadyReading 0)]

/-- The client goes away, and another connects and is refused. -/
def refusedNext : List Event :=
  [.ends 0, .acceptor, .acceptor, .acceptor, .acceptor, .connect, .acceptor, .acceptor]

theorem monitors_keep_slots_one :
    (((start .counting 1 alone.debug Server.new).run monitored).run
        (refusedNext.take 7)).acceptor = .checked
      ∧ (((start .counting 1 alone.debug Server.new).run monitored).run refusedNext).nextClient = 1
      ∧ (((start .counting 1 alone.debug Server.new).run monitored).run refusedNext).holders
        = 1 := by
  refine ⟨rfl, monitors_keep_slots .counting 1 alone.debug Server.new monitored refusedNext
    (by decide) rfl rfl ?_ ?_⟩
  · intro c hc
    have hslots := run_slots .counting 1 alone.debug Server.new monitored
    obtain rfl : c = 0 := by
      by_contra hne
      have hn : ((start .counting 1 alone.debug Server.new).run monitored).nextClient = 1 := rfl
      rw [hslots.unborn c (by omega)] at hc
      cases hc
    exact ⟨.inl ⟨.fresh, rfl⟩, rfl⟩
  · intro e he
    simp only [refusedNext, List.mem_cons, List.not_mem_nil, or_false] at he
    rcases he with rfl | rfl | rfl | rfl | rfl | rfl | rfl | rfl <;> rfl

end Lifecycle

end FerrumKv
