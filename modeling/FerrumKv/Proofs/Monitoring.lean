import FerrumKv.Monitoring
import FerrumKv.Lib.Runs
import FerrumKv.Proofs.MonitorStream
import FerrumKv.Proofs.Session

/-!
# What a monitor receives

A message is sent to all subscribers at once, so every monitor receives an end of one sequence of
commands (`Sequenced`), and two of them what they both receive in one order. A command is in the
sequence of a monitor exactly if it found a subscriber and the monitor had subscribed when it was
sent (`mem_received_iff`). What the system records is what the server's registry was sent
(`Recorded`).
-/

namespace FerrumKv.MonitorSystem

variable {calls : ℕ → Reading × Protocol.Command} {s s' : MonitorSystem}
  {e : MonitorEvent}

/-! ## Steps -/

inductive Moves (calls : ℕ → Reading × Protocol.Command) (s : MonitorSystem) :
    MonitorEvent → MonitorSystem → Prop
  | stays (e : MonitorEvent) : Moves calls s e s
  | acknowledges {m : ℕ} (h : s.monitor m = .connected) :
      Moves calls s (.acknowledge m)
        { s with monitor := Function.update s.monitor m .acknowledged }
  | subscribes {m : ℕ} (h : s.monitor m = .acknowledged) :
      Moves calls s (.subscribe m)
        { s with
          server := s.server.subscribe
          monitor := Function.update s.monitor m (.subscribed s.server.channels) }
  | begins {c : ℕ} (h : s.command c = .waiting) :
      Moves calls s (.start c)
        { s.advance c .begun with
          server := { s.server with totalCommands := s.server.totalCommands + 1 } }
  | finds {c : ℕ} (h : s.command c = .begun) (hmonitors : s.server.monitors ≠ []) :
      Moves calls s (.check c) (s.advance c .found)
  | misses {c : ℕ} (h : s.command c = .begun)
      (hnone : Server.monitorMeta (calls c).2 = false → s.server.monitors = []) :
      Moves calls s (.check c) (s.advance c .passed)
  | sends {c : ℕ} (h : s.command c = .found) :
      Moves calls s (.send c)
        { s.advance c .passed with
          server := s.server.broadcast (Server.message (calls c).1 (calls c).2)
          received := s.receivedAfter c }

theorem step_moves (calls : ℕ → Reading × Protocol.Command) (s : MonitorSystem) (e : MonitorEvent) :
    Moves calls s e (s.step calls e) := by
  cases e with
  | acknowledge m =>
    simp only [step]
    split
    · exact .acknowledges ‹_›
    · exact .stays _
  | subscribe m =>
    simp only [step]
    split
    · exact .subscribes ‹_›
    · exact .stays _
  | start c =>
    simp only [step]
    split
    · exact .begins ‹_›
    · exact .stays _
  | check c =>
    simp only [step]
    split
    · split_ifs with h
      · exact .finds ‹_› h.2
      · exact .misses ‹_› fun hmeta => of_not_not fun hne => h ⟨hmeta, hne⟩
    · exact .stays _
  | send c =>
    simp only [step]
    split
    · exact .sends ‹_›
    · exact .stays _

theorem update_passed {c c' : ℕ} {p : CommandPhase} (hc : s.command c ≠ .passed)
    (h : s.command c' = .passed) : Function.update s.command c p c' = .passed := by
  have hne : c' ≠ c := by
    rintro rfl
    exact hc h
  rw [Function.update_of_ne hne, h]

theorem Moves.passed (hmove : Moves calls s e s') {c : ℕ} (h : s.command c = .passed) :
    s'.command c = .passed := by
  cases hmove with
  | stays | acknowledges | subscribes => exact h
  | begins hc => exact update_passed (by simp [hc]) h
  | finds hc => exact update_passed (by simp [hc]) h
  | misses hc => exact update_passed (by simp [hc]) h
  | sends hc => exact update_passed (by simp [hc]) h

theorem update_subscribed {m m' : ℕ} {p : MonitorPhase}
    (hm : ∀ channel, s.monitor m ≠ .subscribed channel) (h : s.Subscribed m') :
    ∃ channel, Function.update s.monitor m p m' = .subscribed channel := by
  obtain ⟨channel, hc⟩ := h
  have hne : m' ≠ m := by
    rintro rfl
    exact hm channel hc
  exact ⟨channel, by rw [Function.update_of_ne hne, hc]⟩

theorem Moves.subscribed (hmove : Moves calls s e s') {m : ℕ} (h : s.Subscribed m) :
    s'.Subscribed m := by
  cases hmove with
  | stays | begins | finds | misses | sends => exact h
  | acknowledges hm => exact update_subscribed (by simp [hm]) h
  | subscribes hm => exact update_subscribed (by simp [hm]) h

theorem Moves.received (hmove : Moves calls s e s') :
    s'.received = s.received
      ∨ ∃ c, e = .send c ∧ s.command c = .found ∧ s'.command c = .passed
        ∧ s'.received = s.receivedAfter c := by
  cases hmove with
  | stays | acknowledges | subscribes | begins | finds | misses => exact .inl rfl
  | @sends c h => exact .inr ⟨c, rfl, h, Function.update_self c _ _, rfl⟩

theorem Moves.passes (hmove : Moves calls s e s') {c : ℕ} (hc : s.command c ≠ .passed)
    (h : s'.command c = .passed) :
    (e = .check c ∧ s.command c = .begun
        ∧ (Server.monitorMeta (calls c).2 = false → s.server.monitors = []))
      ∨ e = .send c ∧ s.command c = .found ∧ s'.received = s.receivedAfter c := by
  have hother : ∀ {c' : ℕ} {p : CommandPhase}, Function.update s.command c' p c = .passed →
      c = c' ∧ p = .passed := by
    intro c' p hu
    by_cases hne : c = c'
    · subst hne
      rw [Function.update_self] at hu
      exact ⟨rfl, hu⟩
    · rw [Function.update_of_ne hne] at hu
      exact absurd hu hc
  cases hmove with
  | stays | acknowledges | subscribes => exact absurd h hc
  | begins => cases (hother h).2
  | finds => cases (hother h).2
  | misses hb hnone =>
    obtain ⟨rfl, -⟩ := hother h
    exact .inl ⟨rfl, hb, hnone⟩
  | sends hf =>
    obtain ⟨rfl, -⟩ := hother h
    exact .inr ⟨rfl, hf, rfl⟩

theorem receivedAfter_of_subscribed {m : ℕ} (h : s.Subscribed m) (c : ℕ) :
    s.receivedAfter c m = s.received m ++ [c] := by
  obtain ⟨channel, hm⟩ := h
  unfold receivedAfter
  rw [hm]

theorem receivedAfter_of_not_subscribed {m : ℕ} (h : ¬ s.Subscribed m) (c : ℕ) :
    s.receivedAfter c m = s.received m := by
  unfold receivedAfter
  split
  · rename_i channel hm
    exact absurd ⟨channel, hm⟩ h
  · rfl

/-! ## The sequence of commands -/

/-- Every monitor received an end of what was sent, and nothing before it subscribed. -/
structure Sequenced (s : MonitorSystem) (sent : List ℕ) : Prop where
  nodup : sent.Nodup
  passed : ∀ c ∈ sent, s.command c = .passed
  suffix : ∀ m, s.received m <:+ sent
  silent : ∀ m, ¬ s.Subscribed m → s.received m = []

theorem sequenced_start (server : Server) : Sequenced (start server) [] where
  nodup := .nil
  passed _ hc := absurd hc List.not_mem_nil
  suffix _ := List.suffix_rfl
  silent _ _ := rfl

theorem Sequenced.step {sent : List ℕ} (h : Sequenced s sent) (hmove : Moves calls s e s') :
    ∃ sent', Sequenced s' sent' := by
  rcases hmove.received with hsame | ⟨c, -, hfound, hpassed, hafter⟩
  · refine ⟨sent, h.nodup, fun c hc => hmove.passed (h.passed c hc), fun m => ?_, fun m hm => ?_⟩
    · rw [hsame]
      exact h.suffix m
    · rw [hsame]
      exact h.silent m fun hsub => hm (hmove.subscribed hsub)
  · have hnew : c ∉ sent := fun hc => by
      have := h.passed c hc
      rw [hfound] at this
      cases this
    refine ⟨sent ++ [c], ?_, ?_, fun m => ?_, fun m hm => ?_⟩
    · rw [← List.concat_eq_append]
      exact h.nodup.concat hnew
    · intro c' hc'
      rcases List.mem_append.1 hc' with hc' | hc'
      · exact hmove.passed (h.passed c' hc')
      · rw [List.mem_singleton.1 hc']
        exact hpassed
    · rw [hafter]
      by_cases hsub : s.Subscribed m
      · rw [receivedAfter_of_subscribed hsub]
        exact List.suffix_append_self_iff.2 (h.suffix m)
      · rw [receivedAfter_of_not_subscribed hsub, h.silent m hsub]
        exact List.nil_suffix
    · have hsub : ¬ s.Subscribed m := fun hsub => hm (hmove.subscribed hsub)
      rw [hafter, receivedAfter_of_not_subscribed hsub, h.silent m hsub]

theorem sequenced_run (calls : ℕ → Reading × Protocol.Command) (server : Server)
    (events : List MonitorEvent) : ∃ sent, Sequenced ((start server).run calls events) sent :=
  @Runs.foldl_invariant _ _ (step calls) (fun s => ∃ sent, Sequenced s sent)
    (fun s e ⟨_, h⟩ => h.step (step_moves calls s e)) events _ ⟨[], sequenced_start server⟩

theorem Sequenced.notMem {sent : List ℕ} (h : Sequenced s sent) {c : ℕ}
    (hc : s.command c ≠ .passed) (m : ℕ) : c ∉ s.received m := fun hmem =>
  hc (h.passed c ((h.suffix m).subset hmem))

theorem Sequenced.count_le {sent : List ℕ} (h : Sequenced s sent) (m c : ℕ) :
    (s.received m).count c ≤ 1 :=
  List.nodup_iff_count_le_one.1 (h.nodup.sublist (h.suffix m).sublist) c

theorem filter_of_suffix {short long : List ℕ} (h : short <:+ long) (hlong : long.Nodup) :
    long.filter (· ∈ short) = short.filter (· ∈ long) := by
  have hshort : short.filter (· ∈ long) = short :=
    List.filter_eq_self.2 fun c hc => decide_eq_true (h.subset hc)
  rw [hshort]
  obtain ⟨front, rfl⟩ := h
  have hdisjoint := (List.nodup_append.1 hlong).2.2
  have hfront : front.filter (· ∈ short) = [] :=
    List.filter_eq_nil_iff.2 fun c hc hmem => hdisjoint c hc c (of_decide_eq_true hmem) rfl
  have hself : short.filter (· ∈ short) = short :=
    List.filter_eq_self.2 fun c hc => decide_eq_true hc
  rw [List.filter_append, hfront, hself, List.nil_append]

theorem Sequenced.same_order {sent : List ℕ} (h : Sequenced s sent) (m m' : ℕ) :
    (s.received m).filter (· ∈ s.received m') = (s.received m').filter (· ∈ s.received m) := by
  have hnodup : ∀ m, (s.received m).Nodup := fun m => h.nodup.sublist (h.suffix m).sublist
  rcases List.suffix_or_suffix_of_suffix (h.suffix m) (h.suffix m') with hm | hm
  · exact (filter_of_suffix hm (hnodup m')).symm
  · exact filter_of_suffix hm (hnodup m)

theorem Moves.mem_received (hmove : Moves calls s e s') {c : ℕ}
    (hc : s.command c = .passed) (m : ℕ) : c ∈ s'.received m ↔ c ∈ s.received m := by
  rcases hmove.received with hsame | ⟨c', -, hfound, -, hafter⟩
  · rw [hsame]
  · have hne : c ≠ c' := by
      rintro rfl
      rw [hc] at hfound
      cases hfound
    rw [hafter]
    by_cases hsub : s.Subscribed m
    · rw [receivedAfter_of_subscribed hsub]
      simp [hne]
    · rw [receivedAfter_of_not_subscribed hsub]

theorem run_passed {c : ℕ} (hc : s.command c = .passed) (m : ℕ) (events : List MonitorEvent) :
    (s.run calls events).command c = .passed
      ∧ (c ∈ (s.run calls events).received m ↔ c ∈ s.received m) := by
  refine @Runs.foldl_invariant _ _ (step calls)
    (fun s' => s'.command c = .passed ∧ (c ∈ s'.received m ↔ c ∈ s.received m))
    (fun s' e ⟨hp, hmem⟩ => ?_) events s ⟨hc, Iff.rfl⟩
  have hmove := step_moves calls s' e
  exact ⟨hmove.passed hp, (hmove.mem_received hp m).trans hmem⟩

section Delivery

variable {server : Server} {events : List MonitorEvent} {m c n : ℕ}

theorem mem_received_of_turn (he : events[n]? = some e)
    (h : (((start server).run calls (events.take n)).step calls e).command c = .passed) :
    c ∈ ((start server).run calls events).received m
      ↔ c ∈ (((start server).run calls (events.take n)).step calls e).received m := by
  have hrun : (start server).run calls events
      = (((start server).run calls (events.take n)).step calls e).run calls
        (events.drop (n + 1)) := by
    have hnext := @Runs.foldl_take_succ _ _ (step calls) (start server) events n e he
    unfold run
    rw [← hnext, Runs.foldl_take_drop]
  rw [hrun]
  exact (run_passed h m (events.drop (n + 1))).2

/-- A command that has passed was received exactly if it was in time. -/
theorem mem_received_iff (hmeta : Server.monitorMeta (calls c).2 = false)
    (hpassed : ((start server).run calls events).command c = .passed) :
    c ∈ ((start server).run calls events).received m
      ↔ InTime calls (start server) events m c := by
  constructor
  · intro hmem
    refine ⟨fun n he hbegun hnone => ?_, fun n he hfound => ?_⟩
    · obtain ⟨sent, hsent⟩ := sequenced_run calls server (events.take n)
      have hstep : ((start server).run calls (events.take n)).step calls (.check c)
          = ((start server).run calls (events.take n)).advance c .passed := by
        simp [step, hbegun, hnone]
      have hpass : (((start server).run calls (events.take n)).step calls (.check c)).command c
          = .passed := by
        rw [hstep]
        exact Function.update_self c _ _
      rw [mem_received_of_turn he hpass, hstep] at hmem
      exact hsent.notMem (by simp [hbegun]) m hmem
    · obtain ⟨sent, hsent⟩ := sequenced_run calls server (events.take n)
      by_contra hsub
      have hreceived : (((start server).run calls (events.take n)).step calls (.send c)).received
          = ((start server).run calls (events.take n)).receivedAfter c := by
        simp [step, hfound]
      have hpass : (((start server).run calls (events.take n)).step calls (.send c)).command c
          = .passed := by
        simp [step, hfound, advance]
      rw [mem_received_of_turn he hpass, hreceived, receivedAfter_of_not_subscribed hsub] at hmem
      exact hsent.notMem (by simp [hfound]) m hmem
  · rintro ⟨hcheck, hsend⟩
    have hwaiting : ¬ (start server).command c = .passed := by simp [start]
    have hturn : ∃ n e, events[n]? = some e
        ∧ ¬ ((start server).run calls (events.take n)).command c = .passed
        ∧ (((start server).run calls (events.take n)).step calls e).command c = .passed :=
      @Runs.exists_turn _ _ (step calls) _ _ (·.command c = .passed) hwaiting hpassed
    obtain ⟨n, e, he, hbefore, hafter⟩ := hturn
    rw [mem_received_of_turn he hafter]
    rcases (step_moves calls _ e).passes hbefore hafter with ⟨rfl, hbegun, hnone⟩
      | ⟨rfl, hfound, hreceived⟩
    · exact absurd (hnone hmeta) (hcheck n he hbegun)
    · rw [hreceived, receivedAfter_of_subscribed (hsend n he hfound) c]
      exact List.mem_append_right _ (List.mem_singleton_self c)

end Delivery

/-- What the registry sent to a subscriber is what the system records. -/
def Recorded (calls : ℕ → Reading × Protocol.Command) (s : MonitorSystem) : Prop :=
  s.server.Fresh ∧ ∀ m channel, s.monitor m = .subscribed channel →
    s.server.Listens channel
      ((s.received m).map fun c => Server.message (calls c).1 (calls c).2)

theorem subscribed_update {m m' channel : ℕ} {p : MonitorPhase}
    (h : Function.update s.monitor m p m' = .subscribed channel) :
    m' = m ∧ p = .subscribed channel ∨ s.monitor m' = .subscribed channel := by
  by_cases hne : m' = m
  · subst hne
    rw [Function.update_self] at h
    exact .inl ⟨rfl, h⟩
  · rw [Function.update_of_ne hne] at h
    exact .inr h

theorem Recorded.step {sent : List ℕ} (h : Recorded calls s) (hs : Sequenced s sent)
    (hmove : Moves calls s e s') : Recorded calls s' := by
  obtain ⟨hfresh, hlistens⟩ := h
  cases hmove with
  | stays | finds | misses => exact ⟨hfresh, hlistens⟩
  | acknowledges hm =>
    refine ⟨hfresh, fun m' channel hm' => ?_⟩
    rcases subscribed_update hm' with ⟨-, hp⟩ | hold
    · cases hp
    · exact hlistens m' channel hold
  | @subscribes m hm =>
    refine ⟨hfresh.subscribe, fun m' channel hm' => ?_⟩
    rcases subscribed_update hm' with ⟨rfl, hp⟩ | hold
    · cases hp
      have hsilent : s.received m' = [] := hs.silent m' fun ⟨channel, hc⟩ => by
        rw [hm] at hc
        cases hc
      simp only [hsilent, List.map_nil]
      exact Server.listens_subscribe hfresh
    · exact (hlistens m' channel hold).subscribe
  | begins =>
    exact ⟨hfresh.of_registry rfl, fun m channel hm => (hlistens m channel hm).of_registry rfl⟩
  | @sends c hc =>
    refine ⟨hfresh.broadcast _, fun m channel hm => ?_⟩
    have hsub : s.Subscribed m := ⟨channel, hm⟩
    simp only [receivedAfter_of_subscribed hsub c, List.map_append, List.map_singleton]
    exact (hlistens m channel hm).broadcast _

theorem recorded_run (calls : ℕ → Reading × Protocol.Command) {server : Server}
    (hfresh : server.Fresh) (events : List MonitorEvent) :
    Recorded calls ((start server).run calls events) := by
  have hinv := @Runs.foldl_invariant _ _ (step calls)
    (fun s => Recorded calls s ∧ ∃ sent, Sequenced s sent)
    (fun s e ⟨h, _, hs⟩ => ⟨h.step hs (step_moves calls s e), hs.step (step_moves calls s e)⟩)
    events (start server) ⟨⟨hfresh, fun _ _ hm => by cases hm⟩, [], sequenced_start server⟩
  exact hinv.1

/-- The steps of a command with no others in between are those of the server. -/
theorem run_announce (calls : ℕ → Reading × Protocol.Command) (s : MonitorSystem) (c : ℕ)
    (hc : s.command c = .waiting) :
    (s.run calls [.start c, .check c, .send c]).server
      = s.server.announce (calls c).1 (calls c).2 := by
  unfold Server.announce
  rcases hmeta : Server.monitorMeta (calls c).2 with _ | _
  · by_cases hnone : s.server.monitors = []
    · simp [run, step, hc, advance, hnone]
    · simp [run, step, hc, advance, hmeta, hnone, Server.message]
  · simp [run, step, hc, advance, hmeta]

/-! ## Completeness -/

/-- Along every interleaving: a command that has passed reached a monitor exactly once if and only
if it was in time; none reaches a monitor twice; two monitors receive what they both receive in one
order; and what they received is what the registry sent them. -/
theorem monitor_delivery (calls : ℕ → Reading × Protocol.Command) (server : Server)
    (hfresh : server.Fresh) (events : List MonitorEvent) :
    (∀ m c, Server.monitorMeta (calls c).2 = false →
        ((start server).run calls events).command c = .passed →
        ((((start server).run calls events).received m).count c = 1
          ↔ InTime calls (start server) events m c))
      ∧ (∀ m c, (((start server).run calls events).received m).count c ≤ 1)
      ∧ (∀ m m', (((start server).run calls events).received m).filter
            (· ∈ ((start server).run calls events).received m')
          = (((start server).run calls events).received m').filter
            (· ∈ ((start server).run calls events).received m))
      ∧ ∀ m channel, ((start server).run calls events).monitor m = .subscribed channel →
          ((start server).run calls events).server.Listens channel
            ((((start server).run calls events).received m).map
              fun c => Server.message (calls c).1 (calls c).2) := by
  obtain ⟨sent, hsent⟩ := sequenced_run calls server events
  refine ⟨fun m c hmeta hpassed => ?_, hsent.count_le, hsent.same_order,
    (recorded_run calls hfresh events).2⟩
  rw [← mem_received_iff hmeta hpassed, ← List.count_pos_iff]
  have := hsent.count_le m c
  omega

def dbSizeCalls (_ : ℕ) : Reading × Protocol.Command := (Connection.steadyReading 0, .dbSize)

/-- A command that begins after the subscription. -/
def watched : List MonitorEvent := [.acknowledge 0, .subscribe 0, .start 0, .check 0, .send 0]

theorem monitor_delivery_watched :
    (((start .new).run dbSizeCalls watched).received 0).count 0 = 1
      ∧ InTime dbSizeCalls (start .new) watched 0 0 := by
  have hfresh : Server.new.Fresh := fun m hm => absurd hm List.not_mem_nil
  have honce : (((start .new).run dbSizeCalls watched).received 0).count 0 = 1 := by decide
  exact ⟨honce, ((monitor_delivery dbSizeCalls .new hfresh watched).1 0 0 rfl rfl).1 honce⟩

/-- A command that begins between `+OK` and the subscription. -/
def unwatched : List MonitorEvent := [.acknowledge 0, .start 0, .check 0, .subscribe 0, .send 0]

/-- It began after `+OK`, it is one that monitors are shown, and it reaches none. -/
theorem monitor_misses_command :
    BeginsAfter dbSizeCalls (start .new) unwatched 0 0
      ∧ Server.monitorMeta (dbSizeCalls 0).2 = false
      ∧ ((start .new).run dbSizeCalls unwatched).command 0 = .passed
      ∧ ((start .new).run dbSizeCalls unwatched).received 0 = [] :=
  ⟨⟨1, rfl, rfl, fun h => by cases h⟩, rfl, rfl, rfl⟩

end FerrumKv.MonitorSystem
