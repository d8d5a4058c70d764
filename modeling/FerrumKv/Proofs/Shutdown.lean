import FerrumKv.Lib.Runs
import FerrumKv.Shutdown

/-!
# No wake-up is lost

A future of `notified` never resolves before the flag is set, and once a `trigger` has returned two
polls resolve it, wherever it stood (`notified_wakes`). The invariant is that a parked future was
created before the last notification as soon as one call of `trigger` has returned.
-/

namespace FerrumKv.SignalSystem

variable {s : SignalSystem}

/-- What every step keeps. -/
structure Sound (s : SignalSystem) : Prop where
  armed : ∀ w n, s.wait w = .armed n → n ≤ s.signal.notifyCalls
  parked : ∀ w n, s.wait w = .parked n → n ≤ s.signal.notifyCalls
  resolved : ∀ w, s.wait w = .resolved → s.signal.flag = true
  stored : ∀ t, s.triggering t = true → s.signal.flag = true
  notified : 0 < s.signal.notifyCalls → s.signal.flag = true
  returned : 0 < s.returned → s.signal.flag = true
    ∧ ∀ w n, s.wait w = .parked n → n < s.signal.notifyCalls

theorem start_sound (notify : Notify) : Sound (start notify) where
  armed _ _ h := by cases h
  parked _ _ h := by cases h
  resolved _ h := by cases h
  stored _ h := by cases h
  notified h := absurd h (lt_irrefl 0)
  returned h := absurd h (lt_irrefl 0)

theorem poll_armed {signal : Shutdown} {x : Wait} {n : ℕ} (h : x.poll signal = .armed n) :
    n = signal.notifyCalls := by
  cases x <;> simp only [Wait.poll] at h <;> (try split_ifs at h) <;> simp_all

theorem poll_parked {signal : Shutdown} {x : Wait} {n : ℕ} (h : x.poll signal = .parked n) :
    x = .armed n ∧ signal.flag = false ∨ x = .parked n := by
  cases x <;> simp only [Wait.poll] at h <;> (try split_ifs at h) <;> simp_all

theorem poll_resolved {signal : Shutdown} {x : Wait} (h : x.poll signal = .resolved) :
    signal.flag = true
      ∨ (∃ n, x = .parked n ∧ signal.notify.resolves n signal.notifyCalls = true)
      ∨ x = .resolved := by
  cases x <;> simp only [Wait.poll] at h <;> (try split_ifs at h) <;> simp_all

/-- Futures may be polled, dropped for new ones, or left alone, any number of them. -/
theorem Sound.waits (hs : Sound s) {wait : ℕ → Wait}
    (h : ∀ w, wait w = s.wait w ∨ wait w = .fresh ∨ wait w = (s.wait w).poll s.signal) :
    Sound { s with wait := wait } where
  armed w n hw := by
    rcases h w with h | h | h <;> replace hw := h.symm.trans hw
    · exact hs.armed w n hw
    · cases hw
    · exact (poll_armed hw).le
  parked w n hw := by
    rcases h w with h | h | h <;> replace hw := h.symm.trans hw
    · exact hs.parked w n hw
    · cases hw
    · rcases poll_parked hw with ⟨hw, -⟩ | hw
      · exact hs.armed w n hw
      · exact hs.parked w n hw
  resolved w hw := by
    rcases h w with h | h | h <;> replace hw := h.symm.trans hw
    · exact hs.resolved w hw
    · cases hw
    · rcases poll_resolved hw with hw | ⟨n, hw, hwoken⟩ | hw
      · exact hw
      · -- the waiter was not created after the last call, or the `Notify` would have left it
        refine hs.notified (Nat.pos_of_ne_zero fun hzero => ?_)
        have hle := hs.parked w n hw
        rw [hzero] at hle hwoken
        rw [Nat.le_zero.1 hle, s.signal.notify.quiet] at hwoken
        cases hwoken
      · exact hs.resolved w hw
  stored := hs.stored
  notified := hs.notified
  returned hret := by
    obtain ⟨hflag, hbehind⟩ := hs.returned hret
    refine ⟨hflag, fun w n hw => ?_⟩
    rcases h w with h | h | h <;> replace hw := h.symm.trans hw
    · exact hbehind w n hw
    · cases hw
    · rcases poll_parked hw with ⟨-, hoff⟩ | hw
      · exact absurd (hflag.symm.trans hoff) (by decide)
      · exact hbehind w n hw

theorem update_waits {w : ℕ} {x : Wait} (hx : x = .fresh ∨ x = (s.wait w).poll s.signal) (w' : ℕ) :
    Function.update s.wait w x w' = s.wait w' ∨ Function.update s.wait w x w' = .fresh
      ∨ Function.update s.wait w x w' = (s.wait w').poll s.signal := by
  by_cases hw : w' = w
  · subst hw
    rw [Function.update_self]
    exact .inr hx
  · rw [Function.update_of_ne hw]
    exact .inl rfl

theorem Sound.store (hs : Sound s) (t : ℕ) :
    Sound
      { s with signal := s.signal.store, triggering := Function.update s.triggering t true } where
  armed w n h := hs.armed w n h
  parked w n h := hs.parked w n h
  resolved _ _ := rfl
  stored _ _ := rfl
  notified _ := rfl
  returned h := ⟨rfl, (hs.returned h).2⟩

theorem Sound.notify (hs : Sound s) {t : ℕ} (ht : s.triggering t = true) :
    Sound { s with
      signal := s.signal.notifyWaiters
      triggering := Function.update s.triggering t false
      returned := s.returned + 1 } where
  armed w n h := Nat.le_succ_of_le (hs.armed w n h)
  parked w n h := Nat.le_succ_of_le (hs.parked w n h)
  resolved w h := hs.resolved w h
  stored _ _ := hs.stored t ht
  notified _ := hs.stored t ht
  returned _ := ⟨hs.stored t ht, fun w n h => Nat.lt_succ_of_le (hs.parked w n h)⟩

theorem Sound.step (hs : Sound s) (e : Event) : Sound (s.step e) := by
  cases e with
  | notified w => exact hs.waits (update_waits (.inl rfl))
  | poll w => exact hs.waits (update_waits (.inr rfl))
  | trigger t =>
    simp only [SignalSystem.step]
    split_ifs with ht
    · exact hs.notify ht
    · exact hs.store t

theorem run_sound (hs : Sound s) (events : List Event) : Sound (s.run events) :=
  Runs.foldl_invariant (I := Sound) (fun _ e hs => hs.step e) events hs

/-- The polls a future needs once a `trigger` has returned. -/
def left : Wait → ℕ
  | .fresh | .armed _ | .parked _ => 1
  | .probed => 2
  | .resolved => 0

theorem left_poll {x : Wait} {signal : Shutdown} (hflag : signal.flag = true)
    (hbehind : ∀ n, x = .parked n → n < signal.notifyCalls) :
    left (x.poll signal) ≤ left x - 1 := by
  cases x with
  | fresh => simp [Wait.poll, hflag, left]
  | probed => simp [Wait.poll, left]
  | armed n => simp [Wait.poll, hflag, left]
  | parked n =>
    rw [Wait.poll, if_pos (signal.notify.wakes (hbehind n rfl))]
    exact Nat.zero_le _
  | resolved => simp [Wait.poll, left]

theorem step_returned (s : SignalSystem) (e : Event) : s.returned ≤ (s.step e).returned := by
  cases e with
  | notified w | poll w => exact le_rfl
  | trigger t =>
    simp only [step]
    split_ifs
    · exact Nat.le_succ _
    · exact le_rfl

theorem left_step (hs : Sound s) (hret : 0 < s.returned) {e : Event} {w : ℕ}
    (he : e ≠ .notified w) :
    left ((s.step e).wait w) ≤ left (s.wait w) - (decide (e = .poll w)).toNat := by
  obtain ⟨hflag, hbehind⟩ := hs.returned hret
  cases e with
  | notified w' =>
    have hne : w ≠ w' := by
      rintro rfl
      exact he rfl
    simp [step, hne]
  | poll w' =>
    by_cases hw : w = w'
    · subst hw
      simpa [step] using left_poll hflag (hbehind w)
    · simp [step, hw, Ne.symm hw]
  | trigger t =>
    simp only [step]
    split_ifs <;> simp_all

theorem left_eq_zero {x : Wait} (h : left x = 0) : x = .resolved := by
  cases x <;> simp [left] at h ⊢

/-- Whatever `Notify` the signal has: no future of `notified` resolves before the flag is set. Once
a call of `trigger` has returned, any future resolves with its second poll at the latest, whatever
else happens in between. -/
theorem notified_wakes (notify : Notify) (events later : List Event) (w : ℕ) :
    (((start notify).run events).wait w = .resolved →
        ((start notify).run events).signal.flag = true)
      ∧ (0 < ((start notify).run events).returned → Event.notified w ∉ later →
        2 ≤ later.count (.poll w) →
        (((start notify).run events).run later).wait w = .resolved) := by
  have hs := run_sound (start_sound notify) events
  refine ⟨hs.resolved w, fun hret hno hpolls => left_eq_zero ?_⟩
  have hle : left ((((start notify).run events).run later).wait w)
      ≤ left (((start notify).run events).wait w) - later.count (.poll w) :=
    (Runs.foldl_countdown (I := fun s => Sound s ∧ 0 < s.returned)
      (m := fun s => left (s.wait w)) later ⟨hs, hret⟩ fun e he s h =>
        ⟨⟨h.1.step e, h.2.trans_le (step_returned s e)⟩,
          left_step h.1 h.2 fun hn => hno (hn ▸ he)⟩).2
  have htwo : left (((start notify).run events).wait w) ≤ 2 := by
    cases ((start notify).run events).wait w <;> simp [left]
  omega

/-- A future that is parked when a `trigger` begins and returns. -/
theorem notified_wakes_parked :
    ((start .counting).run [.poll 0, .poll 0, .poll 0, .trigger 5, .trigger 5]).wait 0 = .parked 0
      ∧ (((start .counting).run [.poll 0, .poll 0, .poll 0, .trigger 5, .trigger 5]).run
        [.poll 0, .poll 0]).wait 0 = .resolved :=
  ⟨rfl, (notified_wakes .counting [.poll 0, .poll 0, .poll 0, .trigger 5, .trigger 5]
    [.poll 0, .poll 0] 0).2 (by decide) (by decide) (by decide)⟩

/-- A `trigger` whose halves fall on the two sides of the second reading of the flag. -/
example (notify : Notify) :
    ((start notify).run [.poll 0, .poll 0, .trigger 5, .poll 0]).wait 0 = .resolved := rfl

end FerrumKv.SignalSystem
