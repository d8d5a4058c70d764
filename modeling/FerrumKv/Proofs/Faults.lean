import FerrumKv.Faults
import FerrumKv.Proofs.Rewrite

/-!
# What a failed rewrite leaves

Where a rewrite fails on its temp file and no append comes between the two steps of `abort_rewrite`,
the slot is free again once the worker has returned, and the log is whole; any fault of
`finish_rewrite` leaves the flag set, so that no later request starts a worker
(`failed_rewrite_released`). `failed_rewrite_leaks` has the runs that keep the slot or lose what is
appended afterwards.
-/

namespace FerrumKv

namespace AofSystem

section Fail

variable {T : ℕ} {s : AofSystem} {w : ℕ} {f : Fault}

/-! ## Faults on the temp file -/

theorem Owned.temp_ne_handle (h : Owned s) {inode : ℕ} (hpc : (s.worker w).pc = .created inode) :
    s.handle ≠ inode := by
  obtain ⟨-, -, -, hp⟩ := h.busy (w := w) (by simp [hpc])
  rw [hpc] at hp
  exact (h.1.2.2 inode hp.2.1).2.2.symm

theorem writeTempPart_eq (h : Owned s) (written : ℕ) :
    ∃ files, s.writeTempPart w written = { s with files := files }
      ∧ files s.handle = s.files s.handle := by
  unfold writeTempPart
  split
  · rename_i inode hpc
    exact ⟨_, rfl, Function.update_of_ne (h.temp_ne_handle hpc) _ _⟩
  · exact ⟨s.files, rfl, rfl⟩

theorem fail_of_onTemp (h : Owned s) (hf : f.onTemp = true) :
    ∃ files, s.fail w f = { { s with files := files }.setPc w .begun with temp := none }
      ∧ files s.handle = s.files s.handle := by
  cases f with
  | create => exact ⟨s.files, rfl, rfl⟩
  | write written =>
    obtain ⟨files, he, hfile⟩ := writeTempPart_eq (w := w) h written
    exact ⟨files, by rw [fail, he], hfile⟩
  | sync =>
    obtain ⟨files, he, hfile⟩ :=
      writeTempPart_eq (w := w) h (serialiseCompactAof (s.worker w).snapshot).length
    exact ⟨files, by rw [fail, he], hfile⟩
  | rename | reopen | clone | deltaWrite | deltaFlush | deltaSync => cases hf

theorem CanFail.running (hc : s.CanFail w f) : (s.worker w).pc ≠ .idle := by
  cases f with
  | create | rename | reopen | clone => exact fun h => nomatch h.symm.trans hc
  | write | sync =>
    obtain ⟨inode, hpc⟩ := hc
    simp [hpc]
  | deltaWrite | deltaFlush | deltaSync => simp [hc.1]

theorem CanFail.path_eq (h : Owned s) (hc : s.CanFail w f) (hf : f.onTemp = true) :
    s.path = s.handle := by
  obtain ⟨-, -, -, hp⟩ := h.busy hc.running
  cases f with
  | create =>
    rw [show (s.worker w).pc = .admitted from hc] at hp
    exact hp
  | write | sync =>
    obtain ⟨inode, hpc⟩ := hc
    rw [hpc] at hp
    exact hp.1
  | rename | reopen | clone | deltaWrite | deltaFlush | deltaSync => cases hf

theorem fail_owned (h : Owned s) (hc : s.CanFail w f) (hf : f.onTemp = true) :
    Owned (s.fail w f) := by
  have hb := h.busy hc.running
  have hp := hc.path_eq h hf
  obtain ⟨files, he, -⟩ := fail_of_onTemp (w := w) h hf
  rw [he]
  exact ⟨⟨h.1.1, h.1.2.1, fun i hi => (by cases hi)⟩, .inr ⟨w, hb.move rfl (by simp)
    (hb.2.2.1.move rfl rfl rfl rfl (by simp [InWindow])) hp⟩⟩

theorem fail_faithful (ho : Owned s) (h : Faithful T s) (hc : s.CanFail w f)
    (hf : f.onTemp = true) : Faithful T (s.fail w f) := by
  obtain ⟨files, he, hfile⟩ := fail_of_onTemp (w := w) ho hf
  rw [he]
  refine h.frame rfl rfl hfile fun w' hrun => ?_
  by_cases hne : w' = w
  · subst hne
    simp [setPc, setWorker, hc.running]
  · simp only [setPc, setWorker, Function.update_of_ne hne] at hrun ⊢
    exact ⟨hrun, trivial, trivial, id⟩

theorem clearDelta_owned (h : Owned s) (hpc : (s.worker w).pc = .begun) :
    Owned (s.clearDelta w) := by
  have hb := h.busy (w := w) (by simp [hpc])
  obtain ⟨hrun, -, hc, hp⟩ := id hb
  rw [hpc] at hp
  refine ⟨h.1, .inr ⟨w, hb.move rfl hrun ?_ ?_⟩⟩
  · unfold Claim at hc ⊢
    split_ifs at hc ⊢
    · exact ⟨hc.1, rfl, hc.2.2⟩
    · exact ⟨hc.1, rfl⟩
  · simp only [hpc]
    exact hp

theorem clearDelta_faithful (h : Faithful T s) (hpc : (s.worker w).pc = .begun) :
    Faithful T (s.clearDelta w) := by
  refine ⟨h.1, h.2.1, fun hlater => ?_⟩
  obtain ⟨hagree, written, hlog, hst, hcap⟩ := h.2.2 hlater
  refine ⟨hagree, written, hlog, hst, fun w' hrun => ?_⟩
  by_cases hne : w' = w
  · subst hne
    simp only [clearDelta, setWorker, Function.update_self]
    exact ⟨written, [], [], by simp, rfl, fun hne => absurd hpc hne⟩
  · simp only [clearDelta, setWorker, Function.update_of_ne hne] at hrun ⊢
    exact hcap w' hrun

theorem lowerFlag_owned (h : Owned s) (hpc : (s.worker w).pc = .begun) (hd : s.delta = []) :
    Owned (s.lowerFlag w) := by
  have hb := h.busy (w := w) (by simp [hpc])
  obtain ⟨-, -, -, hp⟩ := id hb
  rw [hpc] at hp
  exact ⟨h.1, .inl (hb.leave rfl rfl rfl hd hp)⟩

theorem lowerFlag_faithful (h : Faithful T s) : Faithful T (s.lowerFlag w) := by
  refine h.frame rfl rfl rfl fun w' hrun => ?_
  by_cases hne : w' = w
  · subst hne
    simp [lowerFlag, setPc, setWorker] at hrun
  · simp only [lowerFlag, setPc, setWorker, Function.update_of_ne hne] at hrun ⊢
    exact ⟨hrun, trivial, trivial, id⟩

theorem step_delta {e : Event} (h : s.delta = [])
    (he : ∀ n, e = .write n → s.rewriting = false) : (s.step e).delta = [] := by
  cases e with
  | command env cmd =>
    simp only [step]
    split_ifs <;> exact h
  | write n =>
    have hr := he n rfl
    simp only [step]
    split_ifs
    · exact h
    · simp [writeBytes, overflows, hr, h]
  | request w' | snapshot w' env | recheck w' | check w' | swap w' =>
    simp only [step, swapHandle, setPc, setFile, setWorker]
    split_ifs <;> first | rfl | exact h
  | create w' =>
    simp only [step, createTemp]
    split_ifs
    · split <;> exact h
    · exact h
  | serialise w' =>
    simp only [step]
    split <;> exact h
  | rename w' =>
    simp only [step, renameTemp]
    split_ifs
    · split <;> exact h
    · exact h

theorem CanFail.rewriting (h : Owned s) (hc : s.CanFail w f) (hf : f.onTemp = false) :
    s.rewriting = true := by
  have hin : InWindow (s.worker w).pc := by
    cases f with
    | create | write | sync => cases hf
    | rename => exact .inl hc
    | reopen | clone => exact .inr hc
    | deltaWrite | deltaFlush | deltaSync => exact .inr hc.1
  obtain ⟨-, -, hcl, -⟩ := h.busy hc.running
  by_contra hr
  rw [Bool.not_eq_true] at hr
  exact (hcl.of_aborted (hcl.aborted_iff.2 hr)).2.2 hin

/-- The worker returns from it and leaves the flag and the delta as they are. -/
theorem fail_of_finish (hf : f.onTemp = false) :
    ((s.fail w f).worker w).pc = .idle ∧ (s.fail w f).rewriting = s.rewriting
      ∧ (s.fail w f).delta = s.delta := by
  cases f with
  | create | write | sync => cases hf
  | rename | reopen | clone | deltaWrite | deltaFlush | deltaSync =>
    simp [fail, swapPart, setPc, setWorker, setFile]

end Fail

end AofSystem

namespace FaultySystem

open AofSystem (Owned Faithful)

/-! ## The invariant -/

/-- A rewrite in progress is as one that does not fail, and a worker in `abort_rewrite` stands as one
that has begun, over an empty delta once that is cleared. -/
def Tidy (T : ℕ) (s : FaultySystem) : Prop :=
  Owned s.sys ∧ Faithful T s.sys
    ∧ ∀ w, s.cleanup w ≠ .none →
      (s.sys.worker w).pc = .begun ∧ (s.cleanup w = .cleared → s.sys.delta = [])

section Step

variable {T : ℕ} {s : FaultySystem}

theorem tidy_start (T deltaCap : ℕ) : Tidy T (start deltaCap) :=
  ⟨AofSystem.owned_start deltaCap, AofSystem.faithful_start T deltaCap,
    fun _ h => absurd rfl h⟩

/-- A plain step, taken unless it is the snapshot of a worker in `abort_rewrite`. -/
theorem step_plain (s : FaultySystem) (e : AofSystem.Event) :
    s.step (.plain e) = s ∨ s.step (.plain e) = { s with sys := s.sys.step e }
      ∧ ∀ w env, e = .snapshot w env → s.cleanup w = .none := by
  cases e with
  | snapshot w env =>
    simp only [step]
    split_ifs with hg
    · refine .inr ⟨rfl, fun w' env' he => ?_⟩
      cases he
      exact hg
    · exact .inl rfl
  | _ => exact .inr ⟨rfl, fun _ _ he => (by cases he)⟩

theorem plain_tidy (h : Tidy T s) {e : AofSystem.Event} (hc : AofSystem.ClockBy T e)
    (hs : Safe s (.plain e)) : Tidy T (s.step (.plain e)) := by
  rcases step_plain s e with he | ⟨he, hfree⟩
  · rw [he]
    exact h
  · obtain ⟨ho, hf, hclean⟩ := h
    obtain ⟨hq, hr, hw⟩ := hs
    rw [he]
    refine ⟨AofSystem.step_owned ho hq hr, AofSystem.step_faithful ho hf hc, fun w hne => ?_⟩
    obtain ⟨hpc, hd⟩ := hclean w hne
    refine ⟨AofSystem.step_begun hpc fun env he' => hne (hfree w env he'), fun hcl => ?_⟩
    refine AofSystem.step_delta (hd hcl) fun n he' => ?_
    by_contra hr'
    rw [Bool.not_eq_false] at hr'
    exact hw n he' hr' w hcl

/-- The others in `abort_rewrite`, of which there are none while a worker is running. -/
theorem Tidy.alone (h : Tidy T s) {w w' : ℕ} (hrun : (s.sys.worker w).pc ≠ .idle) (hne : w' ≠ w) :
    s.cleanup w' = .none := by
  by_contra hcl
  have hidle := (h.1.busy hrun).2.1 w' hne
  rw [(h.2.2 w' hcl).1] at hidle
  cases hidle

theorem Tidy.move (h : Tidy T s) {w : ℕ} {sys : AofSystem} {c : Cleanup}
    (hrun : (s.sys.worker w).pc ≠ .idle) (ho : Owned sys) (hf : Faithful T sys)
    (hc : c ≠ .none → (sys.worker w).pc = .begun ∧ (c = .cleared → sys.delta = [])) :
    Tidy T ⟨sys, Function.update s.cleanup w c⟩ := by
  refine ⟨ho, hf, fun w' hne' => ?_⟩
  by_cases hne : w' = w
  · subst hne
    simp only [Function.update_self] at hne' ⊢
    exact hc hne'
  · simp only [Function.update_of_ne hne] at hne'
    exact absurd (h.alone hrun hne) hne'

theorem fail_tidy (h : Tidy T s) {w : ℕ} {f : Fault} (hf : f.onTemp = true) :
    Tidy T (s.step (.fail w f)) := by
  simp only [step]
  split_ifs with hc
  · refine h.move hc.running (AofSystem.fail_owned h.1 hc hf)
      (AofSystem.fail_faithful h.1 h.2.1 hc hf) fun _ => ⟨?_, fun hcl => (by cases hcl)⟩
    obtain ⟨files, he, -⟩ := AofSystem.fail_of_onTemp (w := w) h.1 hf
    simp [he, AofSystem.setPc, AofSystem.setWorker]
  · exact h

theorem clear_tidy (h : Tidy T s) (w : ℕ) : Tidy T (s.step (.clear w)) := by
  simp only [step]
  split_ifs with hcl
  · have hpc := (h.2.2 w (by simp [hcl])).1
    refine h.move (by simp [hpc]) (AofSystem.clearDelta_owned h.1 hpc)
      (AofSystem.clearDelta_faithful h.2.1 hpc) fun _ => ⟨?_, fun _ => rfl⟩
    simp [AofSystem.clearDelta, AofSystem.setWorker, hpc]
  · exact h

theorem lower_tidy (h : Tidy T s) (w : ℕ) : Tidy T (s.step (.lower w)) := by
  simp only [step]
  split_ifs with hcl
  · obtain ⟨hpc, hd⟩ := h.2.2 w (by simp [hcl])
    exact h.move (by simp [hpc]) (AofSystem.lowerFlag_owned h.1 hpc (hd hcl))
      (AofSystem.lowerFlag_faithful h.2.1) fun hne => absurd rfl hne
  · exact h

theorem step_tidy (h : Tidy T s) {e : Event} (hc : ClockBy T e) (hs : Safe s e) :
    Tidy T (s.step e) := by
  cases e with
  | plain e => exact plain_tidy h hc hs
  | fail w f => exact fail_tidy h hs
  | clear w => exact clear_tidy h w
  | lower w => exact lower_tidy h w

end Step

theorem run_tidy {T : ℕ} (deltaCap : ℕ) (events : List Event) (hclock : ∀ e ∈ events, ClockBy T e)
    (hs : ∀ n e, events[n]? = some e → Safe ((start deltaCap).run (events.take n)) e) :
    Tidy T ((start deltaCap).run events) := by
  have h : ∀ n, Tidy T ((events.take n).foldl step (start deltaCap)) :=
    Runs.forall_take (tidy_start T deltaCap)
      fun n e he ih => step_tidy ih (hclock e (List.mem_of_getElem? he)) (hs n e he)
  have hlast := h events.length
  rwa [List.take_length] at hlast

section Left

variable {T : ℕ} {s : FaultySystem}

theorem Tidy.quiet (h : Tidy T s) (hidle : ∀ w, (s.sys.worker w).pc = .idle) :
    AofSystem.Quiet s.sys := by
  rcases h.1.2 with hq | ⟨w, hrun, -⟩
  · exact hq
  · exact absurd (hidle w) hrun

theorem request_starts (hr : s.sys.rewriting = false) {w : ℕ} (hw : (s.sys.worker w).pc = .idle) :
    ((s.step (.plain (.request w))).sys.worker w).pc = .begun := by
  simp [step, AofSystem.step, hr, hw, AofSystem.setWorker]

theorem request_refused (hr : s.sys.rewriting = true) (w : ℕ) :
    s.step (.plain (.request w)) = s := by
  simp [step, AofSystem.step, hr]

end Left

/-- Along a safe schedule, whenever no worker is running, the slot is free, the delta is empty, a
request starts a worker, and the file at the path replays, at a clock before all recorded deadlines,
to what the engine shows. A fault of `finish_rewrite` that strikes then makes the worker return with
the flag set, and no request starts a worker. -/
theorem failed_rewrite_released {T : ℕ} {env : Env} (henv : env.At T) (deltaCap : ℕ)
    (events : List Event) (hclock : ∀ e ∈ events, ClockBy T e)
    (hs : ∀ n e, events[n]? = some e → Safe ((start deltaCap).run (events.take n)) e)
    {s : FaultySystem} (hrun : (start deltaCap).run events = s) :
    ((∀ w, (s.sys.worker w).pc = .idle) →
        s.sys.rewriting = false ∧ s.sys.delta = []
          ∧ (∀ w, ((s.step (.plain (.request w))).sys.worker w).pc = .begun)
          ∧ (AofSystem.Later T s.sys.mem.log → s.sys.pending = [] →
            ∃ r, replay env (s.sys.files s.sys.path) KvEngine.new = .ok r
              ∧ ∀ k, (r.engine.store.lookup k).map (fun e => (e.data, e.expireAt))
                = live T s.sys.mem.store k))
      ∧ ∀ w f, s.sys.CanFail w f → f.onTemp = false →
        ((s.step (.fail w f)).sys.worker w).pc = .idle
          ∧ (s.step (.fail w f)).sys.rewriting = true
          ∧ ∀ w', (s.step (.fail w f)).step (.plain (.request w')) = s.step (.fail w f) := by
  have h := run_tidy deltaCap events hclock hs
  rw [hrun] at h
  refine ⟨fun hidle => ?_, fun w f hc hf => ?_⟩
  · obtain ⟨-, hr, hd, hp⟩ := h.quiet hidle
    exact ⟨hr, hd, fun w => request_starts hr (hidle w), h.2.1.replays henv hp⟩
  · obtain ⟨hpc, hr, -⟩ := AofSystem.fail_of_finish (s := s.sys) (w := w) hf
    have hstep : (s.step (.fail w f)).sys = s.sys.fail w f := by simp only [step, if_pos hc]
    have hset : (s.step (.fail w f)).sys.rewriting = true := by
      rw [hstep, hr]
      exact hc.rewriting h.1 hf
    exact ⟨hstep ▸ hpc, hset, request_refused hset⟩

/-- The temp file cannot be created, and an append follows. -/
def uncreated : List Event :=
  [.plain (.command (Env.steady 0) (.set [97] [49])), .plain (.write 0), .plain (.request 0),
    .plain (.snapshot 0 (Env.steady 0)), .plain (.recheck 0), .fail 0 .create, .clear 0, .lower 0,
    .plain (.command (Env.steady 0) (.set [98] [50])), .plain (.write 0)]

theorem failed_rewrite_released_uncreated :
    ((start 100).run uncreated).sys.rewriting = false
      ∧ ∃ r, replay (Env.steady 0)
          (((start 100).run uncreated).sys.files ((start 100).run uncreated).sys.path)
          KvEngine.new = .ok r
        ∧ (r.engine.store.lookup [97]).map (fun e => (e.data, e.expireAt)) = some ([49], none)
        ∧ (r.engine.store.lookup [98]).map (fun e => (e.data, e.expireAt)) = some ([50], none) := by
  have hsteady : (Env.steady 0).At 0 := Env.steady_at (by decide)
  have hclock : ∀ e ∈ uncreated, ClockBy 0 e := by
    intro e he
    fin_cases he <;> first | trivial | exact ⟨0, le_rfl, hsteady⟩
  have hs : ∀ n e, uncreated[n]? = some e → Safe ((start 100).run (uncreated.take n)) e := by
    rintro (_ | _ | _ | _ | _ | _ | _ | _ | _ | _ | n) e he <;> cases he
    all_goals first
      | trivial
      | rfl
      | exact ⟨trivial, trivial, fun _ he => (by cases he)⟩
      | exact ⟨trivial, fun _ _ _ _ => rfl, fun _ he => (by cases he)⟩
      | exact ⟨fun ho => absurd ho (by decide), trivial, fun _ _ hr => absurd hr (by decide)⟩
  have hlater : AofSystem.Later 0 ((start 100).run uncreated).sys.mem.log := by
    have hlog : ((start 100).run uncreated).sys.mem.log = [.set [97] [49], .set [98] [50]] := by
      decide
    intro key absMs hmem
    simp [hlog] at hmem
  have hidle : ∀ w, (((start 100).run uncreated).sys.worker w).pc = .idle := by
    rintro (_ | w) <;> rfl
  obtain ⟨hr, -, -, hreplay⟩ := (failed_rewrite_released hsteady 100 uncreated hclock hs rfl).1 hidle
  obtain ⟨r, hok, hk⟩ := hreplay hlater (by decide)
  exact ⟨hr, r, hok, (hk [97]).trans (by decide), (hk [98]).trans (by decide)⟩

/-- A rewrite of a log with one key, up to the look of `finish_rewrite`. -/
def untilCheck : List Event :=
  [.plain (.command (Env.steady 0) (.set [97] [49])), .plain (.write 0), .plain (.request 0),
    .plain (.snapshot 0 (Env.steady 0)), .plain (.recheck 0), .plain (.create 0),
    .plain (.serialise 0), .plain (.check 0)]

def unrenamed : List Event := untilCheck ++ [.fail 0 .rename]

/-- The renamed file cannot be reopened, and an append follows. -/
def unopened : List Event :=
  untilCheck ++ [.plain (.rename 0), .fail 0 .reopen,
    .plain (.command (Env.steady 0) (.set [98] [50])), .plain (.write 0)]

/-- The temp file cannot be created, and an append comes between the two steps of `abort_rewrite`. -/
def interposed : List Event :=
  [.plain (.request 0), .plain (.snapshot 0 (Env.steady 0)), .plain (.recheck 0), .fail 0 .create,
    .clear 0, .plain (.command (Env.steady 0) (.set [97] [49])), .plain (.write 0), .lower 0]

/-- The key is set again, and another rewrite succeeds. -/
def thenRewritten : List Event :=
  interposed ++ [.plain (.command (Env.steady 0) (.set [97] [50])), .plain (.write 0),
    .plain (.request 0), .plain (.snapshot 0 (Env.steady 0)), .plain (.recheck 0),
    .plain (.create 0), .plain (.serialise 0), .plain (.check 0), .plain (.rename 0),
    .plain (.swap 0)]

/-- A failed rename keeps the slot; a failed reopen loses the next append; an append within
`abort_rewrite` stays in the delta, and the next rewrite puts it after the snapshot that has its
successor. In each run the worker has returned. -/
theorem failed_rewrite_leaks :
    ((((start 100).run unrenamed).sys.worker 0).pc = .idle
        ∧ ((start 100).run unrenamed).sys.rewriting = true
        ∧ ((((start 100).run unrenamed).step (.plain (.request 0))).sys.worker 0).pc = .idle)
      ∧ ((((start 100).run unopened).sys.worker 0).pc = .idle
        ∧ live 0 ((start 100).run unopened).sys.mem.store [98] = some ([50], none)
        ∧ ∃ r, replay (Env.steady 0)
            (((start 100).run unopened).sys.files ((start 100).run unopened).sys.path)
            KvEngine.new = .ok r
          ∧ (r.engine.store.lookup [98]).map (fun e => (e.data, e.expireAt)) = none)
      ∧ ((((start 100).run interposed).sys.worker 0).pc = .idle
        ∧ ((start 100).run interposed).sys.delta = encodeLog [.set [97] [49]])
      ∧ (((start 100).run thenRewritten).sys.worker 0).pc = .idle
        ∧ live 0 ((start 100).run thenRewritten).sys.mem.store [97] = some ([50], none)
        ∧ ∃ r, replay (Env.steady 0)
            (((start 100).run thenRewritten).sys.files ((start 100).run thenRewritten).sys.path)
            KvEngine.new = .ok r
          ∧ (r.engine.store.lookup [97]).map (fun e => (e.data, e.expireAt))
            = some ([49], none) := by
  have hsteady : (Env.steady 0).At 0 := Env.steady_at (by decide)
  have hvalid : ∀ r ∈ [AofRecord.set [97] [50], .set [97] [49]], r.Valid := by
    intro r hr
    fin_cases hr <;> rfl
  have hopen : ((start 100).run unopened).sys.files ((start 100).run unopened).sys.path
      = encodeLog [.set [97] [49]] := by decide
  have hlast : ((start 100).run thenRewritten).sys.files ((start 100).run thenRewritten).sys.path
      = encodeLog [.set [97] [50], .set [97] [49]] := by decide +kernel
  obtain ⟨r, hr, hk⟩ := replay_valid hsteady fun r hr =>
    hvalid r (List.mem_cons_of_mem _ hr)
  obtain ⟨r', hr', hk'⟩ := replay_valid hsteady hvalid
  rw [hopen, hlast]
  exact ⟨by decide, ⟨by decide, by decide, r, hr, (hk [98]).trans (by decide)⟩, by decide,
    by decide +kernel, by decide +kernel, r', hr', (hk' [97]).trans (by decide)⟩

end FaultySystem

end FerrumKv
