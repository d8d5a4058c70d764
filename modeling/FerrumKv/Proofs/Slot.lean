import FerrumKv.Lib.Runs
import FerrumKv.Rewrite

/-!
# Who owns the rewrite slot

An append clears the slot's flag when the delta overflows, while the worker that claimed it is still
running. As long as no request claims the slot again before that worker has returned, and no append
overflows the delta between the worker's last look at the flag and its swap, at most one worker is
running, and what it swaps in is its own snapshot followed by all that was appended since it claimed
the slot (`rewrite_slot_owned`). Either schedule alone breaks this (`slot_reclaimed`).
-/

namespace FerrumKv.AofSystem

/-- The temp file is neither the file at the path nor the file of the writer. -/
def Inodes (s : AofSystem) : Prop :=
  s.path < s.nextInode ∧ s.handle < s.nextInode
    ∧ ∀ i, s.temp = some i → i < s.nextInode ∧ i ≠ s.path ∧ i ≠ s.handle

/-- What the flag and the delta are to a running worker. -/
def Claim (s : AofSystem) (w : Worker) : Prop :=
  if w.aborted then s.rewriting = false ∧ s.delta = [] ∧ ¬ InWindow w.pc
  else s.rewriting = true ∧ s.delta = encodeLog w.since

/-- Where the snapshot of a running worker is. -/
def Place (s : AofSystem) (snapshot : Snapshot) : WorkerPc → Prop
  | .created i => s.path = s.handle ∧ s.temp = some i ∧ s.files i = []
  | .serialised | .checked =>
    s.path = s.handle ∧ ∃ i, s.temp = some i ∧ s.files i = serialiseCompactAof snapshot
  | .renamed => s.path ≠ s.handle ∧ s.files s.path = serialiseCompactAof snapshot
  | _ => s.path = s.handle

/-- The worker `w` is the only one that is running. -/
def Busy (s : AofSystem) (w : ℕ) : Prop :=
  (s.worker w).pc ≠ .idle ∧ (∀ w', w' ≠ w → (s.worker w').pc = .idle)
    ∧ Claim s (s.worker w) ∧ Place s (s.worker w).snapshot (s.worker w).pc

def Quiet (s : AofSystem) : Prop :=
  (∀ w, (s.worker w).pc = .idle) ∧ s.rewriting = false ∧ s.delta = [] ∧ s.path = s.handle

def Owned (s : AofSystem) : Prop := Inodes s ∧ (Quiet s ∨ ∃ w, Busy s w)

theorem owned_start (deltaCap : ℕ) : Owned (start deltaCap) :=
  ⟨⟨Nat.zero_lt_one, Nat.zero_lt_one, fun _ h => (by cases h)⟩,
    .inl ⟨fun _ => rfl, rfl, rfl, rfl⟩⟩

section Owned

variable {s s' : AofSystem} {w : ℕ} {x : Worker}

theorem Owned.busy (h : Owned s) (hrun : (s.worker w).pc ≠ .idle) : Busy s w := by
  rcases h.2 with hq | ⟨w₀, hb⟩
  · exact absurd (hq.1 w) hrun
  · by_cases hw : w = w₀
    · exact hw ▸ hb
    · exact absurd (hb.2.1 w hw) hrun

theorem Busy.move (h : Busy s w) (hw : s'.worker = Function.update s.worker w x)
    (hrun : x.pc ≠ .idle) (hc : Claim s' x) (hp : Place s' x.snapshot x.pc) :
    Busy s' w := by
  have hself : s'.worker w = x := by rw [hw, Function.update_self]
  refine ⟨by rwa [hself], fun w' hne => ?_, by rwa [hself], by rwa [hself]⟩
  rw [hw, Function.update_of_ne hne]
  exact h.2.1 w' hne

theorem Busy.leave (h : Busy s w) (hw : s'.worker = Function.update s.worker w x)
    (hidle : x.pc = .idle) (hr : s'.rewriting = false) (hd : s'.delta = [])
    (hp : s'.path = s'.handle) : Quiet s' := by
  refine ⟨fun w' => ?_, hr, hd, hp⟩
  rw [hw]
  by_cases hne : w' = w
  · rw [hne, Function.update_self]
    exact hidle
  · rw [Function.update_of_ne hne]
    exact h.2.1 w' hne

theorem Claim.of_aborted (h : Claim s x) (ha : x.aborted = true) :
    s.rewriting = false ∧ s.delta = [] ∧ ¬ InWindow x.pc := by
  rwa [Claim, if_pos ha] at h

theorem Claim.of_not_aborted (h : Claim s x) (ha : x.aborted = false) :
    s.rewriting = true ∧ s.delta = encodeLog x.since := by
  rwa [Claim, if_neg (by simp [ha])] at h

/-- The flag tells a running worker whether its rewrite was aborted. -/
theorem Claim.aborted_iff (h : Claim s x) : x.aborted = true ↔ s.rewriting = false := by
  cases ha : x.aborted with
  | true => simp [(h.of_aborted ha).1]
  | false => simp [(h.of_not_aborted ha).1]

theorem Claim.delta_of_false (h : Claim s x) (hr : s.rewriting = false) : s.delta = [] :=
  (h.of_aborted (h.aborted_iff.2 hr)).2.1

/-- A move outside the window, or into it while the flag is set, keeps the claim. -/
theorem Claim.move {x' : Worker} (h : Claim s x) (hs : x'.since = x.since)
    (ha : x'.aborted = x.aborted) (hr : s'.rewriting = s.rewriting) (hd : s'.delta = s.delta)
    (hpc : InWindow x'.pc → s.rewriting = true) : Claim s' x' := by
  cases hx : x.aborted with
  | true =>
    obtain ⟨hf, he, -⟩ := h.of_aborted hx
    rw [Claim, if_pos (ha.trans hx), hr, hd]
    refine ⟨hf, he, fun hin => ?_⟩
    rw [hpc hin] at hf
    cases hf
  | false =>
    obtain ⟨ht, he⟩ := h.of_not_aborted hx
    rw [Claim, if_neg (by simp [ha, hx]), hr, hd, hs]
    exact ⟨ht, he⟩

end Owned

section Step

variable {s : AofSystem}

theorem encodeLog_append (log log' : List AofRecord) :
    encodeLog (log ++ log') = encodeLog log ++ encodeLog log' :=
  List.flatMap_append

theorem writeBytes_claim {x : Worker} {rs : List AofRecord} (h : Claim s x)
    (hq : s.overflows rs = true → ¬ InWindow x.pc) :
    Claim (s.writeBytes rs)
      { x with since := x.since ++ rs, aborted := x.aborted || s.overflows rs } := by
  cases ha : x.aborted with
  | true =>
    obtain ⟨hr, hd, hw⟩ := h.of_aborted ha
    have ho : s.overflows rs = false := by simp [overflows, hr]
    rw [Claim, if_pos (by simp)]
    refine ⟨by simp [writeBytes, hr], ?_, hw⟩
    simp [writeBytes, ho, hr, hd]
  | false =>
    obtain ⟨hr, hd⟩ := h.of_not_aborted ha
    cases ho : s.overflows rs with
    | true =>
      rw [Claim, if_pos (by simp)]
      exact ⟨by simp [writeBytes, ho], by simp [writeBytes, ho], hq ho⟩
    | false =>
      rw [Claim, if_neg (by simp)]
      refine ⟨by simp [writeBytes, hr, ho], ?_⟩
      simp [writeBytes, hr, ho, hd, encodeLog_append]

/-- An append touches no file that holds a snapshot. -/
theorem writeBytes_place {snapshot : Snapshot} {pc : WorkerPc} (rs : List AofRecord) (hi : Inodes s)
    (h : Place s snapshot pc) : Place (s.writeBytes rs) snapshot pc := by
  have hfile : ∀ i, i ≠ s.handle → (s.writeBytes rs).files i = s.files i := fun i hne =>
    Function.update_of_ne hne _ _
  cases pc with
  | created i => exact ⟨h.1, h.2.1, (hfile i (hi.2.2 i h.2.1).2.2).trans h.2.2⟩
  | serialised | checked =>
    obtain ⟨hp, i, ht, hf⟩ := h
    exact ⟨hp, i, ht, (hfile i (hi.2.2 i ht).2.2).trans hf⟩
  | renamed => exact ⟨h.1, (hfile s.path h.1).trans h.2⟩
  | _ => exact h

theorem write_owned (h : Owned s) {n : ℕ} (hq : QuietWindow s (.write n)) :
    Owned (s.step (.write n)) := by
  simp only [step]
  split_ifs
  · exact h
  · obtain ⟨hi, hq' | ⟨w, hb⟩⟩ := h
    · obtain ⟨hidle, hr, hd, hp⟩ := hq'
      have ho : s.overflows (s.pending.take (n + 1)) = false := by simp [overflows, hr]
      refine ⟨hi, .inl ⟨hidle, ?_, ?_, hp⟩⟩
      · simp [writeBytes, hr]
      · simp [writeBytes, ho, hr, hd]
    · obtain ⟨hrun, halone, hc, hp⟩ := hb
      exact ⟨hi, .inr ⟨w, hrun, halone, writeBytes_claim hc fun ho => hq ho w,
        writeBytes_place _ hi hp⟩⟩

theorem request_owned (h : Owned s) {w : ℕ} (hr : NoEarlyRequest s (.request w)) :
    Owned (s.step (.request w)) := by
  simp only [step]
  split_ifs with hg
  · obtain ⟨hi, ⟨hidle, -, hd, hp⟩ | ⟨w₀, hb⟩⟩ := h
    · refine ⟨hi, .inr ⟨w, ?_, fun w' hne => ?_, ?_, ?_⟩⟩
      · simp [setWorker]
      · simp only [setWorker, Function.update_of_ne hne]
        exact hidle w'
      · simp [Claim, setWorker, hd, encodeLog]
      · simp only [Place, setWorker, Function.update_self]
        exact hp
    · have ha := hr hg.1 hg.2 w₀ hb.1
      rw [(hb.2.2.1.of_not_aborted ha).1] at hg
      cases hg.1
  · exact h

theorem snapshot_owned (h : Owned s) (w : ℕ) (env : Env) : Owned (s.step (.snapshot w env)) := by
  simp only [step]
  split_ifs with hg
  · have hb := h.busy (w := w) (by simp [hg.1])
    obtain ⟨-, -, hc, hp⟩ := hb
    rw [hg.1] at hp
    exact ⟨h.1, .inr ⟨w, (h.busy (by simp [hg.1])).move rfl (by simp)
      (hc.move rfl rfl rfl rfl (by simp [InWindow])) hp⟩⟩
  · exact h

theorem recheck_owned (h : Owned s) (w : ℕ) : Owned (s.step (.recheck w)) := by
  simp only [step]
  split_ifs with hg hr
  · have hb := h.busy (w := w) (by simp [hg])
    obtain ⟨-, -, hc, hp⟩ := id hb
    rw [hg] at hp
    exact ⟨h.1, .inr ⟨w, hb.move rfl (by simp)
      (hc.move rfl rfl rfl rfl (by simp [InWindow])) hp⟩⟩
  · have hb := h.busy (w := w) (by simp [hg])
    obtain ⟨-, -, hc, hp⟩ := id hb
    rw [hg] at hp
    rw [Bool.not_eq_true] at hr
    exact ⟨h.1, .inl (hb.leave rfl rfl hr (hc.delta_of_false hr) hp)⟩
  · exact h

theorem create_owned (h : Owned s) (w : ℕ) : Owned (s.step (.create w)) := by
  simp only [step]
  split_ifs with hg
  · have hb := h.busy (w := w) (by simp [hg])
    obtain ⟨-, -, hc, hp⟩ := id hb
    rw [hg] at hp
    obtain ⟨hpath, hhandle, htemp⟩ := h.1
    unfold createTemp
    split
    · rename_i i hi
      refine ⟨h.1, .inr ⟨w, hb.move rfl (by simp) (hc.move rfl rfl rfl rfl (by simp [InWindow])) ?_⟩⟩
      exact ⟨hp, hi, Function.update_self _ _ _⟩
    · refine ⟨⟨Nat.lt_succ_of_lt hpath, Nat.lt_succ_of_lt hhandle, fun i hi => ?_⟩, .inr ⟨w,
        hb.move rfl (by simp) (hc.move rfl rfl rfl rfl (by simp [InWindow])) ?_⟩⟩
      · cases hi
        exact ⟨Nat.lt_succ_self _, hpath.ne', hhandle.ne'⟩
      · exact ⟨hp, rfl, Function.update_self _ _ _⟩
  · exact h

theorem serialise_owned (h : Owned s) (w : ℕ) : Owned (s.step (.serialise w)) := by
  simp only [step]
  split
  · rename_i i hg
    have hb := h.busy (w := w) (by simp [hg])
    obtain ⟨-, -, hc, hp⟩ := id hb
    rw [hg] at hp
    obtain ⟨hp, ht, hf⟩ := hp
    refine ⟨h.1, .inr ⟨w, hb.move rfl (by simp) (hc.move rfl rfl rfl rfl (by simp [InWindow])) ?_⟩⟩
    refine ⟨hp, i, ht, ?_⟩
    simp [writeTemp, setFile, setPc, setWorker, hf]
  · exact h

theorem check_owned (h : Owned s) (w : ℕ) : Owned (s.step (.check w)) := by
  simp only [step]
  split_ifs with hg hr
  · have hb := h.busy (w := w) (by simp [hg])
    obtain ⟨-, -, hc, hp⟩ := id hb
    rw [hg] at hp
    exact ⟨h.1, .inr ⟨w, hb.move rfl (by simp) (hc.move rfl rfl rfl rfl fun _ => hr) hp⟩⟩
  · have hb := h.busy (w := w) (by simp [hg])
    obtain ⟨-, -, hc, hp⟩ := id hb
    rw [hg] at hp
    rw [Bool.not_eq_true] at hr
    exact ⟨⟨h.1.1, h.1.2.1, fun i hi => (by cases hi)⟩,
      .inl (hb.leave rfl rfl hr (hc.delta_of_false hr) hp.1)⟩
  · exact h

theorem rename_owned (h : Owned s) (w : ℕ) : Owned (s.step (.rename w)) := by
  simp only [step]
  split_ifs with hg
  · have hb := h.busy (w := w) (by simp [hg])
    obtain ⟨-, -, hc, hp⟩ := id hb
    rw [hg] at hp
    obtain ⟨-, i, ht, hf⟩ := hp
    obtain ⟨-, hhandle, htemp⟩ := h.1
    obtain ⟨hlt, -, hne⟩ := htemp i ht
    have hr : s.rewriting = true := by
      by_contra hr
      rw [Bool.not_eq_true] at hr
      exact (hc.of_aborted (hc.aborted_iff.2 hr)).2.2 (.inl hg)
    unfold renameTemp
    rw [ht]
    exact ⟨⟨hlt, hhandle, fun i hi => (by cases hi)⟩,
      .inr ⟨w, hb.move rfl (by simp) (hc.move rfl rfl rfl rfl fun _ => hr) ⟨hne, hf⟩⟩⟩
  · exact h

theorem swap_owned (h : Owned s) (w : ℕ) : Owned (s.step (.swap w)) := by
  simp only [step]
  split_ifs with hg
  · obtain ⟨hpath, -, htemp⟩ := h.1
    exact ⟨⟨hpath, hpath, fun i hi => ⟨(htemp i hi).1, (htemp i hi).2.1, (htemp i hi).2.1⟩⟩,
      .inl ((h.busy (w := w) (by simp [hg])).leave rfl rfl rfl rfl rfl)⟩
  · exact h

theorem step_owned (h : Owned s) {e : Event} (hq : QuietWindow s e) (hr : NoEarlyRequest s e) :
    Owned (s.step e) := by
  cases e with
  | command env cmd =>
    simp only [step]
    split_ifs
    · exact h
    · exact h
  | write n => exact write_owned h hq
  | request w => exact request_owned h hr
  | snapshot w env => exact snapshot_owned h w env
  | recheck w => exact recheck_owned h w
  | create w => exact create_owned h w
  | serialise w => exact serialise_owned h w
  | check w => exact check_owned h w
  | rename w => exact rename_owned h w
  | swap w => exact swap_owned h w

theorem run_owned (deltaCap : ℕ) (events : List Event)
    (hq : ∀ n e, events[n]? = some e → QuietWindow ((start deltaCap).run (events.take n)) e)
    (hr : ∀ n e, events[n]? = some e → NoEarlyRequest ((start deltaCap).run (events.take n)) e) :
    Owned ((start deltaCap).run events) := by
  have h : ∀ n, Owned ((events.take n).foldl step (start deltaCap)) :=
    Runs.forall_take (owned_start deltaCap)
      fun n e he ih => step_owned ih (hq n e he) (hr n e he)
  have hlast := h events.length
  rwa [List.take_length] at hlast

end Step

/-- Along a safe schedule at most one worker is running; a worker whose rewrite was aborted replaces
neither the file at the path nor that of the writer; and a worker that swaps leaves, as the file at
the path and of the writer, its own snapshot followed by all that was appended since it claimed the
slot. -/
theorem rewrite_slot_owned (deltaCap : ℕ) (events : List Event)
    (hq : ∀ n e, events[n]? = some e → QuietWindow ((start deltaCap).run (events.take n)) e)
    (hr : ∀ n e, events[n]? = some e → NoEarlyRequest ((start deltaCap).run (events.take n)) e)
    (w : ℕ) :
    (∀ w', (((start deltaCap).run events).worker w).pc ≠ .idle →
        (((start deltaCap).run events).worker w').pc ≠ .idle → w = w')
      ∧ ((((start deltaCap).run events).worker w).aborted = true →
        (((start deltaCap).run events).step (.rename w)).path = ((start deltaCap).run events).path
          ∧ (((start deltaCap).run events).step (.swap w)).handle
            = ((start deltaCap).run events).handle)
      ∧ ((((start deltaCap).run events).worker w).pc = .renamed →
        (((start deltaCap).run events).step (.swap w)).handle
            = (((start deltaCap).run events).step (.swap w)).path
          ∧ (((start deltaCap).run events).step (.swap w)).files
              (((start deltaCap).run events).step (.swap w)).path
            = serialiseCompactAof (((start deltaCap).run events).worker w).snapshot
              ++ encodeLog (((start deltaCap).run events).worker w).since) := by
  have h := run_owned deltaCap events hq hr
  generalize (start deltaCap).run events = s at h ⊢
  refine ⟨fun w' hw hw' => ?_, fun ha => ⟨?_, ?_⟩, fun hpc => ?_⟩
  · by_contra hne
    exact hw ((h.busy hw').2.1 w hne)
  · simp only [step]
    split_ifs with hg
    · have hc := (h.busy (w := w) (by simp [hg])).2.2.1
      exact absurd (.inl hg) (hc.of_aborted ha).2.2
    · rfl
  · simp only [step]
    split_ifs with hg
    · have hc := (h.busy (w := w) (by simp [hg])).2.2.1
      exact absurd (.inr hg) (hc.of_aborted ha).2.2
    · rfl
  · obtain ⟨-, -, hc, hp⟩ := h.busy (w := w) (by simp [hpc])
    rw [hpc] at hp
    have ha : (s.worker w).aborted = false := by
      by_contra ha
      rw [Bool.not_eq_false] at ha
      exact (hc.of_aborted ha).2.2 (.inr hpc)
    simp only [step, if_pos hpc]
    refine ⟨rfl, (Function.update_self _ _ _).trans ?_⟩
    rw [hp.2, (hc.of_not_aborted ha).2]
    rfl

/-- An append aborts the rewrite of worker `0`, a request starts worker `1`, and worker `0` takes
the flag of worker `1` for its own. -/
def reclaimed : List Event :=
  [.request 0, .snapshot 0 (Env.steady 0), .recheck 0, .create 0, .serialise 0,
    .command (Env.steady 0) (.set [98] [50]), .write 0, .request 1, .check 0, .rename 0, .swap 0]

/-- Both workers run at once, and the aborted one replaces the log by a snapshot that lacks what
was appended since. -/
theorem slot_reclaimed :
    (((start 5).run (reclaimed.take 8)).worker 0).pc ≠ .idle
      ∧ (((start 5).run (reclaimed.take 8)).worker 1).pc ≠ .idle
      ∧ (((start 5).run (reclaimed.take 9)).worker 0).aborted = true
      ∧ ((start 5).run reclaimed).handle ≠ ((start 5).run (reclaimed.take 9)).handle
      ∧ ((start 5).run reclaimed).files ((start 5).run reclaimed).path = []
      ∧ (((start 5).run (reclaimed.take 10)).worker 0).since = [.set [98] [50]] := by
  decide

def plainRewrite : List Event :=
  [.request 0, .snapshot 0 (Env.steady 0), .recheck 0, .create 0, .serialise 0, .check 0,
    .command (Env.steady 0) (.set [98] [50]), .write 0, .rename 0]

theorem rewrite_slot_owned_plainRewrite :
    (((start 100).run plainRewrite).step (.swap 0)).files
        (((start 100).run plainRewrite).step (.swap 0)).path
      = encodeLog [.set [98] [50]] := by
  have hq : ∀ n e, plainRewrite[n]? = some e →
      QuietWindow ((start 100).run (plainRewrite.take n)) e := by
    rintro (_ | _ | _ | _ | _ | _ | _ | _ | _ | n) e he <;> cases he
    all_goals first
      | trivial
      | (intro ho; exact absurd ho (by decide))
  have hr : ∀ n e, plainRewrite[n]? = some e →
      NoEarlyRequest ((start 100).run (plainRewrite.take n)) e := by
    rintro (_ | _ | _ | _ | _ | _ | _ | _ | _ | n) e he <;> cases he
    all_goals first
      | trivial
      | (intro _ _ w _; rfl)
  exact ((rewrite_slot_owned 100 plainRewrite hq hr 0).2.2 (by decide)).2

end FerrumKv.AofSystem
