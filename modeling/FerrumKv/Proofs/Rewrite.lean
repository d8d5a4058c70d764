import FerrumKv.Proofs.Compaction
import FerrumKv.Proofs.Slot

/-!
# No update is lost across a rewrite

With one worker, and no append that overflows the delta between the worker's last look at the flag
and its swap, the file of the writer replays to all that was appended so far (`Kept`): until the
swap it is the old log, then the snapshot followed by what was appended since the slot was claimed.
So whenever the worker has returned, the file at the path replays to what the engine shows
(`rewrite_keeps_updates`). An overflow in that window loses what was appended
(`overflow_loses_update`).
-/

namespace FerrumKv

open KvEngine

/-- Every deadline in the store has its record in the log. -/
def Dated (log : List AofRecord) (store : Store) : Prop :=
  ∀ k e d, store.lookup k = some e → e.expireAt = some d →
    ∃ absMs : Int64, AofRecord.pexpireat k absMs ∈ log ∧ absMs.toInt = d

section Dated

variable {log log' : List AofRecord} {store : Store} {key : Key} {e : ValueEntry}

theorem Dated.mono (h : Dated log store) (hl : ∀ r ∈ log, r ∈ log') : Dated log' store := by
  intro k e d he hd
  obtain ⟨absMs, hmem, hint⟩ := h k e d he hd
  exact ⟨absMs, hl _ hmem, hint⟩

theorem Dated.erase (h : Dated log store) (key : Key) : Dated log (store.erase key) := by
  intro k e d he hd
  by_cases hk : k = key
  · subst hk
    rw [AList.lookup_erase] at he
    cases he
  · rw [AList.lookup_erase_ne hk] at he
    exact h k e d he hd

theorem Dated.insert (h : Dated log store) (he : ∀ d, e.expireAt = some d →
      ∃ absMs : Int64, AofRecord.pexpireat key absMs ∈ log ∧ absMs.toInt = d) :
    Dated log (store.insert key e) := by
  intro k e' d hl hd
  by_cases hk : k = key
  · subst hk
    rw [AList.lookup_insert, Option.some.injEq] at hl
    exact he d (hl ▸ hd)
  · rw [AList.lookup_insert_ne hk] at hl
    exact h k e' d hl hd

end Dated

section Act

variable {env : Env} {t : ℕ} {cmd : Command} {s₀ a b : KvEngine}

/-- What an act keeps of the command's first state: a well-formed store, an attached log that has
grown, and the record of every deadline. -/
def DatedFrom (s₀ s : KvEngine) : Prop :=
  WellFormed s.store ∧ (∃ log, s.aof = some log) ∧ (∀ r ∈ s₀.log, r ∈ s.log)
    ∧ Dated s.log s.store

theorem touchAccess_dated {log : List AofRecord} {s : KvEngine} (h : Dated log s.store)
    (r : AccessReading) (key : Key) : Dated log (s.touchAccess r key).store := by
  unfold touchAccess
  split
  · rename_i e he
    exact h.insert fun d hd => h key e d he hd
  · exact h

theorem Act.dated (h : env.At t) (h₀ : WellFormed s₀.store) (hd₀ : Dated s₀.log s₀.store)
    (hact : Act env cmd s₀ a b) (ha : DatedFrom s₀ a) : DatedFrom s₀ b := by
  obtain ⟨hw, ⟨log, hlog⟩, hsub, hd⟩ := ha
  obtain ⟨hw', rs, haof, -, -⟩ := hact.logged h le_rfl h₀ (stepSafe_self t s₀.store cmd) hw
  have hgrow : b.log = a.log ++ rs := by simp [KvEngine.log, haof, hlog]
  have hmono : ∀ r ∈ a.log, r ∈ b.log := fun r hr => hgrow ▸ List.mem_append_left rs hr
  refine ⟨hw', ⟨log ++ rs, by simp [haof, hlog]⟩, fun r hr => hmono r (hsub r hr), ?_⟩
  have hd' := hd.mono hmono
  cases hact with
  | count => exact hd'
  | touch _ r key => exact touchAccess_dated hd' r key
  | remove _ key hk => exact hd'.erase key
  | forget _ key hx => exact hd'.erase key
  | evict _ victim hv =>
    have hst := selectVictim_store env a
    exact (hst.symm ▸ hd').erase victim
  | noVictim _ hv =>
    rw [selectVictim_store]
    exact hd'
  | write _ key value ttl r hv ht =>
    refine hd'.insert fun d hdl => ?_
    rcases ht with rfl | ⟨e, d', hl, he, -, rfl⟩
    · cases hdl
    · cases hdl
      obtain ⟨absMs, hmem, hint⟩ := hd₀ key e d hl he
      exact ⟨absMs, hmono _ (hsub _ hmem), hint⟩
  | flush => exact fun k e d hl => (by cases hl)
  | config _ cfg =>
    rw [setEvictionConfig_store]
    exact hd'
  | deadline key absMs e hc hk he hlt =>
    have hst : (deadlined env s₀ key absMs).store = s₀.store.insert key
        { e with expireAt := some (env.now + (absMs.toInt - env.nowMs.toInt).toNat) } := by
      rw [deadlined, setDeadline_of_lookup _ hk]
      rfl
    rw [hst]
    refine hd'.insert fun d hdl => ⟨absMs, ?_, ?_⟩
    · simp [deadlined, KvEngine.log, appendAof, acNotifyInsert, sieveNotifyInsert,
        setDeadline_of_lookup _ hk, hlog]
    · have hnow := h.now
      have hms := h.nowMs
      cases hdl
      omega
  | persist key e hc hk he hne =>
    have hst : (persisted s₀ key).store = s₀.store.insert key { e with expireAt := none } := by
      rw [persisted, setDeadline_of_lookup _ hk]
      rfl
    rw [hst]
    exact hd'.insert fun d hdl => (by cases hdl)
  | discard key e hc hk hs he => exact hd'.erase key

theorem exec_dated (h : env.At t) {s : KvEngine} (hs : Sound s) (hd : Dated s.log s.store)
    (cmd : Command) : Dated (exec env s cmd).2.log (exec env s cmd).2.store := by
  obtain ⟨hw, log, hlog, -⟩ := hs
  exact ((exec_acts env s cmd).preserves (P := DatedFrom s)
    (fun _ _ hact ha => hact.dated h hw hd ha) ⟨hw, ⟨log, hlog⟩, fun _ hr => hr, hd⟩).2.2.2

end Act

/-- A file whose replay at `T` shows what the records `log` show. -/
def Stored (T : ℕ) (file : Bytes) (log : List AofRecord) : Prop :=
  ∃ rs, file = encodeLog rs ∧ (∀ r ∈ rs, r.Valid)
    ∧ ∀ k, actAll T rs (fun _ => none) k = actAll T log (fun _ => none) k

/-- The snapshot shows what had been appended when it was taken, some of it since the slot was
claimed. -/
def Captured (T : ℕ) (log : List AofRecord) (w : Worker) : Prop :=
  ∃ before upto after, log = before ++ (upto ++ after) ∧ w.since = upto ++ after
    ∧ (w.pc ≠ .begun → (∀ r ∈ compactRecords w.snapshot, r.Valid)
      ∧ ∀ k, actAll T (compactRecords w.snapshot) (fun _ => none) k
        = actAll T (before ++ upto) (fun _ => none) k)

section Files

variable {T : ℕ} {file : Bytes} {log rs : List AofRecord}

theorem Stored.append (h : Stored T file log) (hv : ∀ r ∈ rs, r.Valid) :
    Stored T (file ++ encodeLog rs) (log ++ rs) := by
  obtain ⟨rs', rfl, hv', hk⟩ := h
  refine ⟨rs' ++ rs, (AofSystem.encodeLog_append rs' rs).symm, fun r hr => ?_, fun k => ?_⟩
  · rcases List.mem_append.1 hr with hr | hr
    · exact hv' r hr
    · exact hv r hr
  · rw [actAll_append, actAll_append]
    exact actAll_congr rs (hk k)

theorem Captured.append {w : Worker} (h : Captured T log w) (rs : List AofRecord) (b : Bool) :
    Captured T (log ++ rs) { w with since := w.since ++ rs, aborted := b } := by
  obtain ⟨before, upto, after, rfl, hs, hc⟩ := h
  refine ⟨before, upto, after ++ rs, ?_, ?_, hc⟩
  · simp only [List.append_assoc]
  · simp only [hs, List.append_assoc]

/-- A snapshot with what was appended since shows all that was appended. -/
theorem Captured.stored {w : Worker} (h : Captured T log w) (hpc : w.pc ≠ .begun)
    (hv : ∀ r ∈ log, r.Valid) :
    Stored T (serialiseCompactAof w.snapshot ++ encodeLog w.since) log := by
  obtain ⟨before, upto, after, rfl, hs, hc⟩ := h
  obtain ⟨hvalid, hshow⟩ := hc hpc
  refine ⟨compactRecords w.snapshot ++ w.since, (AofSystem.encodeLog_append _ _).symm,
    fun r hr => ?_, fun k => ?_⟩
  · rcases List.mem_append.1 hr with hr | hr
    · exact hvalid r hr
    · exact hv r (List.mem_append_right before (hs ▸ hr))
  · rw [hs]
    calc actAll T (compactRecords w.snapshot ++ (upto ++ after)) (fun _ => none) k
        = actAll T (upto ++ after) (actAll T (compactRecords w.snapshot) fun _ => none) k :=
          actAll_append T _ _ _ k
      _ = actAll T (upto ++ after) (actAll T (before ++ upto) fun _ => none) k :=
          actAll_congr _ (hshow k)
      _ = actAll T (upto ++ after) (actAll T upto (actAll T before fun _ => none)) k :=
          actAll_congr _ (actAll_append T before upto _ k)
      _ = actAll T (upto ++ after) (actAll T before fun _ => none) k :=
          actAll_absorb T upto after _ k
      _ = actAll T (before ++ (upto ++ after)) (fun _ => none) k :=
          (actAll_append T before _ _ k).symm

end Files

namespace AofSystem

/-- The engine shows what its log shows, the writer's file holds what was written of the log, and
every running worker has captured a part of it. -/
def Kept (T : ℕ) (s : AofSystem) : Prop :=
  (∀ k, actAll T s.mem.log (fun _ => none) k = live T s.mem.store k)
    ∧ ∃ written, s.mem.log = written ++ s.pending ∧ Stored T (s.files s.handle) written
      ∧ ∀ w, (s.worker w).pc ≠ .idle → Captured T written (s.worker w)

def Later (T : ℕ) (log : List AofRecord) : Prop :=
  ∀ key absMs, AofRecord.pexpireat key absMs ∈ log → (T : ℤ) < absMs.toInt

/-- The engine is sound and its deadlines are recorded; as long as these are after `T`, nothing is
lost. -/
def Faithful (T : ℕ) (s : AofSystem) : Prop :=
  Sound s.mem ∧ Dated s.mem.log s.mem.store ∧ (Later T s.mem.log → Kept T s)

theorem faithful_start (T deltaCap : ℕ) : Faithful T (start deltaCap) := by
  refine ⟨sound_new, fun k e d hl => (by cases hl), fun _ => ⟨fun _ => rfl, [], rfl, ?_, ?_⟩⟩
  · exact ⟨[], rfl, by simp, fun _ => rfl⟩
  · intro w hw
    exact absurd rfl hw

section Step

variable {T : ℕ} {s s' : AofSystem}

/-- A command reads no deadline that has passed by `T` where all recorded ones are after `T`. -/
theorem stepSafe_of_later {t : ℕ} (hd : Dated s.mem.log s.mem.store) (hl : Later T s.mem.log)
    (cmd : Command) : StepSafe T t s.mem.store cmd := by
  have hlt : ∀ {key : Key} {v : Bytes} {d : ℕ}, live t s.mem.store key = some (v, some d) →
      T < d := by
    intro key v d hlive
    obtain ⟨e, he, -, -, hdl⟩ := lookup_of_live hlive
    obtain ⟨absMs, hmem, hint⟩ := hd key e d he hdl
    have := hl key absMs hmem
    omega
  cases cmd with
  | expireAtMs key absMs =>
    intro v d hlive hle
    have := hlt hlive
    omega
  | persist key =>
    intro v d hlive
    exact hlt hlive
  | _ => trivial

theorem command_faithful (h : Faithful T s) {env : Env} {cmd : Command}
    (hc : ClockBy T (.command env cmd)) : Faithful T (s.step (.command env cmd)) := by
  simp only [step]
  split_ifs with hp
  · obtain ⟨hs, hd, hk⟩ := h
    obtain ⟨t, ht, hAt⟩ := hc
    obtain ⟨rs, hlog, -, -⟩ := exec_records hAt le_rfl hs (stepSafe_self t s.mem.store cmd)
    have hdrop : (exec env s.mem cmd).2.log.drop s.mem.log.length = rs := by
      rw [hlog, List.drop_left]
    refine ⟨exec_sound hAt hs cmd, exec_dated hAt hs hd cmd, fun hlater => ?_⟩
    have hl : Later T s.mem.log := fun key absMs hmem =>
      hlater key absMs (hlog ▸ List.mem_append_left rs hmem)
    obtain ⟨hagree, written, hw, hst, hcap⟩ := hk hl
    rw [hp, List.append_nil] at hw
    refine ⟨actAll_log_of_safe hAt ht hs (stepSafe_of_later hd hl cmd) hagree, written, ?_, hst, hcap⟩
    simp only [hdrop]
    rw [hlog, hw]
  · exact h

theorem write_faithful (h : Faithful T s) (n : ℕ) : Faithful T (s.step (.write n)) := by
  simp only [step]
  split_ifs with hp
  · exact h
  · obtain ⟨hs, hd, hk⟩ := h
    refine ⟨hs, hd, fun hlater => ?_⟩
    obtain ⟨hagree, written, hw, hst, hcap⟩ := hk hlater
    have hv : ∀ r ∈ s.pending.take (n + 1), r.Valid := fun r hr =>
      hs.valid r (hw ▸ List.mem_append_right written (List.mem_of_mem_take hr))
    refine ⟨hagree, written ++ s.pending.take (n + 1), ?_, ?_, fun w hrun => ?_⟩
    · rw [List.append_assoc, List.take_append_drop]
      exact hw
    · have hfile : (s.writeBytes (s.pending.take (n + 1))).files s.handle
          = s.files s.handle ++ encodeLog (s.pending.take (n + 1)) := Function.update_self _ _ _
      exact hfile ▸ hst.append hv
    · exact (hcap w hrun).append _ _

theorem request_faithful (h : Faithful T s) (w : ℕ) : Faithful T (s.step (.request w)) := by
  simp only [step]
  split_ifs with hg
  · refine ⟨h.1, h.2.1, fun hlater => ?_⟩
    obtain ⟨hagree, written, hw, hst, hcap⟩ := h.2.2 hlater
    refine ⟨hagree, written, hw, hst, fun w' hrun => ?_⟩
    by_cases hne : w' = w
    · subst hne
      simp only [setWorker, Function.update_self]
      exact ⟨written, [], [], by simp, rfl, fun hpc => absurd rfl hpc⟩
    · simp only [setWorker, Function.update_of_ne hne] at hrun ⊢
      exact hcap w' hrun
  · exact h

theorem snapshot_faithful (h : Faithful T s) {w : ℕ} {env : Env}
    (hc : ClockBy T (.snapshot w env)) : Faithful T (s.step (.snapshot w env)) := by
  simp only [step]
  split_ifs with hg
  · refine ⟨h.1, h.2.1, fun hlater => ?_⟩
    obtain ⟨hagree, written, hw, hst, hcap⟩ := h.2.2 hlater
    refine ⟨hagree, written, hw, hst, fun w' hrun => ?_⟩
    by_cases hne : w' = w
    · subst hne
      obtain ⟨t, ht, hAt⟩ := hc
      obtain ⟨before, upto, after, hlog, hs, -⟩ := hcap w' (by simp [hg.1])
      rw [hg.2, List.append_nil] at hw
      simp only [setWorker, Function.update_self]
      refine ⟨before, upto ++ after, [], ?_, ?_, fun _ => ⟨compactRecords_valid h.1.1, fun k => ?_⟩⟩
      · rw [List.append_nil]
        exact hlog
      · rw [List.append_nil]
        exact hs
      · rw [actAll_takeSnapshot hAt ht h.1.1 k, ← hagree k, hw, hlog]
    · simp only [setWorker, Function.update_of_ne hne] at hrun ⊢
      exact hcap w' hrun
  · exact h

/-- A step of a worker that leaves the engine, the writer's file and the snapshots alone. -/
theorem Faithful.frame (h : Faithful T s) (hm : s'.mem = s.mem) (hp : s'.pending = s.pending)
    (hf : s'.files s'.handle = s.files s.handle)
    (hw : ∀ w, (s'.worker w).pc ≠ .idle → (s.worker w).pc ≠ .idle
      ∧ (s'.worker w).snapshot = (s.worker w).snapshot ∧ (s'.worker w).since = (s.worker w).since
      ∧ ((s'.worker w).pc ≠ .begun → (s.worker w).pc ≠ .begun)) : Faithful T s' := by
  unfold Faithful Kept
  rw [hm, hp, hf]
  refine ⟨h.1, h.2.1, fun hlater => ?_⟩
  obtain ⟨hagree, written, hlog, hst, hcap⟩ := h.2.2 hlater
  refine ⟨hagree, written, hlog, hst, fun w hrun => ?_⟩
  obtain ⟨hrun', hsnap, hsince, hbegun⟩ := hw w hrun
  obtain ⟨before, upto, after, hl, hs, hc⟩ := hcap w hrun'
  refine ⟨before, upto, after, hl, hsince.trans hs, fun hpc => ?_⟩
  rw [hsnap]
  exact hc (hbegun hpc)

theorem moved {w : ℕ} {pc : WorkerPc} (hrun : (s.worker w).pc ≠ .idle)
    (hbegun : (s.worker w).pc ≠ .begun)
    (hw : s'.worker = Function.update s.worker w { s.worker w with pc := pc }) :
    ∀ w', (s'.worker w').pc ≠ .idle → (s.worker w').pc ≠ .idle
      ∧ (s'.worker w').snapshot = (s.worker w').snapshot
      ∧ (s'.worker w').since = (s.worker w').since
      ∧ ((s'.worker w').pc ≠ .begun → (s.worker w').pc ≠ .begun) := by
  intro w' hrun'
  by_cases hne : w' = w
  · subst hne
    rw [hw, Function.update_self]
    exact ⟨hrun, rfl, rfl, fun _ => hbegun⟩
  · rw [hw, Function.update_of_ne hne] at hrun' ⊢
    exact ⟨hrun', rfl, rfl, id⟩

theorem recheck_faithful (h : Faithful T s) (w : ℕ) : Faithful T (s.step (.recheck w)) := by
  simp only [step]
  split_ifs with hg
  · exact h.frame rfl rfl rfl (moved (by simp [hg]) (by simp [hg]) rfl)
  · exact h.frame rfl rfl rfl (moved (by simp [hg]) (by simp [hg]) rfl)
  · exact h

theorem create_faithful (ho : Owned s) (h : Faithful T s) (w : ℕ) :
    Faithful T (s.step (.create w)) := by
  simp only [step]
  split_ifs with hg
  · obtain ⟨-, hhandle, htemp⟩ := ho.1
    unfold createTemp
    split
    · rename_i i hi
      exact h.frame rfl rfl (Function.update_of_ne (htemp i hi).2.2.symm _ _)
        (moved (by simp [hg]) (by simp [hg]) rfl)
    · exact h.frame rfl rfl (Function.update_of_ne hhandle.ne _ _)
        (moved (by simp [hg]) (by simp [hg]) rfl)
  · exact h

theorem serialise_faithful (ho : Owned s) (h : Faithful T s) (w : ℕ) :
    Faithful T (s.step (.serialise w)) := by
  simp only [step]
  split
  · rename_i i hg
    have hp := (ho.busy (w := w) (by simp [hg])).2.2.2
    rw [hg] at hp
    exact h.frame rfl rfl (Function.update_of_ne (ho.1.2.2 i hp.2.1).2.2.symm _ _)
      (moved (by simp [hg]) (by simp [hg]) rfl)
  · exact h

theorem check_faithful (h : Faithful T s) (w : ℕ) : Faithful T (s.step (.check w)) := by
  simp only [step]
  split_ifs with hg
  · exact h.frame rfl rfl rfl (moved (by simp [hg]) (by simp [hg]) rfl)
  · exact h.frame rfl rfl rfl (moved (by simp [hg]) (by simp [hg]) rfl)
  · exact h

theorem rename_faithful (h : Faithful T s) (w : ℕ) : Faithful T (s.step (.rename w)) := by
  simp only [step]
  split_ifs with hg
  · unfold renameTemp
    split
    · exact h.frame rfl rfl rfl (moved (by simp [hg]) (by simp [hg]) rfl)
    · exact h.frame rfl rfl rfl (moved (by simp [hg]) (by simp [hg]) rfl)
  · exact h

theorem swap_faithful (ho : Owned s) (h : Faithful T s) (w : ℕ) :
    Faithful T (s.step (.swap w)) := by
  simp only [step]
  split_ifs with hg
  · have hrun : (s.worker w).pc ≠ .idle := by simp [hg]
    obtain ⟨-, halone, hc, hp⟩ := ho.busy hrun
    rw [hg] at hp
    have ha : (s.worker w).aborted = false := by
      by_contra ha
      rw [Bool.not_eq_false] at ha
      exact (hc.of_aborted ha).2.2 (.inr hg)
    refine ⟨h.1, h.2.1, fun hlater => ?_⟩
    obtain ⟨hagree, written, hw, hst, hcap⟩ := h.2.2 hlater
    have hv : ∀ r ∈ written, r.Valid := fun r hr =>
      h.1.valid r (hw ▸ List.mem_append_left s.pending hr)
    have hfile : (s.swapHandle w).files s.path
        = serialiseCompactAof (s.worker w).snapshot ++ encodeLog (s.worker w).since := by
      refine (Function.update_self _ _ _).trans ?_
      rw [hp.2, (hc.of_not_aborted ha).2]
    refine ⟨hagree, written, hw, ?_, fun w' hrun' => ?_⟩
    · have hstored := (hcap w hrun).stored (by simp [hg]) hv
      rw [← hfile] at hstored
      exact hstored
    · by_cases hne : w' = w
      · subst hne
        simp [swapHandle, setPc, setWorker] at hrun'
      · simp only [swapHandle, setPc, setWorker, setFile, Function.update_of_ne hne] at hrun'
        exact absurd (halone w' hne) hrun'
  · exact h

theorem step_faithful (ho : Owned s) (h : Faithful T s) {e : Event} (hc : ClockBy T e) :
    Faithful T (s.step e) := by
  cases e with
  | command env cmd => exact command_faithful h hc
  | write n => exact write_faithful h n
  | request w => exact request_faithful h w
  | snapshot w env => exact snapshot_faithful h hc
  | recheck w => exact recheck_faithful h w
  | create w => exact create_faithful ho h w
  | serialise w => exact serialise_faithful ho h w
  | check w => exact check_faithful h w
  | rename w => exact rename_faithful h w
  | swap w => exact swap_faithful ho h w

end Step

section OneWorker

variable {s : AofSystem} {w : ℕ}

def Event.actor : Event → Option ℕ
  | .command .. | .write _ => none
  | .request w | .snapshot w _ | .recheck w | .create w | .serialise w | .check w | .rename w
  | .swap w => some w

theorem setWorker_pc {w' : ℕ} (x : Worker) (hne : w ≠ w') :
    ((s.setWorker w' x).worker w).pc = (s.worker w).pc := by
  simp only [setWorker, Function.update_of_ne hne]

theorem step_pc {e : Event} (he : e.actor ≠ some w) :
    ((s.step e).worker w).pc = (s.worker w).pc := by
  cases e with
  | command env cmd =>
    simp only [step]
    split_ifs <;> rfl
  | write n =>
    simp only [step]
    split_ifs <;> rfl
  | request w' | snapshot w' env | recheck w' | check w' | swap w' =>
    have hne : w ≠ w' := fun h => he (by rw [h]; rfl)
    simp only [step, swapHandle, setPc, setFile]
    split_ifs <;> first | rfl | exact setWorker_pc _ hne
  | create w' =>
    have hne : w ≠ w' := fun h => he (by rw [h]; rfl)
    simp only [step, createTemp]
    split_ifs
    · split
      · rename_i i _
        exact setWorker_pc (s := s.setFile i []) _ hne
      · exact setWorker_pc (s := s.setFile s.nextInode []) _ hne
    · rfl
  | serialise w' =>
    have hne : w ≠ w' := fun h => he (by rw [h]; rfl)
    simp only [step]
    split
    · rename_i i _
      exact setWorker_pc (s := s.setFile i _) _ hne
    · rfl
  | rename w' =>
    have hne : w ≠ w' := fun h => he (by rw [h]; rfl)
    simp only [step, renameTemp]
    split_ifs
    · split <;> exact setWorker_pc _ hne
    · rfl

theorem step_idle (h : (s.worker w).pc = .idle) {e : Event}
    (he : ∀ w', e = .request w' → w ≠ w') : ((s.step e).worker w).pc = .idle := by
  by_cases ha : e.actor = some w
  · cases e with
    | command env cmd | write n => cases ha
    | request w' => exact absurd (Option.some.inj ha).symm (he w' rfl)
    | snapshot w' env | recheck w' | create w' | serialise w' | check w' | rename w' | swap w' =>
      obtain rfl := Option.some.inj ha
      simp [step, h]
  · rw [step_pc ha, h]

theorem step_begun (h : (s.worker w).pc = .begun) {e : Event}
    (he : ∀ env, e ≠ .snapshot w env) : ((s.step e).worker w).pc = .begun := by
  by_cases ha : e.actor = some w
  · cases e with
    | command env cmd | write n => cases ha
    | snapshot w' env =>
      obtain rfl := Option.some.inj ha
      exact absurd rfl (he env)
    | request w' | recheck w' | create w' | serialise w' | check w' | rename w' | swap w' =>
      obtain rfl := Option.some.inj ha
      simp [step, h]
  · rw [step_pc ha, h]

/-- With one worker no request claims the slot while that worker is running. -/
theorem noEarlyRequest_of_one {e : Event} (h : ∀ w, w ≠ 0 → (s.worker w).pc = .idle)
    (he : ∀ w, e = .request w → w = 0) : NoEarlyRequest s e := by
  cases e with
  | request w₀ =>
    intro _ hidle w hrun
    by_cases hw : w = 0
    · rw [he w₀ rfl] at hidle
      exact absurd (hw ▸ hidle) hrun
    · exact absurd (h w hw) hrun
  | _ => trivial

end OneWorker

/-- What a schedule of one worker keeps, where no append overflows the delta in its window. -/
def Sequential (T : ℕ) (s : AofSystem) : Prop :=
  (∀ w, w ≠ 0 → (s.worker w).pc = .idle) ∧ Owned s ∧ Faithful T s

theorem step_sequential {T : ℕ} {s : AofSystem} (h : Sequential T s) {e : Event}
    (hone : ∀ w, e = .request w → w = 0) (hclock : ClockBy T e) (hq : QuietWindow s e) :
    Sequential T (s.step e) := by
  obtain ⟨hidle, ho, hf⟩ := h
  refine ⟨fun w hw => step_idle (hidle w hw) fun w' hw' => ?_,
    step_owned ho hq (noEarlyRequest_of_one hidle hone), step_faithful ho hf hclock⟩
  rw [hone w' hw']
  exact hw

theorem run_sequential {T : ℕ} (deltaCap : ℕ) (events : List Event)
    (hone : ∀ w, .request w ∈ events → w = 0) (hclock : ∀ e ∈ events, ClockBy T e)
    (hq : ∀ n e, events[n]? = some e → QuietWindow ((start deltaCap).run (events.take n)) e) :
    Sequential T ((start deltaCap).run events) := by
  have h : ∀ n, Sequential T ((events.take n).foldl step (start deltaCap)) :=
    Runs.forall_take ⟨fun _ _ => rfl, owned_start deltaCap, faithful_start T deltaCap⟩
      fun n e he ih => step_sequential ih (fun w hw => hone w (hw ▸ List.mem_of_getElem? he))
        (hclock e (List.mem_of_getElem? he)) (hq n e he)
  have hlast := h events.length
  rwa [List.take_length] at hlast

/-- Where the writer's file is at the path and no command is under way, that file replays to what the
engine shows. -/
theorem Faithful.replays {T : ℕ} {s : AofSystem} (h : Faithful T s) {env : Env} (henv : env.At T)
    (hpath : s.path = s.handle) (hlater : Later T s.mem.log) (hpending : s.pending = []) :
    ∃ r, replay env (s.files s.path) KvEngine.new = .ok r
      ∧ ∀ k, (r.engine.store.lookup k).map (fun e => (e.data, e.expireAt))
        = live T s.mem.store k := by
  obtain ⟨hagree, written, hlog, ⟨rs, hfile, hvalid, hshow⟩, -⟩ := h.2.2 hlater
  rw [hpending, List.append_nil] at hlog
  obtain ⟨r, hr, hk⟩ := replay_valid henv hvalid
  refine ⟨r, ?_, fun k => ?_⟩
  · rw [hpath, hfile]
    exact hr
  · rw [hk k, hshow k, ← hlog, hagree k]

/-- Once the worker has returned and no command is under way, the file at the path replays, at a
clock before all recorded deadlines, to what the engine shows. -/
theorem rewrite_keeps_updates {T : ℕ} {env : Env} (henv : env.At T) (deltaCap : ℕ)
    (events : List Event) (hone : ∀ w, .request w ∈ events → w = 0)
    (hclock : ∀ e ∈ events, ClockBy T e)
    (hq : ∀ n e, events[n]? = some e → QuietWindow ((start deltaCap).run (events.take n)) e)
    (hlater : Later T ((start deltaCap).run events).mem.log)
    (hidle : (((start deltaCap).run events).worker 0).pc = .idle)
    (hpending : ((start deltaCap).run events).pending = []) :
    ∃ r, replay env (((start deltaCap).run events).files ((start deltaCap).run events).path)
          KvEngine.new = .ok r
      ∧ ∀ k, (r.engine.store.lookup k).map (fun e => (e.data, e.expireAt))
        = live T ((start deltaCap).run events).mem.store k := by
  have h := run_sequential deltaCap events hone hclock hq
  generalize (start deltaCap).run events = s at h hlater hidle hpending ⊢
  obtain ⟨hothers, ⟨-, hquiet⟩, hfaithful⟩ := h
  have hplace : s.path = s.handle := by
    rcases hquiet with hq | ⟨w, hrun, -⟩
    · exact hq.2.2.2
    · by_cases hw : w = 0
      · exact absurd (hw ▸ hidle) hrun
      · exact absurd (hothers w hw) hrun
  exact hfaithful.replays henv hplace hlater hpending

/-- An append overflows the delta after the worker's last look at the flag. -/
def overflown : List Event :=
  [.command (Env.steady 0) (.set [97] [49]), .write 0, .request 0, .snapshot 0 (Env.steady 0),
    .recheck 0, .create 0, .serialise 0, .check 0, .command (Env.steady 0) (.set [98] [50]),
    .write 0, .rename 0, .swap 0]

/-- The worker has returned, and the file at the path lacks a key that the engine shows. -/
theorem overflow_loses_update :
    (((start 5).run overflown).worker 0).pc = .idle ∧ ((start 5).run overflown).pending = []
      ∧ live 0 ((start 5).run overflown).mem.store [98] = some ([50], none)
      ∧ ¬ ∃ r, replay (Env.steady 0)
            (((start 5).run overflown).files ((start 5).run overflown).path) KvEngine.new = .ok r
          ∧ (r.engine.store.lookup [98]).map (fun e => (e.data, e.expireAt))
            = live 0 ((start 5).run overflown).mem.store [98] := by
  have hlive : live 0 ((start 5).run overflown).mem.store [98] = some ([50], none) := by decide
  have hfile : ((start 5).run overflown).files ((start 5).run overflown).path
      = encodeLog [.set [97] [49]] := by decide
  have hvalid : ∀ r ∈ [AofRecord.set [97] [49]], r.Valid := by
    intro r hr
    obtain rfl := List.mem_singleton.1 hr
    rfl
  refine ⟨by decide, by decide, hlive, ?_⟩
  rintro ⟨r, hr, hk⟩
  obtain ⟨r', hr', hk'⟩ := replay_valid (Env.steady_at (t := 0) (by decide)) hvalid
  rw [hfile, hr'] at hr
  cases hr
  rw [hk' [98], hlive] at hk
  revert hk
  decide

/-- A rewrite with an append on either side of the snapshot. -/
def busyRewrite : List Event :=
  [.command (Env.steady 0) (.set [97] [49]), .write 0, .request 0,
    .command (Env.steady 0) (.append [97] [50]), .write 0, .snapshot 0 (Env.steady 0), .recheck 0,
    .create 0, .serialise 0, .check 0, .command (Env.steady 0) (.set [98] [51]), .write 0,
    .rename 0, .swap 0]

theorem rewrite_keeps_updates_busyRewrite :
    ∃ r, replay (Env.steady 0)
          (((start 100).run busyRewrite).files ((start 100).run busyRewrite).path)
          KvEngine.new = .ok r
      ∧ (r.engine.store.lookup [97]).map (fun e => (e.data, e.expireAt)) = some ([49, 50], none)
      ∧ (r.engine.store.lookup [98]).map (fun e => (e.data, e.expireAt)) = some ([51], none) := by
  have hsteady : (Env.steady 0).At 0 := Env.steady_at (by decide)
  have hone : ∀ w, .request w ∈ busyRewrite → w = 0 := by
    intro w hw
    simpa [busyRewrite] using hw
  have hclock : ∀ e ∈ busyRewrite, ClockBy 0 e := by
    intro e he
    fin_cases he <;> first | trivial | exact ⟨0, le_rfl, hsteady⟩
  have hq : ∀ n e, busyRewrite[n]? = some e →
      QuietWindow ((start 100).run (busyRewrite.take n)) e := by
    rintro (_ | _ | _ | _ | _ | _ | _ | _ | _ | _ | _ | _ | _ | _ | n) e he <;> cases he
    all_goals first
      | trivial
      | (intro ho; exact absurd ho (by decide))
  have hlater : Later 0 ((start 100).run busyRewrite).mem.log := by
    have hlog : ((start 100).run busyRewrite).mem.log
        = [.set [97] [49], .set [97] [49, 50], .set [98] [51]] := by decide
    intro key absMs hmem
    simp [hlog] at hmem
  obtain ⟨r, hr, hk⟩ := rewrite_keeps_updates hsteady 100 busyRewrite hone hclock hq hlater
    (by decide) (by decide)
  exact ⟨r, hr, (hk [97]).trans (by decide), (hk [98]).trans (by decide)⟩

end AofSystem

end FerrumKv
