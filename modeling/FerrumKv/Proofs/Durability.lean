import FerrumKv.Lib.Runs
import FerrumKv.Proofs.Replay

/-!
# Restarts and replicas

A restart at `T` finds exactly what the run shows at `T`, after every command of the run, just when
no command replaces or clears a deadline that has passed by `T` (`restartAgrees_iff`): on replay at
`T` the record of the old deadline removes the key, and the later record finds nothing to edit. A
replica that is fed the records of each command at the command's own clock never fails and shows
what the primary shows (`mirror_agrees`).
-/

namespace FerrumKv

open KvEngine

/-- The store is well formed, and every record of the attached log is valid. -/
def Sound (s : KvEngine) : Prop :=
  WellFormed s.store ∧ ∃ log, s.aof = some log ∧ ∀ r ∈ log, r.Valid

theorem sound_new : Sound KvEngine.new.withAof :=
  ⟨fun _ _ hl => (by cases hl), [], rfl, by simp⟩

section Step

variable {T t : ℕ} {env : Env} {s : KvEngine}

theorem exec_records (h : env.At t) (hT : t ≤ T) (hs : Sound s) {cmd : Command}
    (hsafe : StepSafe T t s.store cmd) :
    ∃ rs, (exec env s cmd).2.log = s.log ++ rs ∧ (∀ r ∈ rs, r.Valid)
      ∧ ∀ k, live T (exec env s cmd).2.store k = actAll T rs (live T s.store) k := by
  obtain ⟨hw, log, hlog, hv⟩ := hs
  obtain ⟨-, rs, ha, hrs, hl⟩ := exec_logged h hT s hsafe hw
  refine ⟨rs, ?_, hrs, hl⟩
  simp [KvEngine.log, ha, hlog]

theorem exec_sound (h : env.At t) (hs : Sound s) (cmd : Command) : Sound (exec env s cmd).2 := by
  obtain ⟨hw, log, hlog, hv⟩ := hs
  obtain ⟨hw', rs, ha, hrs, -⟩ := exec_logged h le_rfl s (stepSafe_self t s.store cmd) hw
  refine ⟨hw', log ++ rs, by simp [ha, hlog], fun r hr => ?_⟩
  rcases List.mem_append.1 hr with hr | hr
  · exact hv r hr
  · exact hrs r hr

theorem Sound.valid (hs : Sound s) : ∀ r ∈ s.log, r.Valid := by
  obtain ⟨-, log, hlog, hv⟩ := hs
  simpa [KvEngine.log, hlog] using hv

end Step

theorem runTimed_eq (s : KvEngine) (calls : List TimedCall) :
    runTimed s calls = calls.foldl (fun s c => (exec c.env s c.cmd).2) s := by
  simp [runTimed, run, List.foldl_map, Call.step, TimedCall.call]

theorem runTimed_sound {s : KvEngine} (hs : Sound s) (calls : List TimedCall) :
    Sound (runTimed s calls) := by
  rw [runTimed_eq]
  exact Runs.foldl_invariant (I := Sound)
    (fun _ (c : TimedCall) h => exec_sound c.clock h c.cmd) calls hs

section Restart

variable {T : ℕ} {env : Env}

theorem replay_valid (henv : env.At T) {log : List AofRecord} (hv : ∀ r ∈ log, r.Valid) :
    ∃ r, replay env (encodeLog log) KvEngine.new = .ok r
      ∧ ∀ k, (r.engine.store.lookup k).map (fun e => (e.data, e.expireAt))
        = actAll T log (fun _ => none) k := by
  have h0 : KvEngine.new.eviction.maxMemory = 0 := rfl
  have hf : Fresh T KvEngine.new.store := fun k e hl => by cases hl
  have hfresh := fresh_applyAll henv log h0 hv hf
  refine ⟨_, replay_encodeLog env h0 hv, fun k => ?_⟩
  refine Eq.trans ?_ (live_applyAll henv log h0 hv k)
  unfold live
  cases hl : (applyAll env KvEngine.new log).store.lookup k with
  | none => rfl
  | some e => exact (shown_of_not_expired (hfresh k e hl)).symm

theorem restartAgrees_of_sound (henv : env.At T) {s : KvEngine} (hs : Sound s) :
    RestartAgrees T env s ↔ ∀ k, actAll T s.log (fun _ => none) k = live T s.store k := by
  obtain ⟨r₀, hr₀, hk₀⟩ := replay_valid henv hs.valid
  unfold RestartAgrees
  rw [hr₀]
  constructor
  · rintro ⟨r, hr, hk⟩ k
    cases hr
    rw [← hk k, ← hk₀ k]
  · intro hk
    exact ⟨r₀, rfl, fun k => (hk₀ k).trans (hk k)⟩

theorem live_none_of_le {t : ℕ} {store : Store} {k : Key} {v : Bytes} {d : ℕ} (ht : t ≤ T)
    (h : live t store k = some (v, some d)) (hd : d ≤ T) : live T store k = none := by
  rw [live_clip ht, h, clip, if_pos hd]

/-- A safe command keeps restarts at `T` in agreement. -/
theorem actAll_log_of_safe {t : ℕ} {s : KvEngine} {env : Env} (h : env.At t) (ht : t ≤ T)
    (hs : Sound s) {cmd : Command} (hsafe : StepSafe T t s.store cmd)
    (hagree : ∀ k, actAll T s.log (fun _ => none) k = live T s.store k) (k : Key) :
    actAll T (exec env s cmd).2.log (fun _ => none) k = live T (exec env s cmd).2.store k := by
  obtain ⟨rs, hlog, -, hl⟩ := exec_records h ht hs hsafe
  rw [hlog, hl k, actAll_append]
  exact actAll_congr rs (hagree k)

/-- A record that finds nothing to edit leaves the replayed log without the key. -/
theorem actAll_log_of_missing {s s' : KvEngine} {log : List AofRecord} {r : AofRecord} {k : Key}
    (hlog : s.aof = some log) (ha : s'.aof = s.aof.map (· ++ [r]))
    (hagree : actAll T s.log (fun _ => none) k = live T s.store k)
    (hnone : live T s.store k = none) (hr : r.actAt T k none = none) :
    actAll T s'.log (fun _ => none) k = none := by
  have hs : s.log = log := by simp [KvEngine.log, hlog]
  have hs' : s'.log = log ++ [r] := by simp [KvEngine.log, ha, hlog]
  rw [hs, hnone] at hagree
  rw [hs', actAll_append]
  simp only [actAll, List.foldl_cons, List.foldl_nil] at hagree ⊢
  rw [hagree, hr]

theorem lookup_of_live {t : ℕ} {store : Store} {k : Key} {v : Bytes} {d : Option ℕ}
    (h : live t store k = some (v, d)) :
    ∃ e, store.lookup k = some e ∧ e.isExpired t = false ∧ e.data = v ∧ e.expireAt = d := by
  obtain ⟨e, he, hsh⟩ := Option.bind_eq_some_iff.1 h
  cases hx : e.isExpired t with
  | true =>
    rw [shown_of_expired hx] at hsh
    cases hsh
  | false =>
    rw [shown_of_not_expired hx, Option.some.injEq, Prod.mk.injEq] at hsh
    exact ⟨e, he, hx, hsh.1, hsh.2⟩

/-- A command after which restarts at `T` still agree is safe. -/
theorem stepSafe_of_agree {t : ℕ} {s : KvEngine} {env : Env} (h : env.At t) (ht : t ≤ T)
    (hs : Sound s) {cmd : Command}
    (hagree : ∀ k, actAll T s.log (fun _ => none) k = live T s.store k)
    (hagree' : ∀ k,
      actAll T (exec env s cmd).2.log (fun _ => none) k = live T (exec env s cmd).2.store k) :
    StepSafe T t s.store cmd := by
  obtain ⟨-, log, hlog, -⟩ := hs
  have hnow := h.now
  have hms := h.nowMs
  cases cmd with
  | expireAtMs key absEpochMs =>
    intro v d hl hd
    by_contra hlt
    have hnone := live_none_of_le ht hl hd
    obtain ⟨e, he, hx, -, -⟩ := lookup_of_live hl
    rw [← hnow] at hx
    rcases expireAtMs_spec env s key absEpochMs with
      ⟨he', -⟩ | ⟨e', he', hx', -⟩ | ⟨e', -, -, hle, -⟩ | ⟨e', he', -, -, hs'⟩
    · rw [he] at he'
      cases he'
    · rw [he, Option.some.injEq] at he'
      rw [← he', hx] at hx'
      cases hx'
    · omega
    · have hexec : (exec env s (.expireAtMs key absEpochMs)).2
          = deadlined env s key absEpochMs := by
        simp [exec, reply, hs']
      have hk := hagree' key
      rw [hexec, deadlined, setDeadline_of_lookup _ he] at hk
      rw [actAll_log_of_missing hlog rfl (hagree key) hnone (by simp [AofRecord.actAt])] at hk
      have hlive := (live_of_lookup (T := T) (AList.lookup_insert s.store)).symm.trans hk.symm
      rw [shown_of_deadline T rfl, if_neg (by omega)] at hlive
      cases hlive
  | persist key =>
    intro v d hl
    by_contra hlt
    have hnone := live_none_of_le ht hl (by omega)
    obtain ⟨e, he, hx, -, hd⟩ := lookup_of_live hl
    rw [← hnow] at hx
    rcases persist_spec env s key with
      ⟨he', -⟩ | ⟨e', he', hx', -⟩ | ⟨e', he', -, hd', -⟩ | ⟨e', he', -, -, hs'⟩
    · rw [he] at he'
      cases he'
    · rw [he, Option.some.injEq] at he'
      rw [← he', hx] at hx'
      cases hx'
    · rw [he, Option.some.injEq] at he'
      rw [← he', hd] at hd'
      cases hd'
    · have hexec : (exec env s (.persist key)).2 = persisted s key := by
        simp [exec, reply, hs']
      have hk := hagree' key
      rw [hexec, persisted, setDeadline_of_lookup _ he] at hk
      rw [actAll_log_of_missing hlog rfl (hagree key) hnone (by simp [AofRecord.actAt])] at hk
      have hlive := (live_of_lookup (T := T) (AList.lookup_insert s.store)).symm.trans hk.symm
      rw [shown_of_no_deadline T rfl] at hlive
      cases hlive
  | _ => trivial

/-- Restarts at `T` agree after every command of a run just when every command of it is safe. -/
theorem restartAgrees_iff (henv : env.At T) (calls : List TimedCall) (hT : ∀ c ∈ calls, c.t ≤ T) :
    (∀ n, RestartAgrees T env (runTimed KvEngine.new.withAof (calls.take n)))
      ↔ ∀ n c, calls[n]? = some c →
        StepSafe T c.t (runTimed KvEngine.new.withAof (calls.take n)).store c.cmd := by
  have hsound := fun n => runTimed_sound sound_new (calls.take n)
  simp only [restartAgrees_of_sound henv (hsound _)]
  simp only [runTimed_eq] at hsound ⊢
  constructor
  · intro hagree n c hc
    have hnext := hagree (n + 1)
    rw [Runs.foldl_take_succ hc] at hnext
    exact stepSafe_of_agree c.clock (hT c (List.mem_of_getElem? hc)) (hsound n) (hagree n) hnext
  · intro hsafe
    refine Runs.forall_take
      (I := fun s : KvEngine => ∀ k, actAll T s.log (fun _ => none) k = live T s.store k)
      (fun _ => rfl) fun n c hc ih => ?_
    exact actAll_log_of_safe c.clock (hT c (List.mem_of_getElem? hc)) (hsound n) (hsafe n c hc) ih

/-- `SET k`, `PEXPIREAT k 10` and, before the deadline, `PERSIST k`. -/
def persistedRun : List TimedCall :=
  [.steady 0 (by decide) (.set [107] [118]), .steady 0 (by decide) (.expireAtMs [107] 10),
    .steady 5 (by decide) (.persist [107])]

theorem persistedRun_agrees_before_deadline :
    RestartAgrees 8 (Env.steady 8) (runTimed KvEngine.new.withAof (persistedRun.take 3)) := by
  have hlive₁ : live 0 (runTimed KvEngine.new.withAof (persistedRun.take 1)).store [107]
      = some ([118], none) := by decide
  have hlive₂ : live 5 (runTimed KvEngine.new.withAof (persistedRun.take 2)).store [107]
      = some ([118], some 10) := by decide
  refine (restartAgrees_iff (Env.steady_at (by decide)) persistedRun (by decide)).2 ?_ 3
  rintro (_ | _ | _ | n) c hc <;> simp only [persistedRun, List.getElem?_cons_zero,
    List.getElem?_cons_succ, List.getElem?_nil, Option.some.injEq, reduceCtorEq] at hc <;> subst hc
  · trivial
  · intro v d hl
    cases hlive₁.symm.trans hl
  · intro v d hl
    cases hlive₂.symm.trans hl
    decide

/-- A restart after the old deadline loses the persisted key. -/
theorem persistedRun_lost_after_deadline :
    live 20 (runTimed KvEngine.new.withAof persistedRun).store [107] = some ([118], none)
      ∧ ¬ RestartAgrees 20 (Env.steady 20) (runTimed KvEngine.new.withAof persistedRun) := by
  have hlive : live 20 (runTimed KvEngine.new.withAof persistedRun).store [107]
      = some ([118], none) := by decide
  have hlog : actAll 20 (runTimed KvEngine.new.withAof persistedRun).log (fun _ => none) [107]
      = none := by decide
  refine ⟨hlive, fun h => ?_⟩
  have hk := (restartAgrees_of_sound (Env.steady_at (by decide))
    (runTimed_sound sound_new persistedRun)).1 h [107]
  rw [hlive, hlog] at hk
  cases hk

end Restart

section Replica

variable {T t : ℕ} {env : Env}

theorem feed_valid (env : Env) : ∀ (rs : List AofRecord) {s : KvEngine},
    s.eviction.maxMemory = 0 → (∀ r ∈ rs, r.Valid) → feed env rs s = .ok (applyAll env s rs)
  | [], _, _, _ => rfl
  | r :: rs, s, h0, hv => by
    obtain ⟨hok, hev⟩ := applyRecord_ok env h0 (hv r List.mem_cons_self)
    rcases ha : applyRecord env s r.parts with ⟨o, s'⟩
    rw [ha] at hok hev
    simp only [] at hok hev
    subst hok
    simp only [feed, ha, applyAll, List.foldl_cons]
    exact feed_valid env rs (by rw [hev]; exact h0)
      fun r' hr' => hv r' (List.mem_cons_of_mem _ hr')

/-- The primary is sound, the replica has no ceiling, and from `t` on they show the same. -/
def InStep (t : ℕ) (p : KvEngine × KvEngine) : Prop :=
  Sound p.1 ∧ p.2.eviction.maxMemory = 0 ∧ ∀ T, t ≤ T → ∀ k, live T p.2.store k = live T p.1.store k

theorem InStep.mono {p : KvEngine × KvEngine} {t' : ℕ} (h : InStep t p) (ht : t ≤ t') :
    InStep t' p :=
  ⟨h.1, h.2.1, fun T hT => h.2.2 T (ht.trans hT)⟩

theorem feed_inStep {primary replica : KvEngine} (c : FedCall) (h : InStep c.t (primary, replica)) :
    ∃ replica', feed c.replicaEnv ((c.call.step primary).log.drop primary.log.length) replica
        = .ok replica' ∧ InStep c.t (c.call.step primary, replica') := by
  obtain ⟨hs, h0, hl⟩ := h
  obtain ⟨rs, hlog, hv, hact⟩ := exec_records c.clock le_rfl hs (stepSafe_self c.t primary.store c.cmd)
  have hdrop : (c.call.step primary).log.drop primary.log.length = rs := by
    simp only [Call.step, TimedCall.call, hlog, List.drop_left]
  rw [hdrop]
  refine ⟨_, feed_valid c.replicaEnv rs h0 hv, exec_sound c.clock hs c.cmd, ?_, fun T hT k => ?_⟩
  · rw [applyAll_eviction c.replicaEnv rs h0 hv]
    exact h0
  · rw [live_clip hT, live_clip hT, live_applyAll c.replicaClock rs h0 hv]
    refine congrArg (clip T) (Eq.trans ?_ (hact k).symm)
    exact actAll_congr rs (hl c.t le_rfl k)

theorem mirror_inStep : ∀ (calls : List FedCall) (t : ℕ) (p : KvEngine × KvEngine), InStep t p →
    (∀ c ∈ calls, t ≤ c.t) → InOrder (calls.map (·.toTimedCall)) →
      ∃ replica', mirror calls p
          = .ok (runTimed p.1 (calls.map (·.toTimedCall)), replica')
        ∧ ∀ T, t ≤ T → (∀ c ∈ calls, c.t ≤ T) → ∀ k, live T replica'.store k
          = live T (runTimed p.1 (calls.map (·.toTimedCall))).store k
  | [], t, (primary, replica), h, _, _ => ⟨replica, rfl, fun T hT _ => h.2.2 T hT⟩
  | c :: calls, t, (primary, replica), h, ht, hord => by
    obtain ⟨replica₁, hfeed, h₁⟩ := feed_inStep c (h.mono (ht c List.mem_cons_self))
    have hord' := List.pairwise_cons.1 hord
    obtain ⟨replica', hm, hl⟩ := mirror_inStep calls c.t _ h₁
      (fun c' hc' => hord'.1 c'.t (List.mem_map.2 ⟨c'.toTimedCall, List.mem_map.2 ⟨c', hc', rfl⟩, rfl⟩))
      hord'.2
    refine ⟨replica', ?_, fun T _ hT => ?_⟩
    · simp only [mirror, hfeed]
      exact hm
    · exact hl T (hT c List.mem_cons_self) fun c' hc' => hT c' (List.mem_cons_of_mem _ hc')

/-- The records of every command, fed to a replica at the command's clock, are all accepted, and
from the last command on the replica shows what the primary shows. -/
theorem mirror_agrees (calls : List FedCall) (hord : InOrder (calls.map (·.toTimedCall))) :
    ∃ replica, mirror calls (KvEngine.new.withAof, KvEngine.new)
        = .ok (runTimed KvEngine.new.withAof (calls.map (·.toTimedCall)), replica)
      ∧ ∀ T, (∀ c ∈ calls, c.t ≤ T) → ∀ k, live T replica.store k
        = live T (runTimed KvEngine.new.withAof (calls.map (·.toTimedCall))).store k := by
  obtain ⟨replica, hm, hl⟩ := mirror_inStep calls 0 (KvEngine.new.withAof, KvEngine.new)
    ⟨sound_new, rfl, fun _ _ _ => rfl⟩ (fun _ _ => Nat.zero_le _) hord
  exact ⟨replica, hm, fun T => hl T (Nat.zero_le T)⟩

/-- Under a ceiling that holds one entry: a write, a second one that evicts it, and edits of the
deadline of the second. -/
def evictingRun : List FedCall :=
  [.steady 0 (by decide) (.setEvictionConfig { maxMemory := 200, policy := .allKeysRandom }),
    .steady 0 (by decide) (.set [97] [118]), .steady 1 (by decide) (.set [98] [118]),
    .steady 1 (by decide) (.expireAtMs [98] 10), .steady 5 (by decide) (.persist [98])]

theorem mirror_agrees_evictingRun :
    ∃ replica, mirror evictingRun (KvEngine.new.withAof, KvEngine.new)
        = .ok (runTimed KvEngine.new.withAof (evictingRun.map (·.toTimedCall)), replica)
      ∧ live 5 replica.store [97] = none ∧ live 5 replica.store [98] = some ([118], none) := by
  obtain ⟨replica, hm, hl⟩ := mirror_agrees evictingRun (by unfold InOrder; decide)
  have hT : ∀ c ∈ evictingRun, c.t ≤ 5 := by decide
  refine ⟨replica, hm, ?_, ?_⟩
  · rw [hl 5 hT]
    decide
  · rw [hl 5 hT]
    decide

end Replica

end FerrumKv
