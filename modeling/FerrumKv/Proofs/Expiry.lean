import FerrumKv.Expiry
import FerrumKv.Lib.Runs
import FerrumKv.Proofs.Effects

/-!
# What the counter of expired keys counts

The counter grows by one for each entry the sweeper removes and for nothing else
(`exec_expiredKeys`). So it counts all expired entries removed in a run exactly when no command of
the run meets an expired entry before the sweeper does (`expiredKeys_exact_iff`).
-/

namespace FerrumKv

open KvEngine

section Command

variable {env : Env} {cmd : Command} {s₀ s s' : KvEngine}

/-- What a sweep removes is counted, and what another command removes is not. -/
theorem Effect.Does.counted {eff : Effect} (h : eff.Does env cmd s₀ s s') :
    s'.expiredKeys
      = s.expiredKeys + if cmd.isSweep then eff.expired.toList.length else 0 := by
  rw [h.expiredKeys]
  have hst := h.store
  generalize s'.store = store at hst
  cases hst with
  | lapse k e hk _ _ =>
    have hsweep : cmd.isSweep = false := by
      cases cmd with
      | sweepExpired sample => cases hk
      | _ => rfl
    rw [hsweep]
    rfl
  | sweep k e hc _ _ =>
    obtain ⟨sample, rfl⟩ := hc
    rfl
  | _ => simp [Effect.isSweep, Effect.expired]

theorem Trace.counted {effs : List Effect} (h : Trace env cmd s₀ s effs s') :
    s'.expiredKeys
      = s.expiredKeys + if cmd.isSweep then (effs.filterMap Effect.expired).length else 0 := by
  induction h with
  | nil s => simp
  | @cons s t s' eff effs hd _ ih =>
    rw [ih, hd.counted, filterMap_cons_toList, List.length_append]
    split_ifs <;> omega

theorem exec_expiredKeys (env : Env) (s : KvEngine) (cmd : Command) :
    (exec env s cmd).2.expiredKeys
      = s.expiredKeys + if cmd.isSweep then (expirations env s cmd).length else 0 := by
  obtain ⟨effs, htrace, -, hgone⟩ := exec_traced env s cmd
  rw [← hgone]
  exact htrace.counted

theorem firsts_ne_nil {p : Key → Bool} : ∀ {keys : List Key},
    firsts p keys ≠ [] ↔ ∃ k ∈ keys, p k = true
  | [] => by simp [firsts]
  | key :: keys => by
    rw [firsts]
    split_ifs with h
    · simp [h]
    · rw [firsts_ne_nil]
      simp [h]

theorem toBool_eq_true {r : Except FerrumError Unit} : r.toBool = true ↔ r = .ok () := by
  rcases r with err | u <;> simp [Except.toBool]

theorem findsExpired_iff :
    FindsExpired env s cmd ↔ cmd.isSweep = false ∧ expirations env s cmd ≠ [] := by
  unfold FindsExpired
  cases cmd <;>
    simp [Command.keys, Command.drops, Command.isSweep, expirations, firsts_ne_nil, toBool_eq_true]

end Command

/-- The expired entries that commands of a run other than sweeps remove. -/
def lapsedInRun : KvEngine → List Call → ℕ
  | _, [] => 0
  | s, c :: calls =>
    (if c.cmd.isSweep then 0 else (expirations c.env s c.cmd).length) + lapsedInRun (c.step s) calls

/-- The counter falls short by what the commands remove. -/
theorem run_expiredKeys : ∀ (calls : List Call) (s : KvEngine),
    (run s calls).expiredKeys + lapsedInRun s calls = s.expiredKeys + expiredInRun s calls
  | [], _ => rfl
  | c :: calls, s => by
    have ih := run_expiredKeys calls (c.step s)
    have hstep : (c.step s).expiredKeys = _ := exec_expiredKeys c.env s c.cmd
    have hrun : run s (c :: calls) = run (c.step s) calls := rfl
    rw [hrun, lapsedInRun, expiredInRun]
    rw [hstep] at ih
    split_ifs at ih ⊢ <;> omega

theorem lapsedInRun_eq_zero : ∀ (calls : List Call) (s : KvEngine),
    lapsedInRun s calls = 0 ↔
      ∀ n c, calls[n]? = some c → ¬ FindsExpired c.env (run s (calls.take n)) c.cmd
  | [], s => by simp [lapsedInRun]
  | c :: calls, s => by
    have hhead : (if c.cmd.isSweep then 0 else (expirations c.env s c.cmd).length) = 0
        ↔ ¬ FindsExpired c.env s c.cmd := by
      rw [findsExpired_iff]
      rcases c.cmd.isSweep <;> simp
    rw [lapsedInRun, Nat.add_eq_zero_iff, hhead, lapsedInRun_eq_zero calls (c.step s)]
    constructor
    · rintro ⟨h0, hn⟩ (_ | n) a ha
      · obtain rfl := Option.some.inj ha
        exact h0
      · exact hn n a ha
    · intro h
      exact ⟨h 0 c rfl, fun n a ha => h (n + 1) a ha⟩

/-- Step by step, `expirations` are the expired entries that are physically removed; and the counter
has counted all of them exactly when no command of the run found one before a sweep did. -/
theorem expiredKeys_exact_iff (s : KvEngine) (calls : List Call) :
    (∀ n c, calls[n]? = some c →
      ∃ effs, Trace c.env c.cmd (run s (calls.take n)) (run s (calls.take n)) effs
          (run s (calls.take (n + 1)))
        ∧ effs.filterMap Effect.expired = expirations c.env (run s (calls.take n)) c.cmd)
    ∧ ((run s calls).expiredKeys = s.expiredKeys + expiredInRun s calls ↔
      ∀ n c, calls[n]? = some c → ¬ FindsExpired c.env (run s (calls.take n)) c.cmd) := by
  constructor
  · intro n c hc
    obtain ⟨effs, htrace, -, hgone⟩ := exec_traced c.env (run s (calls.take n)) c.cmd
    have hnext : run s (calls.take (n + 1)) = (exec c.env (run s (calls.take n)) c.cmd).2 :=
      Runs.foldl_take_succ hc
    rw [hnext]
    exact ⟨effs, htrace, hgone⟩
  · rw [← lapsedInRun_eq_zero]
    have h := run_expiredKeys calls s
    omega

def expiredReadRun : List Call :=
  [⟨.steady 0, .set [107] [118]⟩, ⟨.steady 0, .expireAtMs [107] 5⟩, ⟨.steady 10, .get [107]⟩]

theorem expiredReadRun_uncounted :
    (run .new (expiredReadRun.take 2)).store.lookup [107] = some ⟨[118], some 5, 0, 5, 0⟩
      ∧ (run .new expiredReadRun).store.lookup [107] = none
      ∧ expiredInRun .new expiredReadRun = 1 ∧ (run .new expiredReadRun).expiredKeys = 0 := by
  decide

end FerrumKv
