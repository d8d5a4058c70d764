import FerrumKv.Lib.Rounds
import FerrumKv.Proofs.Coverage
import FerrumKv.Sweeper

/-!
# How long the sweeper takes

A sweep removes expired entries under its cursor, and the cursor then skips no more entries than
were removed (`sweepRing_round`). A pass of `⌈n / sample⌉` sweeps may therefore miss expired
entries, but never more than it removes. So the ticks of the sweeper leave no expired entry after as
many passes as these entries can be halved, and one more (`ticks_clear`).
-/

namespace FerrumKv

open KvEngine

section Ticks

variable {env : Env} {sample : ℕ}

/-- A sweep is a round over the ring of the entries. -/
theorem sweepRing_round {s : KvEngine} (hord : OrderKept env s.store) (hs : 1 ≤ sample) :
    Rounds.Round (fun e => e.2.isExpired env.now) sample (sweepRing env s)
      (sweepRing env (s.sweepExpired env sample).2) := by
  rw [sweepRing_after hord hs]
  refine Rounds.round_of_order (sweepStart_le env s) (fun x hx => ?_) fun x hx => ?_
  · have hx' : x ∈ s.sweepWindow env sample := hx
    rw [Bool.eq_iff_iff, sweepKeeps_iff (List.mem_of_mem_take hx)]
    simp [hx']
  · refine (sweepKeeps_iff (List.mem_of_mem_drop hx)).2 fun h => ?_
    exact List.disjoint_take_drop (sweepRing_nodup env s) le_rfl h.1 hx

theorem orderKept_sweeps {s : KvEngine} (hord : OrderKept env s.store) (hs : 1 ≤ sample) :
    ∀ j, OrderKept env (run s (sweeps env sample j)).store
  | 0 => hord
  | j + 1 => by
    rw [run_sweeps_succ]
    exact ((orderKept_sweeps hord hs j).sweep hs).1

theorem countP_sweepRing (env : Env) (s : KvEngine) :
    (sweepRing env s).countP (fun e => e.2.isExpired env.now) = expiredCount env.now s :=
  ((Cyclic.order_perm _ _).trans (env.iter_perm s.store)).countP_eq _

theorem expiredAt_of_expiredCount {t : ℕ} {s : KvEngine} (h : expiredCount t s = 0) (k : Key) :
    expiredAt t s k = false := by
  obtain hl | ⟨e, hl⟩ := Option.eq_none_or_eq_some (s.store.lookup k)
  · exact expiredAt_of_absent hl _
  · rw [expiredAt_of_lookup hl]
    simpa using List.countP_eq_zero.1 h ⟨k, e⟩ (AList.mem_lookup_iff.1 hl)

/-- Enough sweeps leave no expired entry. -/
theorem sweeps_clear {s : KvEngine} (hs : 1 ≤ sample) (hord : OrderKept env s.store) {j : ℕ}
    (hj : (s.store.entries.length + sample - 1) / sample
      * (Nat.log 2 (expiredCount env.now s) + 1) ≤ j) :
    expiredCount env.now (run s (sweeps env sample j)) = 0 := by
  rw [← countP_sweepRing]
  refine Rounds.clear (f := fun j => sweepRing env (run s (sweeps env sample j))) (fun i => ?_)
    (n := sample) (m := (s.store.entries.length + sample - 1) / sample) ?_ ?_
  · simp only [run_sweeps_succ]
    exact sweepRing_round (orderKept_sweeps hord hs i) hs
  · exact (length_sweepRing env s).le.trans (le_ceil_mul hs)
  · rw [← countP_sweepRing] at hj
    exact hj

theorem run_sweeps_add (env : Env) (sample : ℕ) (s : KvEngine) (i j : ℕ) :
    run s (sweeps env sample (i + j)) = run (run s (sweeps env sample i)) (sweeps env sample j) := by
  simp only [run, sweeps, List.replicate_add, List.foldl_append]

theorem tickLoop_eq_sweeps (env : Env) (sample : ℕ) : ∀ (left : ℕ) (s : KvEngine),
    ∃ j, 1 ≤ j ∧ tickLoop env sample (left + 1) s = run s (sweeps env sample j)
  | 0, s => ⟨1, le_rfl, by
    simp only [tickLoop]
    split <;> rfl⟩
  | left + 1, s => by
    rw [tickLoop]
    split
    rename_i stats s' hsweep
    have hone : s' = run s (sweeps env sample 1) := by
      rw [run_sweeps_succ]
      exact (congrArg Prod.snd hsweep).symm
    split
    · obtain ⟨j, -, hj⟩ := tickLoop_eq_sweeps env sample left s'
      exact ⟨1 + j, by omega, by rw [hj, hone, run_sweeps_add]⟩
    · exact ⟨1, le_rfl, hone⟩

theorem ticks_eq_sweeps (env : Env) (sample : ℕ) (s : KvEngine) :
    ∀ n, ∃ j, n ≤ j ∧ ticks env sample n s = run s (sweeps env sample j)
  | 0 => ⟨0, le_rfl, rfl⟩
  | n + 1 => by
    obtain ⟨j, hn, hj⟩ := ticks_eq_sweeps env sample s n
    obtain ⟨i, hi, htick⟩ := tickLoop_eq_sweeps env sample 15 (run s (sweeps env sample j))
    exact ⟨j + i, by omega, by rw [ticks, hj, tick, sweepsPerTick, htick, run_sweeps_add]⟩

/-- Where removed keys leave the order of the others: from any state and any cursor, `⌈n / sample⌉`
ticks for each time that the number of expired entries can be halved, and as many more, leave no
expired key, if no time passes and nothing else runs. -/
theorem ticks_clear (env : Env) (s : KvEngine) (sample : ℕ) (hs : 1 ≤ sample)
    (hord : OrderKept env s.store) (k : Key) :
    expiredAt env.now
      (ticks env sample ((s.store.entries.length + sample - 1) / sample
        * (Nat.log 2 (expiredCount env.now s) + 1)) s) k = false := by
  obtain ⟨j, hj, hticks⟩ := ticks_eq_sweeps env sample s
    ((s.store.entries.length + sample - 1) / sample * (Nat.log 2 (expiredCount env.now s) + 1))
  rw [hticks]
  exact expiredAt_of_expiredCount (sweeps_clear hs hord hj) k

/-- The run in which a pass of sweeps misses a key. -/
theorem ticks_clear_twoDeadlines :
    expiredAt 10 (run .new twoDeadlines) [2] = true
      ∧ expiredAt 10 (ticks (.steady 10) 2
        (((run .new twoDeadlines).store.entries.length + 2 - 1) / 2
          * (Nat.log 2 (expiredCount 10 (run .new twoDeadlines)) + 1)) (run .new twoDeadlines)) [2]
        = false :=
  ⟨by decide,
    ticks_clear (.steady 10) (run .new twoDeadlines) 2 (by decide) (orderKept_steady 10 _) [2]⟩

end Ticks

end FerrumKv
