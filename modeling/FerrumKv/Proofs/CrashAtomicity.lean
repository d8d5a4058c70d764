import FerrumKv.Proofs.Durability
import FerrumKv.Proofs.Recovery

/-!
# Commands and crashes

A crash cuts the log at some byte, and recovery keeps the complete records. A command that writes
several records is not one unit of recovery: a cut between two of them recovers the command in part
(`crash_splits_commands`). A cut anywhere else recovers what was shown after some command of the run
(`crash_atomic`).
-/

namespace FerrumKv

open KvEngine

def logAfter (calls : List TimedCall) (n : ℕ) : List AofRecord :=
  (runTimed KvEngine.new.withAof (calls.take n)).log

/-- Some record, and not every one, that a command of the run writes is complete in the bytes `p`. -/
def SplitsCommand (calls : List TimedCall) (p : Bytes) : Prop :=
  ∃ i < calls.length, ∃ m, (logAfter calls i).length < m ∧ m < (logAfter calls (i + 1)).length
    ∧ (encodeLog ((logAfter calls (i + 1)).take m)).length ≤ p.length
    ∧ p.length < (encodeLog (logAfter calls (i + 1))).length

section Crash

variable {T : ℕ} {env : Env} {calls : List TimedCall}

theorem logAfter_succ (calls : List TimedCall) (n : ℕ) :
    logAfter calls n <+: logAfter calls (n + 1) := by
  unfold logAfter
  rw [runTimed_eq, runTimed_eq]
  rcases hc : calls[n]? with _ | c
  · rw [List.take_add_one, hc, Option.toList_none, List.append_nil]
  · rw [Runs.foldl_take_succ hc]
    have hs := runTimed_sound sound_new (calls.take n)
    rw [runTimed_eq] at hs
    obtain ⟨rs, hlog, -⟩ := exec_records c.clock le_rfl hs (stepSafe_self c.t _ c.cmd)
    rw [hlog]
    exact List.prefix_append _ _

theorem logAfter_mono (calls : List TimedCall) {m n : ℕ} (h : m ≤ n) :
    logAfter calls m <+: logAfter calls n := by
  induction n, h using Nat.le_induction with
  | base => exact List.prefix_rfl
  | succ n _ ih => exact ih.trans (logAfter_succ calls n)

theorem logAfter_length (calls : List TimedCall) :
    logAfter calls calls.length = (runTimed KvEngine.new.withAof calls).log := by
  rw [logAfter, List.take_length]

theorem exists_last_le {f : ℕ → ℕ} {n : ℕ} (h : f 0 ≤ n) :
    ∀ N, ∃ i ≤ N, f i ≤ n ∧ (i < N → n < f (i + 1))
  | 0 => ⟨0, le_rfl, h, fun hlt => absurd hlt (Nat.lt_irrefl 0)⟩
  | N + 1 => by
    obtain ⟨i, hi, hle, hnext⟩ := exists_last_le h N
    rcases Nat.lt_or_ge i N with hlt | hge
    · exact ⟨i, by omega, hle, fun _ => hnext hlt⟩
    · obtain rfl : i = N := by omega
      by_cases hN : f (i + 1) ≤ n
      · exact ⟨i + 1, le_rfl, hN, fun hlt => absurd hlt (Nat.lt_irrefl _)⟩
      · exact ⟨i, by omega, hle, fun _ => by omega⟩

/-- A cut that splits no command keeps the log after some of the commands. -/
theorem exists_whole {p cut : Bytes} {n : ℕ}
    (h : CutAt ((logAfter calls calls.length).map AofRecord.parts) p n cut)
    (hsplit : ¬SplitsCommand calls p) :
    ∃ i ≤ calls.length, (logAfter calls calls.length).take n = logAfter calls i := by
  obtain ⟨i, hi, hle, hnext⟩ := exists_last_le (f := fun i => (logAfter calls i).length) (n := n)
    (Nat.zero_le n) calls.length
  have hpre := logAfter_mono calls hi
  have hn := h.le
  rw [List.length_map] at hn
  rcases hle.eq_or_lt with heq | hlt
  · exact ⟨i, hi, by rw [← heq]; exact (List.prefix_iff_eq_take.1 hpre).symm⟩
  have hi' : i < calls.length := by
    rcases hi.eq_or_lt with rfl | hi'
    · exact absurd hn (Nat.not_le.2 hlt)
    · exact hi'
  have hfull := logAfter_mono calls (show i + 1 ≤ calls.length from hi')
  have htake : ∀ m ≤ (logAfter calls (i + 1)).length, encodeLog ((logAfter calls (i + 1)).take m)
      = encodeAll (((logAfter calls calls.length).map AofRecord.parts).take m) := by
    intro m hm
    rw [encodeLog_eq, List.map_take]
    obtain ⟨more, hmore⟩ := hfull
    rw [← hmore, List.map_append, List.take_append_of_le_length (by rwa [List.length_map])]
  have hcut := hnext hi'
  refine absurd ⟨i, hi', n, hlt, hcut, ?_, ?_⟩ hsplit
  · rw [htake n hcut.le, h.bytes, List.length_append]
    exact Nat.le_add_right _ _
  · have hwhole := htake _ le_rfl
    rw [List.take_length] at hwhole
    rw [hwhole]
    refine (h.next ?_).trans_le (length_encodeAll_take_le _ (show n + 1 ≤ _ from hcut))
    rw [List.length_map]
    exact lt_of_lt_of_le hcut hfull.length_le

/-- Where no deadline passes by `T`, a crash that splits no command is recovered at `T` to what was
shown after some of the commands. -/
theorem crash_atomic (henv : env.At T) (hT : ∀ c ∈ calls, c.t ≤ T)
    (hdead : ∀ n k e d, (runTimed KvEngine.new.withAof (calls.take n)).store.lookup k = some e →
      e.expireAt = some d → T < d)
    {p : Bytes} (hp : p <+: encodeLog (runTimed KvEngine.new.withAof calls).log)
    (hsplit : ¬SplitsCommand calls p) :
    ∃ n ≤ calls.length, ∃ r, replay env p KvEngine.new = .ok r
      ∧ ∀ k, (r.engine.store.lookup k).map (fun e => (e.data, e.expireAt))
        = live T (runTimed KvEngine.new.withAof (calls.take n)).store k := by
  have hsafe : ∀ n c, calls[n]? = some c →
      StepSafe T c.t (runTimed KvEngine.new.withAof (calls.take n)).store c.cmd := by
    intro n c _
    have hafter : ∀ key v d, live c.t (runTimed KvEngine.new.withAof (calls.take n)).store key
        = some (v, some d) → T < d := by
      intro key v d hl
      obtain ⟨e, he, -, -, hd⟩ := lookup_of_live hl
      exact hdead n key e d he hd
    rcases c.cmd <;> try trivial
    · exact fun v d hl hd => absurd (hafter _ v d hl) (Nat.not_lt.2 hd)
    · exact fun v d hl => hafter _ v d hl
  have hv := (runTimed_sound sound_new calls).valid
  rw [← logAfter_length] at hp hv
  rw [encodeLog_eq] at hp
  obtain ⟨m, cut, hcut⟩ := exists_cutAt _ p hp
  obtain ⟨n, hn, htake⟩ := exists_whole hcut hsplit
  have hnew : KvEngine.new.eviction.maxMemory = 0 := rfl
  have hreplay := hcut.replay (accepts_parts env _ hnew hv) fun parts hparts => by
    obtain ⟨r, hr, rfl⟩ := List.mem_map.1 hparts
    exact ⟨length_parts_lt r, length_of_mem_parts (hv r hr)⟩
  rw [← List.map_take, ← applyAll_eq, htake] at hreplay
  obtain ⟨r, hr, hk⟩ := (restartAgrees_iff henv calls hT).2 hsafe n
  have hvn := (runTimed_sound sound_new (calls.take n)).valid
  rw [replay_encodeLog env hnew hvn, Except.ok.injEq] at hr
  subst hr
  exact ⟨n, hn, _, hreplay, hk⟩

def msetRun : List TimedCall := [.soon 0 (.mset [([97], [49]), ([98], [50])])]

def delRun : List TimedCall := msetRun ++ [.soon 0 (.delMany [[97], [98]])]

/-- `SET k 5` with a deadline, then `INCRBY k 1`. -/
def incrRun : List TimedCall :=
  [.soon 0 (.set [107] [53]), .soon 0 (.expireAtMs [107] 100),
    .soon 0 (.incrBy [107] 1)]

/-- A cut inside the first record of an `MSET`. -/
theorem crash_atomic_msetRun :
    ∃ n ≤ 1, ∃ r, replay (Env.steady 0) ((encodeLog (logAfter msetRun 1)).take 5) KvEngine.new = .ok r
      ∧ ∀ k, (r.engine.store.lookup k).map (fun e => (e.data, e.expireAt))
        = live 0 (runTimed KvEngine.new.withAof (msetRun.take n)).store k := by
  have henv : (Env.steady 0).At 0 := Env.steady_at (by decide)
  have hT : ∀ c ∈ msetRun, c.t ≤ 0 := by decide
  refine crash_atomic henv hT ?_ (List.take_prefix 5 _) ?_
  · intro n k e d he hd
    have hnone : ∀ n, ∀ x ∈ (runTimed KvEngine.new.withAof (msetRun.take n)).store.entries,
        x.2.expireAt = none := by
      rintro (_ | n)
      · decide
      · rw [List.take_of_length_le (show msetRun.length ≤ n + 1 by simp [msetRun])]
        decide
    rw [hnone n ⟨k, e⟩ (AList.mem_lookup_iff.1 he)] at hd
    cases hd
  · rintro ⟨i, hi, m, hlt, hm, hle, -⟩
    obtain rfl : i = 0 := by
      simp only [msetRun, List.length_singleton] at hi
      omega
    have hlen : (logAfter msetRun 0).length = 0 ∧ (logAfter msetRun (0 + 1)).length = 2 := by decide
    obtain rfl : m = 1 := by omega
    revert hle
    decide

/-- Recovery at the cut `p` shows what no number of commands of the run shows. -/
def Exposes (calls : List TimedCall) (p : Bytes) : Prop :=
  p <+: encodeLog (runTimed KvEngine.new.withAof calls).log
    ∧ ∃ r, replay (Env.steady 0) p KvEngine.new = .ok r
      ∧ ∀ n ≤ calls.length, ∃ k, (r.engine.store.lookup k).map (fun e => (e.data, e.expireAt))
        ≠ live 0 (runTimed KvEngine.new.withAof (calls.take n)).store k

/-- A crash between two records of one command recovers one key of an `MSET`, removes one key of a
`DEL`, and recovers the value of an `INCRBY` without the deadline. -/
theorem crash_splits_commands :
    Exposes msetRun (encodeLog [.set [97] [49]])
      ∧ Exposes delRun (encodeLog [.set [97] [49], .set [98] [50], .del [97]])
      ∧ Exposes incrRun (encodeLog [.set [107] [53], .pexpireat [107] 100, .set [107] [54]]) := by
  refine ⟨⟨by decide, _, rfl, ?_⟩, ⟨by decide, _, rfl, ?_⟩, ⟨by decide, _, rfl, ?_⟩⟩
  · rintro (_ | _ | n) hn
    · exact ⟨[97], by decide⟩
    · exact ⟨[98], by decide⟩
    · exact absurd hn (by simp [msetRun])
  · rintro (_ | _ | _ | n) hn
    · exact ⟨[98], by decide⟩
    · exact ⟨[97], by decide⟩
    · exact ⟨[98], by decide⟩
    · exact absurd hn (by simp [delRun, msetRun])
  · rintro (_ | _ | _ | _ | n) hn
    · exact ⟨[107], by decide⟩
    · exact ⟨[107], by decide⟩
    · exact ⟨[107], by decide⟩
    · exact ⟨[107], by decide⟩
    · exact absurd hn (by simp [incrRun])

end Crash

end FerrumKv
