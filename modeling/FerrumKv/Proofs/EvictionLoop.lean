import FerrumKv.Proofs.Selection

/-!
# What one run of the eviction loop does

Every round of the loop takes a stored key in scope while the incoming bytes do not fit, so the loop
empties the store before it uses up its rounds: it ends because the bytes fit or because no victim is
left, never by its bound. `enforceMemoryLimit_contract` says what a call removes, logs and answers,
and `enforceMemoryLimit_thinned` what its victims can have been.
-/

namespace FerrumKv

open KvEngine

variable {env : Env} {o : Option Key} {s s' : KvEngine} {incoming : ℕ}

theorem selectVictim_eviction (env : Env) (s : KvEngine) :
    (s.selectVictim env).2.eviction = s.eviction := by
  rw [selectVictim_frame]

theorem evictVictim_store (h : s.selectVictim env = (o, s')) (victim : Key) :
    (s'.evictVictim victim).store = s.store.erase victim := by
  have hsel := selectVictim_store env s
  rw [h] at hsel
  exact congrArg (AList.erase victim) hsel

theorem counterAfter_neg (used n : ℕ) : counterAfter used (-(n : ℤ)) = used - n := by
  unfold counterAfter
  split_ifs <;> omega

theorem evictVictim_used (h : s.selectVictim env = (o, s')) (victim : Key) :
    (s'.evictVictim victim).usedMemory
      = s.usedMemory - s.store.weightAt entryBytes victim := by
  have hst := selectVictim_store env s
  have hused : (s.selectVictim env).2.usedMemory = s.usedMemory := by rw [selectVictim_frame]
  rw [h] at hst hused
  rw [← hst, ← hused]
  exact counterAfter_neg _ _

/-- From `s` to `s'` by evicting the keys in order, each at a moment when the incoming bytes are too
many and each in scope at that moment. -/
inductive Evicts (env : Env) (incoming : ℕ) : KvEngine → List Key → KvEngine → Prop
  | done (s : KvEngine) : Evicts env incoming s [] s
  | next {s t s' : KvEngine} {victim : Key} {rest : List Key}
      (exceeds : s.eviction.maxMemory < s.usedMemory + incoming)
      (chosen : s.selectVictim env = (some victim, t))
      (inScope : InScope s.store s.eviction.policy.scope victim)
      (more : Evicts env incoming (t.evictVictim victim) rest s') :
      Evicts env incoming s (victim :: rest) s'

theorem exceeds_of_not_fits {s : KvEngine} (h : ¬ s.fits incoming = true) :
    s.eviction.maxMemory < s.usedMemory + incoming := by
  unfold fits at h
  rw [decide_eq_true_eq] at h
  omega

theorem evictVictim_aof {s t : KvEngine} (h : s.selectVictim env = (o, t)) (victim : Key) :
    (t.evictVictim victim).aof = s.aof.map (· ++ [.del victim]) := by
  have haof := selectVictim_aof env s
  rw [h] at haof
  exact congrArg (Option.map (· ++ [AofRecord.del victim])) haof

theorem evictVictim_evictedKeys {s t : KvEngine} (h : s.selectVictim env = (o, t)) (victim : Key) :
    (t.evictVictim victim).evictedKeys = s.evictedKeys + 1 := by
  have hcount : (s.selectVictim env).2.evictedKeys = s.evictedKeys := by rw [selectVictim_frame]
  rw [h] at hcount
  exact congrArg (· + 1) hcount

theorem evictVictim_eviction {s t : KvEngine} (h : s.selectVictim env = (o, t)) (victim : Key) :
    (t.evictVictim victim).eviction = s.eviction := by
  have hev := selectVictim_eviction env s
  rw [h] at hev
  exact hev

namespace Evicts

variable {env : Env} {incoming : ℕ} {s s' : KvEngine} {keys : List Key}

theorem eviction (h : Evicts env incoming s keys s') : s'.eviction = s.eviction := by
  induction h with
  | done => rfl
  | next _ chosen _ _ ih => exact ih.trans (evictVictim_eviction chosen _)

theorem inScope_of_mem (h : Evicts env incoming s keys s') {k : Key} (hk : k ∈ keys) :
    InScope s.store s.eviction.policy.scope k := by
  induction h with
  | done => exact absurd hk List.not_mem_nil
  | @next s t s' victim rest _ chosen inScope _ ih =>
    rcases List.mem_cons.1 hk with rfl | hk
    · exact inScope
    · obtain ⟨e, he, ha⟩ := ih hk
      rw [evictVictim_store chosen] at he
      rw [evictVictim_eviction chosen] at ha
      refine ⟨e, ?_, ha⟩
      by_cases hv : k = victim
      · subst hv
        rw [AList.lookup_erase] at he
        cases he
      · rwa [AList.lookup_erase_ne hv] at he

theorem nodup (h : Evicts env incoming s keys s') : keys.Nodup := by
  induction h with
  | done => exact List.nodup_nil
  | @next s t s' victim rest _ chosen _ more ih =>
    refine List.nodup_cons.2 ⟨fun hmem => ?_, ih⟩
    obtain ⟨e, he, -⟩ := more.inScope_of_mem hmem
    rw [evictVictim_store chosen, AList.lookup_erase] at he
    cases he

theorem length_le (h : Evicts env incoming s keys s') : keys.length ≤ s.store.entries.length := by
  have hsub : keys ⊆ s.store.keys := fun k hk => by
    obtain ⟨e, he, -⟩ := h.inScope_of_mem hk
    exact AList.mem_keys.1 (AList.lookup_isSome.1 (by rw [he]; rfl))
  have hlen := (h.nodup.subperm hsub).length_le
  unfold AList.keys List.keys at hlen
  rwa [List.length_map] at hlen

/-- The victims are gone, and every other entry is as it was. -/
theorem lookup (h : Evicts env incoming s keys s') (k : Key) :
    s'.store.lookup k = if k ∈ keys then none else s.store.lookup k := by
  induction h with
  | done => rw [if_neg List.not_mem_nil]
  | @next s t s' victim rest _ chosen _ _ ih =>
    rw [ih, evictVictim_store chosen]
    by_cases hk : k = victim
    · subst hk
      rw [AList.lookup_erase, ite_self, if_pos List.mem_cons_self]
    · simp only [AList.lookup_erase_ne hk, List.mem_cons, hk, false_or]

theorem aof (h : Evicts env incoming s keys s') :
    s'.aof = s.aof.map (· ++ keys.map AofRecord.del) := by
  induction h with
  | done => simp
  | next _ chosen _ _ ih =>
    rw [ih, evictVictim_aof chosen, Option.map_map]
    congr 1
    funext log
    simp

theorem evictedKeys (h : Evicts env incoming s keys s') :
    s'.evictedKeys = s.evictedKeys + keys.length := by
  induction h with
  | done => rfl
  | next _ chosen _ _ ih =>
    rw [ih, evictVictim_evictedKeys chosen, List.length_cons]
    omega

end Evicts

section Loop

variable {env : Env} {incoming : ℕ} {s : KvEngine}

/-- How a loop that started at `s` with some rounds has ended at `s'`: the bytes fit, no victim was
found, or the rounds are used up. -/
inductive LoopEnd (env : Env) (incoming rounds : ℕ) (keys : List Key) (s' : KvEngine) :
    Option FerrumError × KvEngine → Prop
  | fits (h : s'.fits incoming = true) : LoopEnd env incoming rounds keys s' (none, s')
  | noVictim {t : KvEngine} (h : ¬ s'.fits incoming = true)
      (hv : s'.selectVictim env = (none, t)) :
      LoopEnd env incoming rounds keys s' (some .outOfMemory, t)
  | bound (h : keys.length = rounds) : LoopEnd env incoming rounds keys s' (none, s')

theorem LoopEnd.cons {rounds : ℕ} {keys : List Key} {s' : KvEngine}
    {r : Option FerrumError × KvEngine} (h : LoopEnd env incoming rounds keys s' r) (victim : Key) :
    LoopEnd env incoming (rounds + 1) (victim :: keys) s' r := by
  rcases h with h | ⟨h, hv⟩ | h
  · exact .fits h
  · exact .noVictim h hv
  · exact .bound (congrArg (· + 1) h)

theorem evictLoop_evicts (env : Env) (incoming : ℕ) : ∀ (rounds : ℕ) {s : KvEngine},
    s.eviction.policy ≠ .noEviction → ∃ keys s', Evicts env incoming s keys s'
      ∧ LoopEnd env incoming rounds keys s' (evictLoop env incoming rounds s)
  | 0, s, _ => ⟨[], s, .done s, .bound rfl⟩
  | rounds + 1, s, hpol => by
    unfold evictLoop
    by_cases hfit : s.fits incoming = true
    · rw [if_pos hfit]
      exact ⟨[], s, .done s, .fits hfit⟩
    rw [if_neg hfit, if_neg hpol]
    rcases hv : s.selectVictim env with ⟨_ | victim, t⟩
    · exact ⟨[], s, .done s, .noVictim hfit hv⟩
    · have hev := evictVictim_eviction hv victim
      obtain ⟨keys, s', hrun, hend⟩ :=
        evictLoop_evicts env incoming rounds (s := t.evictVictim victim) (by rwa [hev])
      exact ⟨victim :: keys, s', .next (exceeds_of_not_fits hfit) hv
        (selectVictim_spec (congrArg Prod.fst hv)) hrun, hend.cons victim⟩

/-- Under a ceiling and an evicting policy a call evicts some keys, and then either the bytes fit or
no victim is left: the rounds are never used up. -/
theorem enforceMemoryLimit_end (env : Env) (incoming : ℕ) (hmax : s.eviction.maxMemory ≠ 0)
    (hpol : s.eviction.policy ≠ .noEviction) : ∃ keys s', Evicts env incoming s keys s'
      ∧ (s.enforceMemoryLimit env incoming = (.ok (), s') ∧ s'.fits incoming = true
        ∨ ∃ t, s.enforceMemoryLimit env incoming = (.error .outOfMemory, t)
          ∧ s'.selectVictim env = (none, t) ∧ ¬ s'.fits incoming = true) := by
  obtain ⟨keys, s', hrun, hend⟩ :=
    evictLoop_evicts env incoming (max s.store.entries.length 1 + 16) hpol
  have hlen := hrun.length_le
  unfold enforceMemoryLimit
  rw [if_neg hmax]
  generalize evictLoop env incoming (max s.store.entries.length 1 + 16) s = r at hend ⊢
  refine ⟨keys, s', hrun, ?_⟩
  rcases hend with hfit | ⟨hfit, hv⟩ | hbound
  · exact .inl ⟨by simp only [hfit, if_true], hfit⟩
  · exact .inr ⟨_, rfl, hv, hfit⟩
  · omega

end Loop

/-- What a call of `enforceMemoryLimit` with result `r` evicts, and why it answers as it does. -/
structure EnforceContract (env : Env) (s : KvEngine) (incoming : ℕ)
    (r : Except FerrumError Unit × KvEngine) (keys : List Key) : Prop where
  scope : ∀ k ∈ keys, InScope s.store s.eviction.policy.scope k
  survivors : ∀ k, r.2.store.lookup k = if k ∈ keys then none else s.store.lookup k
  once : keys.Nodup
  aof : r.2.aof = s.aof.map (· ++ keys.map AofRecord.del)
  evictedKeys : r.2.evictedKeys = s.evictedKeys + keys.length
  ok : r.1 = .ok () → s.eviction.maxMemory = 0
    ∨ min (r.2.usedMemory + incoming) (2 ^ 64 - 1) ≤ s.eviction.maxMemory
  moments : ∃ s', Evicts env incoming s keys s'
    ∧ ∀ e, r.1 = .error e → e = .outOfMemory ∧ (s'.selectVictim env).1 = none

theorem Evicts.contract {keys : List Key}
    (h : Evicts env incoming s keys s') (answer : Except FerrumError Unit)
    (hok : answer = .ok () → s.eviction.maxMemory = 0 ∨ s'.fits incoming = true)
    (herr : ∀ e, answer = .error e → e = .outOfMemory ∧ (s'.selectVictim env).1 = none)
    {t : KvEngine} (hst : t.store = s'.store) (haof : t.aof = s'.aof)
    (hcount : t.evictedKeys = s'.evictedKeys) (hused : t.usedMemory = s'.usedMemory) :
    EnforceContract env s incoming (answer, t) keys where
  scope _ := h.inScope_of_mem
  survivors k := by
    change t.store.lookup k = _
    rw [hst, h.lookup k]
  once := h.nodup
  aof := haof.trans h.aof
  evictedKeys := hcount.trans h.evictedKeys
  ok hr := by
    rcases hok hr with hmax | hfit
    · exact .inl hmax
    · unfold fits at hfit
      rw [decide_eq_true_eq, h.eviction, ← hused] at hfit
      exact .inr hfit
  moments := ⟨s', h, herr⟩

/-- One call of `enforceMemoryLimit`, whatever the store, the order it is walked in, the evicting
policy, its samples and the bytes asked for. -/
theorem enforceMemoryLimit_contract (env : Env) (s : KvEngine) (incoming : ℕ)
    (hpol : s.eviction.policy ≠ .noEviction) :
    ∃ keys, EnforceContract env s incoming (s.enforceMemoryLimit env incoming) keys := by
  by_cases hmax : s.eviction.maxMemory = 0
  · have hr : s.enforceMemoryLimit env incoming = (.ok (), s) := if_pos hmax
    rw [hr]
    exact ⟨[], (Evicts.done s).contract _ (fun _ => .inl hmax) (fun e he => by cases he)
      rfl rfl rfl rfl⟩
  obtain ⟨keys, s', hrun, ⟨hr, hfit⟩ | ⟨t, hr, hv, -⟩⟩ :=
    enforceMemoryLimit_end env incoming hmax hpol
  · rw [hr]
    exact ⟨keys, hrun.contract _ (fun _ => .inr hfit) (fun e he => by cases he) rfl rfl rfl rfl⟩
  · have hframe := selectVictim_frame env s'
    rw [hv] at hframe
    change t = { s' with sieve := t.sieve, ac := t.ac } at hframe
    rw [hr]
    refine ⟨keys, hrun.contract _ (fun h => by cases h) (fun e he => ?_) ?_ ?_ ?_ ?_⟩
    · cases he
      exact ⟨rfl, by rw [hv]⟩
    all_goals rw [hframe]

/-- Under a ceiling of 300 bytes two entries of 146 bytes; the one at `[97]` is first in line. -/
def crowdedRun : List Call :=
  [⟨Env.steady 0, .setEvictionConfig { maxMemory := 300, policy := .allKeysRandom }⟩,
    ⟨Env.steady 0, .set [98] [118]⟩, ⟨Env.steady 0, .set [97] [118]⟩]

def crowded : KvEngine := run (startWith none) crowdedRun

theorem enforceMemoryLimit_contract_crowded :
    (∃ keys, EnforceContract (Env.steady 1) crowded 100
      (crowded.enforceMemoryLimit (Env.steady 1) 100) keys)
      ∧ (crowded.enforceMemoryLimit (Env.steady 1) 100).2.evictedKeys = 1 :=
  ⟨enforceMemoryLimit_contract (Env.steady 1) crowded 100 (by decide), by decide⟩

def unlimited : KvEngine := KvEngine.new.setEvictionConfig (Env.steady 0) { policy := .allKeysLru }

/-- Without a ceiling every write is admitted. -/
theorem enforceMemoryLimit_unlimited :
    unlimited.eviction.policy ≠ .noEviction
      ∧ (unlimited.enforceMemoryLimit (Env.steady 0) 1).1 = .ok ()
      ∧ ¬ (unlimited.enforceMemoryLimit (Env.steady 0) 1).2.usedMemory + 1
        ≤ unlimited.eviction.maxMemory := by
  decide

/-- From `s` to `s'` the keys were evicted: each could be chosen in `s`, and apart from them the
store, the keys that can be chosen and the configuration are as they were. -/
structure Thinned (s : KvEngine) (keys : List Key) (s' : KvEngine) : Prop where
  chosen : ∀ k ∈ keys, Selectable s k
  rest : ∀ k, Selectable s' k ↔ k ∉ keys ∧ Selectable s k
  lookup : ∀ k, s'.store.lookup k = if k ∈ keys then none else s.store.lookup k
  eviction : s'.eviction = s.eviction
  used : s'.usedMemory ≤ s.usedMemory
  heapPeak : s'.heapPeak = s.heapPeak

namespace Thinned

variable {env : Env} {incoming : ℕ} {s s' t : KvEngine} {keys keys' : List Key} {k : Key}

theorem refl (s : KvEngine) : Thinned s [] s :=
  ⟨nofun, fun _ => by simp, fun _ => by simp, rfl, le_rfl, rfl⟩

theorem trans (h : Thinned s keys s') (h' : Thinned s' keys' t) : Thinned s (keys ++ keys') t where
  chosen k hk := (List.mem_append.1 hk).elim (h.chosen k) fun hk => ((h.rest k).1 (h'.chosen k hk)).2
  rest k := by rw [h'.rest, h.rest, List.mem_append, not_or, ← and_assoc, and_comm (a := k ∉ keys')]
  lookup k := by
    rw [h'.lookup, h.lookup]
    by_cases hk : k ∈ keys <;> by_cases hk' : k ∈ keys' <;> simp [hk, hk']
  eviction := h'.eviction.trans h.eviction
  used := h'.used.trans h.used
  heapPeak := h'.heapPeak.trans h.heapPeak

theorem evictVictim {victim : Key} (h : s.selectVictim env = (some victim, t)) :
    Thinned s [victim] (t.evictVictim victim) where
  chosen k hk := by
    rw [List.mem_singleton.1 hk]
    exact selectable_of_chosen (congrArg Prod.fst h)
  rest k := by rw [selectable_evictVictim h, List.mem_singleton]
  lookup k := by
    rw [evictVictim_store h]
    by_cases hk : k = victim
    · subst hk
      rw [AList.lookup_erase, if_pos (List.mem_singleton_self k)]
    · rw [AList.lookup_erase_ne hk, if_neg (mt List.mem_singleton.1 hk)]
  eviction := evictVictim_eviction h victim
  used := (evictVictim_used h victim).trans_le (Nat.sub_le _ _)
  heapPeak := by
    have hpeak : (s.selectVictim env).2.heapPeak = s.heapPeak := by rw [selectVictim_frame]
    rwa [h] at hpeak

theorem noVictim (h : s.selectVictim env = (none, t)) : Thinned s [] t := by
  have hno : ∀ k, (s.selectVictim env).1 ≠ some k := fun k => by
    rw [h]
    nofun
  obtain rfl : (s.selectVictim env).2 = t := congrArg Prod.snd h
  have hframe := selectVictim_frame env s
  refine ⟨nofun, fun k => ?_, fun k => ?_, ?_, ?_, ?_⟩
  · rw [selectable_selectVictim (hno k)]
    simp
  · rw [selectVictim_store]
    simp
  all_goals rw [hframe]

/-- A key that could not be chosen is as it was. -/
theorem kept (h : Thinned s keys s') (hk : ¬ Selectable s k) :
    s'.store.lookup k = s.store.lookup k := by
  rw [h.lookup, if_neg fun hmem => hk (h.chosen k hmem)]

end Thinned

theorem Evicts.thinned {keys : List Key}
    (h : Evicts env incoming s keys s') : Thinned s keys s' := by
  induction h with
  | done s => exact .refl s
  | next _ chosen _ _ ih => exact (Thinned.evictVictim chosen).trans ih

theorem enforceMemoryLimit_of_fits {s : KvEngine}
    (h : s.fits incoming = true) : s.enforceMemoryLimit env incoming = (.ok (), s) := by
  unfold enforceMemoryLimit evictLoop
  simp only [h, if_true, ite_self]

/-- What an admission has evicted; where it is refused, nothing is left that could be chosen. -/
theorem enforceMemoryLimit_thinned (env : Env) (s : KvEngine) (incoming : ℕ) :
    ∃ keys, Thinned s keys (s.enforceMemoryLimit env incoming).2
      ∧ ((s.enforceMemoryLimit env incoming).1 = .ok () → s.eviction.maxMemory ≠ 0 →
        (s.enforceMemoryLimit env incoming).2.fits incoming = true)
      ∧ ∀ e, (s.enforceMemoryLimit env incoming).1 = .error e →
        ∀ k, ¬ Selectable (s.enforceMemoryLimit env incoming).2 k := by
  by_cases hmax : s.eviction.maxMemory = 0
  · have hr : s.enforceMemoryLimit env incoming = (.ok (), s) := if_pos hmax
    rw [hr]
    exact ⟨[], .refl s, fun _ hne => absurd hmax hne, fun _ he => by cases he⟩
  by_cases hfit : s.fits incoming = true
  · rw [enforceMemoryLimit_of_fits hfit]
    exact ⟨[], .refl s, fun _ _ => hfit, fun _ he => by cases he⟩
  by_cases hpol : s.eviction.policy = .noEviction
  · have hr : s.enforceMemoryLimit env incoming = (.error .outOfMemory, s) := by
      unfold enforceMemoryLimit evictLoop
      rw [if_neg hmax, if_neg hfit, if_pos hpol]
    rw [hr]
    refine ⟨[], .refl s, (by cases ·), fun _ _ k hk => ?_⟩
    have hoff := hk.2
    unfold Offered at hoff
    rwa [hpol] at hoff
  obtain ⟨keys, s', hrun, ⟨hr, hfit⟩ | ⟨t, hr, hv, -⟩⟩ :=
    enforceMemoryLimit_end env incoming hmax hpol
  · rw [hr]
    exact ⟨keys, hrun.thinned, fun _ _ => hfit, fun _ he => by cases he⟩
  · rw [hr]
    exact ⟨keys ++ [], hrun.thinned.trans (.noVictim hv), (by cases ·),
      fun _ _ => not_selectable_of_none hv⟩

end FerrumKv
