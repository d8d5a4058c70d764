import FerrumKv.Engine
import FerrumKv.Proofs.Sieve

/-!
# The victim of an eviction round

Choosing a victim changes nothing but the indexes (`selectVictim_frame`), and whatever the policy,
the victim is a stored key whose entry is in the policy's scope (`selectVictim_spec`). A sample of
all entries makes the victim the key with the oldest stamp (`selectVictim_oldest`) or with the
earliest deadline (`selectVictim_earliest`), as the policy asks.
-/

namespace FerrumKv

open KvEngine

variable {scope : EvictionScope} {store : Store} {key : Key}

def InScope (store : Store) (scope : EvictionScope) (key : Key) : Prop :=
  ∃ e, store.lookup key = some e ∧ scope.admits e = true

theorem eligible_iff :
    SieveState.eligible store scope key = true ↔ InScope store scope key := by
  unfold SieveState.eligible InScope
  cases store.lookup key <;> simp

theorem pickBy_mem {α : Type*} {beats : α → α → Bool} :
    ∀ {l : List α} {a : α}, pickBy beats l = some a → a ∈ l
  | [], _, h => by cases h
  | x :: l, a, h => by
    unfold pickBy at h
    split at h
    · rw [Option.some.injEq] at h
      subst h
      exact List.mem_cons_self
    · rename_i b hb
      split_ifs at h
      · rw [Option.some.injEq] at h
        subst h
        exact List.mem_cons_of_mem _ (pickBy_mem hb)
      · rw [Option.some.injEq] at h
        subst h
        exact List.mem_cons_self

theorem pickBy_least {α : Type*} (f : α → ℕ) :
    ∀ {l : List α} {a : α}, pickBy (fun b a => decide (f b < f a)) l = some a → ∀ x ∈ l, f a ≤ f x
  | [], _, h => by cases h
  | y :: l, a, h => by
    unfold pickBy at h
    split at h
    · rename_i hl
      rw [Option.some.injEq] at h
      subst h
      have hnil : l = [] := by
        rcases l with _ | ⟨z, l⟩
        · rfl
        · unfold pickBy at hl
          split at hl
          · cases hl
          · split_ifs at hl
      simp [hnil]
    · rename_i b hb
      have ih := pickBy_least f hb
      intro x hx
      split_ifs at h with hlt
      · rw [Option.some.injEq] at h
        subst h
        rcases List.mem_cons.1 hx with rfl | hx
        · exact (of_decide_eq_true hlt).le
        · exact ih x hx
      · rw [Option.some.injEq] at h
        subst h
        rcases List.mem_cons.1 hx with rfl | hx
        · exact le_rfl
        · exact (not_lt.1 fun h => hlt (decide_eq_true h)).trans (ih x hx)

def Candidate.ofEntry (key : Key) (e : ValueEntry) : Candidate :=
  ⟨key, e.lastAccessNs, e.expireAt, e.lfuCounter⟩

theorem admits_iff_not_skipped {e : ValueEntry} :
    scope.admits e = true ↔ ¬ (scope = .volatile ∧ e.expireAt = none) := by
  cases scope <;> simp [EvictionScope.admits, Option.isSome_iff_ne_none]

theorem sampleCandidates_mem :
    ∀ {n : ℕ} {entries : List (Σ _ : Key, ValueEntry)} {c : Candidate},
      c ∈ sampleCandidates scope n entries →
      ∃ key e, ⟨key, e⟩ ∈ entries ∧ scope.admits e = true ∧ c = .ofEntry key e
  | 0, _, _, h => by simp [sampleCandidates] at h
  | _ + 1, [], _, h => by simp [sampleCandidates] at h
  | n + 1, ⟨key, entry⟩ :: rest, c, h => by
    unfold sampleCandidates at h
    split_ifs at h with hskip
    · obtain ⟨k, e, he, ha⟩ := sampleCandidates_mem h
      exact ⟨k, e, List.mem_cons_of_mem _ he, ha⟩
    · rcases List.mem_cons.1 h with rfl | h
      · exact ⟨key, entry, List.mem_cons_self, admits_iff_not_skipped.2 hskip, rfl⟩
      · obtain ⟨k, e, he, ha⟩ := sampleCandidates_mem h
        exact ⟨k, e, List.mem_cons_of_mem _ he, ha⟩

/-- A sample as large as the list misses no entry in scope. -/
theorem mem_sampleCandidates {e : ValueEntry} (ha : scope.admits e = true) :
    ∀ {n : ℕ} {entries : List (Σ _ : Key, ValueEntry)}, entries.length ≤ n →
      ⟨key, e⟩ ∈ entries → Candidate.ofEntry key e ∈ sampleCandidates scope n entries
  | 0, [], _, h => by cases h
  | _ + 1, [], _, h => by cases h
  | n + 1, ⟨k, entry⟩ :: rest, hn, h => by
    have hrest : rest.length ≤ n := by simpa using hn
    unfold sampleCandidates
    rcases List.mem_cons.1 h with heq | h
    · cases heq
      rw [if_neg (admits_iff_not_skipped.1 ha)]
      exact List.mem_cons_self
    · split_ifs
      · exact mem_sampleCandidates ha (by omega) h
      · exact List.mem_cons_of_mem _ (mem_sampleCandidates ha hrest h)

theorem pickVictim_mem {policy : EvictionPolicy} {candidates : List Candidate} {c : Candidate}
    (h : pickVictim policy candidates = some c) : c ∈ candidates := by
  unfold pickVictim at h
  split at h
  · exact List.mem_of_head? h
  · exact List.mem_of_head? h
  · exact pickBy_mem h
  · exact pickBy_mem h
  · exact pickBy_mem h
  · exact pickBy_mem h
  · exact List.mem_of_mem_filter (pickBy_mem h)
  · cases h

theorem inScope_of_sampled {env : Env} {n : ℕ}
    {c : Candidate} (h : c ∈ sampleCandidates scope n (env.iter store)) :
    InScope store scope c.key := by
  obtain ⟨key, e, he, ha, rfl⟩ := sampleCandidates_mem h
  exact ⟨e, AList.mem_lookup_iff.2 ((env.iter_perm store).mem_iff.1 he), ha⟩

section Covering

variable {env : Env} {store : Store} {scope : EvictionScope} {n : ℕ}

theorem candidate_of_sampled {c : Candidate} (h : c ∈ sampleCandidates scope n (env.iter store)) :
    ∃ e, store.lookup c.key = some e ∧ c = .ofEntry c.key e := by
  obtain ⟨key, e, he, -, rfl⟩ := sampleCandidates_mem h
  exact ⟨e, AList.mem_lookup_iff.2 ((env.iter_perm store).mem_iff.1 he), rfl⟩

theorem sampled_of_lookup (hn : store.entries.length ≤ n) {e : ValueEntry}
    (he : store.lookup key = some e) (ha : scope.admits e = true) :
    Candidate.ofEntry key e ∈ sampleCandidates scope n (env.iter store) := by
  refine mem_sampleCandidates ha ?_ ((env.iter_perm store).mem_iff.2 (AList.mem_lookup_iff.1 he))
  rw [(env.iter_perm store).length_eq]
  exact hn

end Covering

theorem SieveState.evictLoop_spec {demote : ValueEntry → Bool} {looks : ℕ} {s : SieveState}
    (h : (evictLoop store scope demote looks s).1 = some key) : InScope store scope key := by
  refine evictLoop_rule (R := fun _ r => r.1 = some key → InScope store scope key)
    (fun _ h => by cases h) (fun _ _ h => h) (fun _ _ _ _ _ _ h => h)
    (fun _ key' _ _ helig _ hkey => ?_) (fun _ _ _ _ _ _ _ h => h) looks s h
  rw [← Option.some.inj hkey]
  exact eligible_iff.1 helig

theorem SieveState.evictOne_spec {s : SieveState} {demote : ValueEntry → Bool}
    (h : (s.evictOne store scope demote).1 = some key) : InScope store scope key := by
  unfold evictOne at h
  split_ifs at h
  exact evictLoop_spec h

theorem AdaptiveClimbState.evictOne_spec {s : AdaptiveClimbState}
    (h : (s.evictOne store scope).1 = some key) :
    InScope store scope key := by
  unfold evictOne at h
  split at h
  · rename_i k hk
    rw [Option.some.injEq] at h
    subst h
    exact eligible_iff.1 (List.find?_some hk)
  · cases h

/-- Choosing a victim changes nothing but the indexes. -/
theorem selectVictim_frame (env : Env) (s : KvEngine) :
    (s.selectVictim env).2
      = { s with sieve := (s.selectVictim env).2.sieve, ac := (s.selectVictim env).2.ac } := by
  unfold selectVictim
  simp only []
  cases s.eviction.policy <;> rfl

theorem selectVictim_store (env : Env) (s : KvEngine) :
    (s.selectVictim env).2.store = s.store := by
  rw [selectVictim_frame]

theorem selectVictim_aof (env : Env) (s : KvEngine) : (s.selectVictim env).2.aof = s.aof := by
  rw [selectVictim_frame]

theorem selectVictim_spec {env : Env} {s : KvEngine} {victim : Key}
    (h : (s.selectVictim env).1 = some victim) :
    InScope s.store s.eviction.policy.scope victim := by
  have hsampled : ∀ {o : Option Candidate} {scope : EvictionScope} {n : ℕ},
      (∀ c, o = some c → c ∈ sampleCandidates scope n (env.iter s.store)) →
      o.map (·.key) = some victim → InScope s.store scope victim := by
    intro o scope n ho hm
    obtain ⟨c, hc, rfl⟩ := Option.map_eq_some_iff.1 hm
    exact inScope_of_sampled (ho c hc)
  unfold selectVictim at h
  simp only [] at h
  split at h
  · exact hsampled (fun _ => pickBy_mem) h
  · exact hsampled (fun _ => pickBy_mem) h
  · exact SieveState.evictOne_spec h
  · exact SieveState.evictOne_spec h
  · exact SieveState.evictOne_spec h
  · exact SieveState.evictOne_spec h
  · exact AdaptiveClimbState.evictOne_spec h
  · exact AdaptiveClimbState.evictOne_spec h
  · exact hsampled (fun _ => pickVictim_mem) h

section Policies

variable {env : Env} {s : KvEngine} {victim : Key}

/-- Under an LRU policy a sample of all entries has the oldest stamp in scope. -/
theorem selectVictim_oldest (hn : s.store.entries.length ≤ s.eviction.samples)
    (hp : s.eviction.policy = .allKeysLru ∨ s.eviction.policy = .volatileLru)
    (h : (s.selectVictim env).1 = some victim) :
    ∃ e, s.store.lookup victim = some e
      ∧ ∀ k e', s.store.lookup k = some e' → s.eviction.policy.scope.admits e' = true →
        e.lastAccessNs ≤ e'.lastAccessNs := by
  have hpick : ∃ c, pickBy (fun b a => decide (b.lastAccess < a.lastAccess))
      (sampleCandidates s.eviction.policy.scope s.eviction.samples (env.iter s.store)) = some c
      ∧ c.key = victim := by
    rw [← Option.map_eq_some_iff, ← h]
    rcases hp with hp | hp <;> simp only [selectVictim, hp, pickVictim]
  obtain ⟨c, hc, rfl⟩ := hpick
  obtain ⟨e, he, hce⟩ := candidate_of_sampled (pickBy_mem hc)
  refine ⟨e, he, fun k e' he' ha => ?_⟩
  have hle := pickBy_least Candidate.lastAccess hc _ (sampled_of_lookup hn he' ha)
  rw [hce] at hle
  exact hle

theorem selectVictim_earliest (hn : s.store.entries.length ≤ s.eviction.samples)
    (hp : s.eviction.policy = .volatileTtl) (h : (s.selectVictim env).1 = some victim) :
    ∃ e d, s.store.lookup victim = some e ∧ e.expireAt = some d
      ∧ ∀ k e' d', s.store.lookup k = some e' → e'.expireAt = some d' → d ≤ d' := by
  simp only [selectVictim, hp, pickVictim] at h
  obtain ⟨c, hc, rfl⟩ := Option.map_eq_some_iff.1 h
  obtain ⟨hmem, hsome⟩ := List.mem_filter.1 (pickBy_mem hc)
  obtain ⟨e, he, hce⟩ := candidate_of_sampled hmem
  obtain ⟨d, hd⟩ := Option.isSome_iff_exists.1 hsome
  have hd' : e.expireAt = some d := by rw [← hd, hce]; rfl
  refine ⟨e, d, he, hd', fun k e' d' he' hk => ?_⟩
  have ha : EvictionPolicy.volatileTtl.scope.admits e' = true := by
    simp [EvictionPolicy.scope, EvictionScope.admits, hk]
  have hfilter : Candidate.ofEntry k e' ∈
      (sampleCandidates EvictionPolicy.volatileTtl.scope s.eviction.samples
        (env.iter s.store)).filter (·.expireAt.isSome) :=
    List.mem_filter.2 ⟨sampled_of_lookup hn he' ha, by simp [Candidate.ofEntry, hk]⟩
  have hle := pickBy_least (fun c => c.expireAt.getD 0) hc _ hfilter
  simpa [Candidate.ofEntry, hd, hk] using hle

end Policies

end FerrumKv
