import FerrumKv.Proofs.Mirror

/-!
# The keys that a policy can evict

`Selectable` says on a state alone which keys the eviction may choose: stored keys in scope, queued
where the policy keeps a queue. A round finds a victim just when there is one, its victim is one of
them, and the others stay selectable (`selectable_evictVictim`). So whatever victims an admission
chooses, they are selectable in the state it starts from, and one that is refused has taken them all.
-/

namespace FerrumKv

open KvEngine

/-- What the policy asks beside the scope: that its queue holds the key, or, where it samples the
store, that it takes a sample. -/
def Offered (s : KvEngine) (key : Key) : Prop :=
  match s.eviction.policy with
  | .noEviction => False
  | .allKeysSieve | .volatileSieve | .allKeysSieveS | .volatileSieveS => key ∈ s.sieve.queue.keys
  | .allKeysAdaptiveClimb | .volatileAdaptiveClimb => key ∈ s.ac.queue.keys
  | _ => 1 ≤ s.eviction.samples

/-- The policy can choose the key as a victim. -/
def Selectable (s : KvEngine) (key : Key) : Prop :=
  InScope s.store s.eviction.policy.scope key ∧ Offered s key

theorem not_selectable_of_absent {s : KvEngine} {key : Key} (h : s.store.lookup key = none) :
    ¬ Selectable s key := by
  rintro ⟨⟨e, he, -⟩, -⟩
  rw [h] at he
  cases he

theorem pickBy_ne_none {α : Type*} (beats : α → α → Bool) :
    ∀ {l : List α}, l ≠ [] → pickBy beats l ≠ none
  | [], h => absurd rfl h
  | _ :: _, _ => by
    unfold pickBy
    split
    · exact Option.some_ne_none _
    · split_ifs <;> exact Option.some_ne_none _

theorem sampleCandidates_ne_nil {scope : EvictionScope} {n : ℕ} (hn : 1 ≤ n) {key : Key}
    {e : ValueEntry} (ha : scope.admits e = true) :
    ∀ {entries : List (Σ _ : Key, ValueEntry)}, ⟨key, e⟩ ∈ entries →
      sampleCandidates scope n entries ≠ []
  | [], h => absurd h List.not_mem_nil
  | ⟨k, entry⟩ :: rest, h => by
    obtain ⟨m, rfl⟩ : ∃ m, n = m + 1 := ⟨n - 1, by omega⟩
    unfold sampleCandidates
    split_ifs with hskip
    · rcases List.mem_cons.1 h with heq | h
      · cases heq
        exact absurd hskip (admits_iff_not_skipped.1 ha)
      · exact sampleCandidates_ne_nil hn ha h
    · exact List.cons_ne_nil _ _

/-- A sample of volatile entries has deadlines only, so the policy by deadline drops none of it. -/
theorem filter_volatile (n : ℕ) (entries : List (Σ _ : Key, ValueEntry)) :
    (sampleCandidates .volatile n entries).filter (·.expireAt.isSome)
      = sampleCandidates .volatile n entries := by
  refine List.filter_eq_self.2 fun c hc => ?_
  obtain ⟨key, e, -, ha, rfl⟩ := sampleCandidates_mem hc
  exact ha

theorem sampleCandidates_zero (scope : EvictionScope) (entries : List (Σ _ : Key, ValueEntry)) :
    sampleCandidates scope 0 entries = [] := by
  unfold sampleCandidates
  rfl

namespace SieveState

variable {store : Store} {scope : EvictionScope} {demote : ValueEntry → Bool}

/-- The queued keys the sweep passes at first: those not eligible, which it takes out, and the visited
ones, whose bit it clears. -/
def passed (store : Store) (scope : EvictionScope) (s : SieveState) : List (Key × Bool) :=
  s.queue.entries.filter fun e => !eligible store scope e.1 || e.2

theorem passed_lt {s s' : SieveState} {key : Key} {visited : Bool}
    (hmem : (key, visited) ∈ s.queue.entries)
    (hpass : (!eligible store scope key || visited) = true)
    (h : passed store scope s' = (passed store scope s).filter fun e => e.1 ≠ key) :
    (passed store scope s').length < (passed store scope s).length := by
  rw [h]
  refine List.length_filter_lt_length_iff_exists.2 ⟨(key, visited), ?_, by simp⟩
  exact List.mem_filter.2 ⟨hmem, hpass⟩

theorem passed_shiftRemove (s : SieveState) (key : Key) :
    passed store scope { s with queue := s.queue.shiftRemove key }
      = (passed store scope s).filter fun e => e.1 ≠ key :=
  List.filter_comm _ _ _

theorem passed_clear (s : SieveState) {key : Key} (he : eligible store scope key = true) (hand : ℕ) :
    passed store scope { s with queue := s.queue.modify key fun _ => false, hand := hand }
      = (passed store scope s).filter fun e => e.1 ≠ key := by
  unfold passed IndexMap.modify
  simp only [List.filter_filter]
  induction s.queue.entries with
  | nil => rfl
  | cons e l ih =>
    rw [List.map_cons, List.filter_cons, List.filter_cons, ih]
    by_cases hk : e.1 = key
    · simp [hk, he]
    · simp [hk]

theorem passed_wrapped (s : SieveState) : passed store scope s.wrapped = passed store scope s := by
  unfold passed
  rw [wrapped_queue]

theorem evictLoop_finds {x : Key} (hx : InScope store scope x) :
    ∀ (looks : ℕ) (s : SieveState), x ∈ s.queue.keys → (passed store scope s).length < looks →
      (evictLoop store scope demote looks s).1 ≠ none
  | 0, _, _, h => absurd h (Nat.not_lt_zero _)
  | looks + 1, s, hmem, hlt => by
    rw [evictLoop_succ, ← wrapped_queue s]
    rw [← passed_wrapped] at hlt
    rw [← wrapped_queue s] at hmem
    have hhand := s.wrapped_handOk
    generalize s.wrapped = s' at hlt hmem hhand ⊢
    obtain hnone | ⟨⟨key, visited⟩, hget⟩ :=
      Option.eq_none_or_eq_some (s'.queue.getIndex? s'.hand)
    · have hlen : s'.queue.length ≤ s'.hand := List.getElem?_eq_none_iff.1 hnone
      rcases hhand with h | ⟨hzero, -⟩
      · omega
      · rw [IndexMap.eq_empty hzero, IndexMap.keys_empty] at hmem
        cases hmem
    have hqueued : (key, visited) ∈ s'.queue.entries := List.mem_of_getElem? hget
    rw [hget]
    simp only []
    split_ifs with helig hripe
    · have hne : x ≠ key := by
        rintro rfl
        rw [eligible_iff.2 hx] at helig
        cases helig
      have hless : (passed store scope { s' with queue := s'.queue.shiftRemove key }).length
          < (passed store scope s').length :=
        passed_lt hqueued (by simp [helig]) (passed_shiftRemove s' key)
      exact evictLoop_finds hx looks _ (by simpa using ⟨hne, hmem⟩) (by omega)
    · exact Option.some_ne_none _
    · have hv : visited = true := by
        by_contra hv
        exact hripe (by simp [ripe, hv])
      have hless := passed_lt hqueued (by simp [hv])
        (passed_clear s' (by simpa using helig) (s'.hand + 1))
      exact evictLoop_finds hx looks _ (by simpa using hmem) (by omega)

theorem evictOne_finds {s : SieveState} {x : Key} (hx : InScope store scope x)
    (hmem : x ∈ s.queue.keys) : (s.evictOne store scope demote).1 ≠ none := by
  have hle : (passed store scope s).length ≤ s.queue.length := List.length_filter_le _ _
  unfold evictOne
  split_ifs with hlen
  · have hnil := List.length_eq_zero_iff.1 hlen
    unfold IndexMap.keys at hmem
    rw [hnil] at hmem
    cases hmem
  · exact evictLoop_finds hx _ s hmem (by omega)

theorem evictLoop_keeps {x : Key} (hx : InScope store scope x) (looks : ℕ) (s : SieveState)
    (hmem : x ∈ s.queue.keys) (hv : (evictLoop store scope demote looks s).1 ≠ some x) :
    x ∈ (evictLoop store scope demote looks s).2.queue.keys := by
  refine evictLoop_rule (R := fun s r => x ∈ s.queue.keys → r.1 ≠ some x → x ∈ r.2.queue.keys)
    (fun _ h _ => h) (fun s r h => ?_) (fun s key _ r _ helig h hmem => h ?_)
    (fun s key _ _ _ _ hmem hne => ?_) (fun s key _ r _ _ _ h => ?_) looks s hmem hv
  · rwa [wrapped_queue] at h
  · refine (IndexMap.mem_keys_shiftRemove _ _).2 ⟨?_, hmem⟩
    rintro rfl
    rw [eligible_iff.2 hx] at helig
    cases helig
  · rw [wrapped_queue]
    exact (IndexMap.mem_keys_shiftRemove _ _).2 ⟨fun h => hne (congrArg some h.symm), hmem⟩
  · rwa [IndexMap.keys_modify] at h

theorem evictOne_keeps {s : SieveState} {x : Key} (hx : InScope store scope x)
    (hmem : x ∈ s.queue.keys) (hv : (s.evictOne store scope demote).1 ≠ some x) :
    x ∈ (s.evictOne store scope demote).2.queue.keys := by
  unfold evictOne at hv ⊢
  split_ifs at hv ⊢
  · exact hmem
  · exact evictLoop_keeps hx _ s hmem hv

theorem evictOne_queued {s : SieveState} {key : Key}
    (h : (s.evictOne store scope demote).1 = some key) : key ∈ s.queue.keys := by
  unfold evictOne at h
  split_ifs at h
  refine evictLoop_rule (R := fun s r => r.1 = some key → key ∈ s.queue.keys)
    (fun _ h => by cases h) (fun s _ h hr => wrapped_queue s ▸ h hr)
    (fun _ _ _ _ _ _ h hr => ((IndexMap.mem_keys_shiftRemove _ _).1 (h hr)).2)
    (fun _ _ _ hget _ _ hr => Option.some.inj hr ▸ IndexMap.getIndex?_mem hget)
    (fun _ _ _ _ _ _ _ h hr => by simpa using h hr) _ s h

end SieveState

theorem AdaptiveClimbState.evictOne_queued {store : Store} {scope : EvictionScope}
    {s : AdaptiveClimbState} {key : Key} (h : (s.evictOne store scope).1 = some key) :
    key ∈ s.queue.keys := by
  unfold evictOne at h
  split at h
  · rename_i hfind
    exact Option.some.inj h ▸ List.mem_reverse.1 (List.mem_of_find?_eq_some hfind)
  · cases h

theorem AdaptiveClimbState.evictOne_finds {store : Store} {scope : EvictionScope}
    {s : AdaptiveClimbState} {x : Key} (hx : InScope store scope x) (hmem : x ∈ s.queue.keys) :
    (s.evictOne store scope).1 ≠ none := by
  unfold evictOne
  split
  · exact Option.some_ne_none _
  · rename_i hnone
    exact absurd (eligible_iff.2 hx)
      (List.find?_eq_none.1 hnone x (List.mem_reverse.2 hmem))

section Round

variable {env : Env} {s t : KvEngine} {x victim : Key}

theorem selectable_of_chosen (h : (s.selectVictim env).1 = some victim) : Selectable s victim := by
  refine ⟨selectVictim_spec h, ?_⟩
  unfold selectVictim at h
  unfold Offered
  have hsamples : ∀ {pick : List Candidate → Option Candidate},
      ((pick (sampleCandidates s.eviction.policy.scope s.eviction.samples (env.iter s.store))).map
        (·.key)) = some victim → pick [] = none → 1 ≤ s.eviction.samples := by
    intro pick hp hnil
    by_contra hn
    rw [show s.eviction.samples = 0 by omega, sampleCandidates_zero, hnil] at hp
    cases hp
  simp only [] at h
  cases hp : s.eviction.policy <;> simp only [hp] at h hsamples ⊢
  case noEviction => cases h
  case allKeysSieve | volatileSieve | allKeysSieveS | volatileSieveS =>
    exact SieveState.evictOne_queued h
  case allKeysAdaptiveClimb | volatileAdaptiveClimb => exact AdaptiveClimbState.evictOne_queued h
  case allKeysAhe | volatileAhe => exact hsamples h rfl
  all_goals exact @hsamples (pickVictim _) h rfl

/-- While a key can be chosen, one is. -/
theorem selectVictim_ne_none (h : Selectable s x) : (s.selectVictim env).1 ≠ none := by
  obtain ⟨hx, hoff⟩ := h
  obtain ⟨e, he, ha⟩ := hx
  have hsample : 1 ≤ s.eviction.samples →
      sampleCandidates s.eviction.policy.scope s.eviction.samples (env.iter s.store) ≠ [] :=
    fun hn => sampleCandidates_ne_nil hn ha
      ((env.iter_perm s.store).mem_iff.2 (AList.mem_lookup_iff.1 he))
  unfold Offered at hoff
  unfold selectVictim
  simp only []
  cases hp : s.eviction.policy <;> simp only [hp] at hoff hsample ha ⊢
  case allKeysSieve | volatileSieve | allKeysSieveS | volatileSieveS =>
    exact SieveState.evictOne_finds ⟨e, he, by rw [hp]; exact ha⟩ hoff
  case allKeysAdaptiveClimb | volatileAdaptiveClimb =>
    exact AdaptiveClimbState.evictOne_finds ⟨e, he, by rw [hp]; exact ha⟩ hoff
  case allKeysRandom | volatileRandom => simpa [pickVictim] using hsample hoff
  case volatileTtl =>
    have hpick := pickBy_ne_none
      (fun b a : Candidate => decide (b.expireAt.getD 0 < a.expireAt.getD 0)) (hsample hoff)
    rw [EvictionPolicy.scope, ← filter_volatile] at hpick
    simpa [pickVictim, EvictionPolicy.scope] using hpick
  all_goals
    simpa [pickVictimAhe, pickVictim] using pickBy_ne_none _ (hsample hoff)

theorem offered_selectVictim (hx : InScope s.store s.eviction.policy.scope x)
    (hne : (s.selectVictim env).1 ≠ some x) : Offered (s.selectVictim env).2 x ↔ Offered s x := by
  have hev : (s.selectVictim env).2.eviction = s.eviction := by rw [selectVictim_frame]
  unfold Offered
  rw [hev]
  unfold selectVictim at hne ⊢
  simp only [] at hne ⊢
  cases hp : s.eviction.policy <;> simp only [hp] at hx hne ⊢
  case allKeysSieve | volatileSieve | allKeysSieveS | volatileSieveS =>
    exact ⟨fun h => (SieveState.evictOne_keys s.sieve).subset h,
      fun h => SieveState.evictOne_keeps (by rwa [hp]) h hne⟩
  case allKeysAdaptiveClimb | volatileAdaptiveClimb =>
    exact (AdaptiveClimbState.mem_keys_evictOne s.ac).trans (and_iff_right hne)

/-- A key that is removed can be chosen no more, and nothing changes for the others. -/
theorem selectable_trackRemove (s : KvEngine) (key x : Key) :
    Selectable (s.trackRemove key) x ↔ x ≠ key ∧ Selectable s x := by
  have hqueues : x ≠ key → ((x ∈ (s.trackRemove key).sieve.queue.keys ↔ x ∈ s.sieve.queue.keys)
      ∧ (x ∈ (s.trackRemove key).ac.queue.keys ↔ x ∈ s.ac.queue.keys)) := by
    intro hne
    have hsieve := @SieveState.mem_keys_observeRemove s.sieve key x
    have hac := @AdaptiveClimbState.mem_keys_observeRemove s.ac key x
    constructor
    · change x ∈ (if s.indexKind.isSieve then s.sieve.observeRemove key else s.sieve).queue.keys ↔ _
      split_ifs
      · exact hsieve.trans (and_iff_right hne)
      · rfl
    · change x ∈ (if s.indexKind.isAc then s.ac.observeRemove key else s.ac).queue.keys ↔ _
      split_ifs
      · exact hac.trans (and_iff_right hne)
      · rfl
  have hoff : x ≠ key → (Offered (s.trackRemove key) x ↔ Offered s x) := by
    intro hne
    have hev : (s.trackRemove key).eviction = s.eviction := rfl
    unfold Offered
    simp only [hev, hqueues hne]
  constructor
  · rintro ⟨hx, ho⟩
    obtain ⟨hne, hx⟩ := inScope_erase.1 hx
    exact ⟨hne, hx, (hoff hne).1 ho⟩
  · rintro ⟨hne, hx, ho⟩
    exact ⟨inScope_erase.2 ⟨hne, hx⟩, (hoff hne).2 ho⟩

theorem selectable_selectVictim (hne : (s.selectVictim env).1 ≠ some x) :
    Selectable (s.selectVictim env).2 x ↔ Selectable s x := by
  have hst := selectVictim_store env s
  have hev : (s.selectVictim env).2.eviction = s.eviction := by rw [selectVictim_frame]
  unfold Selectable
  rw [hst, hev]
  exact and_congr_right fun hx => offered_selectVictim hx hne

/-- A round that finds no victim leaves none to be found. -/
theorem not_selectable_of_none (h : s.selectVictim env = (none, t)) (x : Key) :
    ¬ Selectable t x := by
  have hfst : (s.selectVictim env).1 = none := congrArg Prod.fst h
  intro hx
  rw [← show (s.selectVictim env).2 = t from congrArg Prod.snd h,
    selectable_selectVictim (by rw [hfst]; nofun)] at hx
  exact selectVictim_ne_none hx hfst

/-- A round makes its victim unselectable and no other key, and no key selectable. -/
theorem selectable_evictVictim (h : s.selectVictim env = (some victim, t)) (x : Key) :
    Selectable (t.evictVictim victim) x ↔ x ≠ victim ∧ Selectable s x := by
  have hfst : (s.selectVictim env).1 = some victim := congrArg Prod.fst h
  have ht : (s.selectVictim env).2 = t := congrArg Prod.snd h
  refine (selectable_trackRemove t victim x).trans (and_congr_right fun hne => ?_)
  rw [← ht]
  refine selectable_selectVictim ?_
  rw [hfst]
  exact fun heq => hne (Option.some.inj heq).symm

end Round

end FerrumKv
