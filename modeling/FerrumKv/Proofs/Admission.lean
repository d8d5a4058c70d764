import FerrumKv.Proofs.EvictionLoop
import FerrumKv.Proofs.Memory
import FerrumKv.Proofs.Quiet

/-!
# When an all-keys policy admits a write

Under an all-keys policy a write that fits an empty store can always be admitted, as long as every
stored key can be chosen. Under the sampled policies every one can; under SIEVE and AdaptiveClimb
while their queue covers the stored keys (`Covered`), which every command keeps but a `PERSIST` that
clears a deadline (`KeepsQueued`). So in a run without one, a `SET` that fits alone is answered, and
nothing in it panics as long as the sample can be reserved (`allKeys_set_admitted`).
-/

namespace FerrumKv

open KvEngine

namespace IndexView

/-- Where the index is in use, it was built for the scope and holds every stored key in scope. -/
def Covers (store : Store) (scope : EvictionScope) (v : IndexView) : Prop :=
  v.active = true → v.scope = scope ∧ ∀ k, InScope store scope k → k ∈ v.keys

section Covers

variable {store store' : Store} {scope : EvictionScope} {key : Key} {v v' : IndexView}

theorem Covers.inserted (h : Covers store scope v) {e : ValueEntry}
    (hv : Inserted key e.expireAt.isSome v v') : Covers (store.insert key e) scope v' := by
  intro ha
  rw [hv.active] at ha
  obtain ⟨hscope, hkeys⟩ := h ha
  refine ⟨hv.scope.trans hscope, fun k hk => (hv.keys ha k).2 ?_⟩
  rcases inScope_insert.1 hk with ⟨rfl, hadm⟩ | ⟨hne, hin⟩
  · exact .inl ⟨rfl, hscope ▸ admits_iff.1 hadm⟩
  · exact .inr ⟨hne, hkeys k hin⟩

theorem Covers.removed (h : Covers store scope v) (hv : Removed key v v') :
    Covers (store.erase key) scope v' := by
  intro ha
  rw [hv.active] at ha
  obtain ⟨hscope, hkeys⟩ := h ha
  refine ⟨hv.scope.trans hscope, fun k hk => (hv.keys ha k).2 ?_⟩
  obtain ⟨hne, hin⟩ := inScope_erase.1 hk
  exact ⟨hne, hkeys k hin⟩

theorem Covers.reordered (h : Covers store scope v) (hv : Reordered v v') :
    Covers store scope v' := by
  intro ha
  obtain ⟨hscope, hkeys⟩ := h (hv.active ▸ ha)
  exact ⟨hv.scope.trans hscope, fun k hk => (hv.keys k).2 (hkeys k hk)⟩

theorem Covers.mono (h : Covers store scope v)
    (hst : ∀ k, InScope store' scope k → InScope store scope k) : Covers store' scope v := by
  intro ha
  obtain ⟨hscope, hkeys⟩ := h ha
  exact ⟨hscope, fun k hk => hkeys k (hst k hk)⟩

/-- The view `v₁` keeps every key in scope but the dropped one. -/
structure Keeps (store : Store) (scope : EvictionScope) (dropped : Option Key)
    (v v₁ : IndexView) : Prop where
  active : v₁.active = v.active
  scope_eq : v₁.scope = v.scope
  keys : ∀ x, InScope store scope x → dropped ≠ some x → x ∈ v.keys → x ∈ v₁.keys

theorem Covers.kept {v₁ : IndexView} (h : Covers store scope v) (hv : Keeps store scope none v v₁) :
    Covers store scope v₁ := by
  intro ha
  obtain ⟨hscope, hkeys⟩ := h (hv.active ▸ ha)
  exact ⟨hv.scope_eq.trans hscope, fun k hk => hv.keys k hk (by simp) (hkeys k hk)⟩

theorem Covers.dropped {v₁ : IndexView} (h : Covers store scope v)
    (hv : Keeps store scope (some key) v v₁) (hr : Removed key v₁ v') :
    Covers (store.erase key) scope v' := by
  intro ha
  rw [hr.active] at ha
  obtain ⟨hscope, hkeys⟩ := h (hv.active ▸ ha)
  refine ⟨hr.scope.trans (hv.scope_eq.trans hscope), fun k hk => (hr.keys ha k).2 ?_⟩
  obtain ⟨hne, hin⟩ := inScope_erase.1 hk
  exact ⟨hne, hv.keys k hin (by simpa using Ne.symm hne) (hkeys k hin)⟩

theorem covers_idle (ha : v.active = false) : Covers store scope v := by
  intro hact
  rw [ha] at hact
  cases hact

theorem Good.covers (h : Good store scope v) : Covers store scope v :=
  fun ha => ⟨h.2 ha, fun k hk => (h.tracks ha k).2 hk⟩

end Covers

end IndexView

open IndexView

/-- The index in use is that of the policy and holds every stored key in scope. -/
structure Covered (s : KvEngine) : Prop where
  kind : s.indexKind = s.eviction.policy.indexKind
  sieve : Covers s.store s.eviction.policy.scope (sieveView s)
  ac : Covers s.store s.eviction.policy.scope (acView s)

theorem Indexed.covered {s : KvEngine} (h : Indexed s) : Covered s :=
  ⟨h.kind, h.sieve.covers, h.ac.covers⟩

/-- Whether a command leaves every key in scope in the queue: it is not a `PERSIST` that clears a
deadline where a queue is in use for all keys. -/
def KeepsQueued (env : Env) (s : KvEngine) : Command → Prop
  | .persist key =>
    s.eviction.policy.indexKind ≠ .none → s.eviction.policy.scope = .allKeys →
      ∀ e, s.store.lookup key = some e → e.isExpired env.now = false → e.expireAt = none
  | _ => True

/-- The index in use was built for the scope of its kind and holds every stored key in scope. -/
structure Queued (s : KvEngine) : Prop where
  sieve : Covers s.store s.indexKind.scope (sieveView s)
  ac : Covers s.store s.indexKind.scope (acView s)

/-- A sweep of the SIEVE queue does not look for fewer keys than the queue was built for. -/
def ScanFits (s : KvEngine) : Prop :=
  s.eviction.policy.indexKind.isSieve = true → s.indexKind.isSieve = true →
    s.eviction.policy.scope = .volatile → s.indexKind.scope = .volatile

section Step

variable {s s' : KvEngine} {key : Key}

theorem KindOk.scope_eq (h : KindOk s) (hne : s.indexKind ≠ .none) :
    s.eviction.policy.scope = s.indexKind.scope := by
  unfold KindOk at h
  rw [h]
  exact scope_of_indexKind (h ▸ hne)

theorem KindOk.scanFits (h : KindOk s) : ScanFits s := by
  intro _ ha hv
  rw [← h.scope_eq (ne_none_of_isSieve ha)]
  exact hv

theorem covered_iff : Covered s ↔ KindOk s ∧ Queued s := by
  have hcongr : ∀ {v : IndexView}, (v.active = true → s.indexKind ≠ .none) → KindOk s →
      (Covers s.store s.eviction.policy.scope v ↔ Covers s.store s.indexKind.scope v) := by
    intro v hv hk
    refine imp_congr_right fun ha => ?_
    rw [hk.scope_eq (hv ha)]
  constructor
  · rintro ⟨hk, hsv, hac⟩
    exact ⟨hk, (hcongr ne_none_of_isSieve hk).1 hsv, (hcongr ne_none_of_isAc hk).1 hac⟩
  · rintro ⟨hk, hsv, hac⟩
    exact ⟨hk, (hcongr ne_none_of_isSieve hk).2 hsv, (hcongr ne_none_of_isAc hk).2 hac⟩

theorem Queued.of_eq (h : Queued s) (hk : s'.indexKind = s.indexKind) (hst : s'.store = s.store)
    (hsv : s'.sieve = s.sieve) (hac : s'.ac = s.ac) : Queued s' := by
  obtain ⟨h1, h2⟩ := h
  unfold sieveView at h1
  unfold acView at h2
  constructor
  · rw [hst, hk, sieveView, hk, hsv]
    exact h1
  · rw [hst, hk, acView, hk, hac]
    exact h2

theorem trackInsert_queued (h : Queued s) (key : Key) (e : ValueEntry) :
    Queued (s.trackInsert key e) := by
  obtain ⟨hsv, hac⟩ := notifyInsert_inserted s key e.expireAt.isSome
  exact ⟨h.sieve.inserted hsv, h.ac.inserted hac⟩

theorem trackRemove_queued (h : Queued s) (key : Key) : Queued (s.trackRemove key) := by
  obtain ⟨hsv, hac⟩ := notifyRemove_removed s key
  exact ⟨h.sieve.removed hsv, h.ac.removed hac⟩

theorem touchAccess_queued (h : Queued s) (r : AccessReading) (key : Key) :
    Queued (s.touchAccess r key) := by
  unfold touchAccess
  split
  · rename_i e he
    obtain ⟨hsv, hac⟩ := notifyAccess_reordered s key
    have hst : ∀ k, InScope (s.store.insert key (e.touch r)) s.indexKind.scope k →
        InScope s.store s.indexKind.scope k :=
      fun k => (inScope_insert_of_expireAt (e.touch r) he rfl k).1
    exact ⟨(h.sieve.mono hst).reordered hsv, (h.ac.mono hst).reordered hac⟩
  · exact h

theorem deadlined_queued (h : Queued s) (env : Env) {e : ValueEntry}
    (he : s.store.lookup key = some e) (absEpochMs : Int64) :
    Queued (deadlined env s key absEpochMs) := by
  obtain ⟨hsv, hac⟩ := notifyInsert_inserted s key true
  rw [deadlined, setDeadline_of_lookup _ he]
  exact ⟨h.sieve.inserted hsv, h.ac.inserted hac⟩

theorem clear_queued (h : Queued s) : Queued s.clear := by
  have hnone : ∀ (scope : EvictionScope) (k : Key), ¬ InScope ∅ scope k := by
    rintro scope k ⟨e, he, -⟩
    cases he
  exact ⟨fun ha => ⟨(h.sieve ha).1, fun k hk => absurd hk (hnone _ k)⟩,
    fun ha => ⟨(h.ac ha).1, fun k hk => absurd hk (hnone _ k)⟩⟩

theorem InScope.allKeys {store : Store} {scope : EvictionScope} {x : Key}
    (h : InScope store scope x) : InScope store .allKeys x := by
  obtain ⟨e, he, -⟩ := h
  exact ⟨e, he, rfl⟩

theorem ScanFits.inScope (h : ScanFits s) (hp : s.eviction.policy.indexKind.isSieve = true)
    (ha : s.indexKind.isSieve = true) {x : Key} (hx : InScope s.store s.indexKind.scope x) :
    InScope s.store s.eviction.policy.scope x := by
  cases hv : s.eviction.policy.scope with
  | allKeys => exact hx.allKeys
  | volatile =>
    rw [h hp ha hv] at hx
    exact hx

/-- The choice of a victim drops no other key in scope from the queue in use. -/
theorem selectVictim_keeps (env : Env) (hfit : ScanFits s) :
    (s.indexKind.isSieve = true → Keeps s.store s.indexKind.scope (s.selectVictim env).1
        (sieveView s) (sieveView (s.selectVictim env).2))
      ∧ Keeps s.store s.indexKind.scope (s.selectVictim env).1 (acView s)
        (acView (s.selectVictim env).2) := by
  have hkind : (s.selectVictim env).2.indexKind = s.indexKind := by rw [selectVictim_frame]
  obtain ⟨hss, has⟩ := selectVictim_scopes env s
  have hkeys : ∀ x, InScope s.store s.indexKind.scope x → (s.selectVictim env).1 ≠ some x →
      (s.indexKind.isSieve = true → x ∈ s.sieve.queue.keys →
          x ∈ (s.selectVictim env).2.sieve.queue.keys)
        ∧ (x ∈ s.ac.queue.keys → x ∈ (s.selectVictim env).2.ac.queue.keys) := by
    intro x hx
    have hin := fun hp ha => hfit.inScope (x := x) hp ha hx
    unfold selectVictim
    simp only []
    cases hp : s.eviction.policy <;> rw [hp] at hin <;> simp only []
    case allKeysSieve | volatileSieve | allKeysSieveS | volatileSieveS =>
      intro hne
      refine ⟨fun ha hmem => SieveState.evictOne_keeps ?_ hmem hne, id⟩
      rw [hp]
      exact hin rfl ha
    case allKeysAdaptiveClimb | volatileAdaptiveClimb =>
      exact fun hne =>
        ⟨fun _ => id, fun hmem => (AdaptiveClimbState.mem_keys_evictOne s.ac).2 ⟨hne, hmem⟩⟩
    all_goals exact fun _ => ⟨fun _ => id, id⟩
  refine ⟨fun ha => ⟨?_, hss, fun x hx hne => (hkeys x hx hne).1 ha⟩,
    ⟨?_, has, fun x hx hne => (hkeys x hx hne).2⟩⟩
  · simp only [sieveView, hkind]
  · simp only [acView, hkind]

theorem noVictim_queued (env : Env) (h : Queued s) (hfit : ScanFits s)
    (hv : (s.selectVictim env).1 = none) : Queued (s.selectVictim env).2 := by
  obtain ⟨hsv, hac⟩ := selectVictim_keeps env hfit
  rw [hv] at hsv hac
  have hkind : (s.selectVictim env).2.indexKind = s.indexKind := by rw [selectVictim_frame]
  have hsieve : Covers s.store s.indexKind.scope (sieveView (s.selectVictim env).2) := fun ha =>
    h.sieve.kept (hsv (hkind ▸ ha)) ha
  have hadapt := h.ac.kept hac
  rw [selectVictim_frame] at hsieve hadapt ⊢
  exact ⟨hsieve, hadapt⟩

theorem evictVictim_queued (env : Env) (h : Queued s) (hfit : ScanFits s) {victim : Key}
    (hv : (s.selectVictim env).1 = some victim) :
    Queued ((s.selectVictim env).2.evictVictim victim) := by
  obtain ⟨hsv, hac⟩ := selectVictim_keeps env hfit
  rw [hv] at hsv hac
  have hkind : (s.selectVictim env).2.indexKind = s.indexKind := by rw [selectVictim_frame]
  obtain ⟨hrs, hra⟩ := notifyRemove_removed (s.selectVictim env).2 victim
  have hsieve := fun ha => h.sieve.dropped (hsv (hkind ▸ ha)) hrs (hrs.active ▸ ha)
  have hadapt := h.ac.dropped hac hra
  rw [selectVictim_frame] at hsieve hadapt ⊢
  exact ⟨hsieve, hadapt⟩

theorem setEvictionConfig_queued (env : Env) (h : Queued s) (cfg : EvictionConfig) :
    Queued (s.setEvictionConfig env cfg) := by
  unfold setEvictionConfig
  simp only []
  by_cases hkind : cfg.policy.indexKind ≠ s.indexKind
  · rw [if_pos hkind]
    by_cases hsv : cfg.policy.indexKind.isSieve = true
    · rw [if_pos hsv]
      refine ⟨fun _ => ⟨scope_of_indexKind (ne_none_of_isSieve hsv), fun k hk => ?_⟩,
        covers_idle (isAc_of_isSieve hsv)⟩
      rw [← scope_of_indexKind (ne_none_of_isSieve hsv)] at hk
      exact SieveState.mem_keys_rebuild.2 hk
    · rw [if_neg hsv]
      by_cases hac : cfg.policy.indexKind.isAc = true
      · rw [if_pos hac]
        refine ⟨covers_idle (isSieve_of_isAc hac),
          fun _ => ⟨scope_of_indexKind (ne_none_of_isAc hac), fun k hk => ?_⟩⟩
        rw [← scope_of_indexKind (ne_none_of_isAc hac)] at hk
        exact AdaptiveClimbState.mem_keys_rebuild.2 hk
      · rw [if_neg hac]
        exact ⟨covers_idle (Bool.eq_false_iff.2 hsv), covers_idle (Bool.eq_false_iff.2 hac)⟩
  · rw [if_neg hkind]
    exact h.of_eq rfl rfl rfl rfl

/-- Where an index is in use for all keys, a `PERSIST` drops its key from it. -/
theorem persisted_queued (h : Queued s) {e : ValueEntry} (he : s.store.lookup key = some e)
    (hn : s.indexKind ≠ .none → s.indexKind.scope = .volatile) : Queued (persisted s key) := by
  obtain ⟨hrs, hra⟩ := notifyRemove_removed s key
  rw [persisted, setDeadline_of_lookup _ he]
  by_cases hnone : s.indexKind = .none
  · obtain ⟨hsv, hac⟩ := inactive_of_none hnone
    exact ⟨covers_idle (hrs.active.trans hsv), covers_idle (hra.active.trans hac)⟩
  · have hin : ∀ k, InScope (s.store.insert key { e with expireAt := none }) s.indexKind.scope k →
        InScope (s.store.erase key) s.indexKind.scope k := by
      rw [hn hnone]
      exact fun k => (inScope_insert_volatile rfl k).1
    exact ⟨(h.sieve.removed hrs).mono hin, (h.ac.removed hra).mono hin⟩

theorem discarded_queued (h : Queued s) (key : Key) (e : ValueEntry) :
    Queued (discarded s key e) :=
  have hin : ∀ k, InScope (s.store.erase key) s.indexKind.scope k →
      InScope s.store s.indexKind.scope k := fun _ hk => (inScope_erase.1 hk).2
  ⟨h.sieve.mono hin, h.ac.mono hin⟩

end Step

theorem Act.queued {env : Env} {cmd : Command} {s₀ a b : KvEngine} (hact : Act env cmd s₀ a b)
    (hn : KeepsQueued env s₀ cmd) (hk : KindOk a) (h : Queued a) : Queued b := by
  cases hact with
  | count => exact h.of_eq rfl rfl rfl rfl
  | touch _ r key => exact touchAccess_queued h r key
  | remove _ key _ => exact (trackRemove_queued h key).of_eq rfl rfl rfl rfl
  | forget _ key hx => exact trackRemove_queued h key
  | evict _ victim hv => exact evictVictim_queued env h hk.scanFits hv
  | noVictim _ hv => exact noVictim_queued env h hk.scanFits hv
  | write _ key value ttl r hv ht =>
    have hlog : Queued (a.appendAof (.set key value :: keepTtlRecords env key ttl)) :=
      h.of_eq rfl rfl rfl rfl
    exact trackInsert_queued hlog key _
  | flush => exact clear_queued h
  | config _ cfg => exact setEvictionConfig_queued env h cfg
  | deadline key absEpochMs e hc hl he hlt => exact deadlined_queued h env hl absEpochMs
  | persist key e hc hl he hd =>
    subst hc
    refine persisted_queued h hl fun hne => ?_
    rw [← hk.scope_eq hne]
    cases hs : s₀.eviction.policy.scope with
    | allKeys => exact absurd (hn (hk ▸ hne) hs e hl he) hd
    | volatile => rfl
  | discard key e hc hl hs he => exact discarded_queued h key e

theorem Act.covered {env : Env} {cmd : Command} {s₀ a b : KvEngine} (hact : Act env cmd s₀ a b)
    (hn : KeepsQueued env s₀ cmd) (h : Covered a) : Covered b := by
  obtain ⟨hk, hq⟩ := covered_iff.1 h
  exact covered_iff.2 ⟨hact.kindOk hk, hact.queued hn hk hq⟩

/-- In a run whose commands keep every key queued, the queue in use covers the stored keys. -/
theorem run_covered (aof : Option (List AofRecord)) {calls : List Call}
    (hn : ∀ n c, calls[n]? = some c →
      KeepsQueued c.env (run (startWith aof) (calls.take n)) c.cmd) :
    Covered (run (startWith aof) calls) := by
  have hall := Runs.forall_take (I := Covered) (indexed_startWith aof).covered
    (fun m c hc hi => (exec_acts c.env _ c.cmd).preserves
      (fun _ _ hact ha => hact.covered (hn m c hc) ha) hi) calls.length
  rwa [List.take_length] at hall

/-- Settings under which every stored key is in scope: an all-keys policy that evicts, with a sample
that is not empty and that `sample_candidates` can reserve. -/
structure Evicting (cfg : EvictionConfig) : Prop where
  scope : cfg.policy.scope = .allKeys
  evicts : cfg.policy ≠ .noEviction
  samples : 1 ≤ cfg.samples
  capacity : cfg.samples * candidateBytes ≤ Partial.maxAllocation

section Loop

variable {env : Env} {s s' : KvEngine} {incoming : ℕ} {keys : List Key} {k : Key} {e : ValueEntry}

/-- Every stored key can be chosen where the queue in use, if there is one, covers them. -/
theorem Evicting.selectable (h : Evicting s.eviction)
    (hcov : s.eviction.policy.indexKind ≠ .none → Covered s) (he : s.store.lookup k = some e) :
    Selectable s k := by
  have hin : InScope s.store s.eviction.policy.scope k := ⟨e, he, by rw [h.scope]; rfl⟩
  have hsieve : s.eviction.policy.indexKind.isSieve = true → k ∈ s.sieve.queue.keys := by
    intro hsv
    have hc := hcov (ne_none_of_isSieve hsv)
    exact (hc.sieve (by rw [← hc.kind] at hsv; exact hsv)).2 k hin
  have hac : s.eviction.policy.indexKind.isAc = true → k ∈ s.ac.queue.keys := by
    intro hac
    have hc := hcov (ne_none_of_isAc hac)
    exact (hc.ac (by rw [← hc.kind] at hac; exact hac)).2 k hin
  have hevicts := h.evicts
  refine ⟨hin, ?_⟩
  unfold Offered
  cases hp : s.eviction.policy <;> rw [hp] at hsieve hac hevicts
  case noEviction => exact hevicts rfl
  case allKeysSieve | volatileSieve | allKeysSieveS | volatileSieveS => exact hsieve rfl
  case allKeysAdaptiveClimb | volatileAdaptiveClimb => exact hac rfl
  all_goals exact h.samples

theorem Evicts.accounted (h : Evicts env incoming s keys s') (hs : Accounted s) : Accounted s' := by
  induction h with
  | done => exact hs
  | @next s t s' victim rest _ chosen _ _ ih =>
    have hact : Act env .flushdb s s ((s.selectVictim env).2.evictVictim victim) :=
      .evict s victim (congrArg Prod.fst chosen)
    rw [chosen] at hact
    exact ih (hact.accounted hs)

/-- Bytes that fit an empty store are admitted where every stored key can be chosen. -/
theorem admitted_of_selectable (hsel : ∀ k e, s.store.lookup k = some e → Selectable s k)
    (hpol : s.eviction.policy ≠ .noEviction) (hacc : Accounted s) (hpeak : s.heapPeak < 2 ^ 63)
    (hmax : s.eviction.maxMemory ≠ 0) (hroom : incoming ≤ s.eviction.maxMemory) :
    (s.enforceMemoryLimit env incoming).1 = .ok () := by
  obtain ⟨keys, s', hrun, ⟨hr, -⟩ | ⟨t, -, hv, hfit⟩⟩ :=
    enforceMemoryLimit_end env incoming hmax hpol
  · rw [hr]
  · have hthin := hrun.thinned
    have hempty : s'.store.entries = [] := by
      by_contra hne
      obtain ⟨⟨k, e⟩, hmem⟩ := List.exists_mem_of_ne_nil _ hne
      have he := hthin.lookup k
      rw [AList.mem_lookup_iff.2 hmem] at he
      split_ifs at he with hk
      exact selectVictim_ne_none ((hthin.rest k).2 ⟨hk, hsel k e he.symm⟩) (congrArg Prod.fst hv)
    have hused := ((hrun.accounted hacc).2 (hthin.heapPeak.trans_lt hpeak)).1
    have hfoot : footprint s'.store = 0 := by
      unfold footprint AList.weight
      rw [hempty]
      rfl
    refine absurd ?_ hfit
    unfold fits
    rw [decide_eq_true_eq, hused, hfoot, hthin.eviction]
    omega

end Loop

/-- In every run in which no `PERSIST` drops a key from the queue in use, a `SET` that fits alone
under an all-keys policy is answered. Under the sampled policies nothing is asked of the run. Nor does
the `SET` panic, in an engine whose entries and counters are within bounds (`Fit`). -/
theorem allKeys_set_admitted (aof : Option (List AofRecord)) (calls : List Call) (env : Env)
    {key value : Bytes}
    (hkeeps : (run (startWith aof) calls).eviction.policy.indexKind ≠ .none →
      ∀ n c, calls[n]? = some c → KeepsQueued c.env (run (startWith aof) (calls.take n)) c.cmd)
    (hpeak : (run (startWith aof) calls).heapPeak < 2 ^ 63)
    (hcfg : Evicting (run (startWith aof) calls).eviction)
    (hroom : key.length + value.length + perEntryOverhead
      ≤ (run (startWith aof) calls).eviction.maxMemory)
    (hv : validatePair key value = .ok ()) :
    (∃ r, (exec env (run (startWith aof) calls) (.set key value)).1 = .ok r)
      ∧ ∀ origin horizon n, origin < 998 * 2 ^ 63 → n < keyLimit →
        Fit horizon n { run (startWith aof) calls with eviction := {} } →
        Quiet ((run (startWith aof) calls).insertSites origin env key value) := by
  have hsel := fun k e => @Evicting.selectable (run (startWith aof) calls) k e hcfg
    fun hkind => run_covered aof (hkeeps hkind)
  have hacc := run_accounted calls (accounted_startWith aof)
  generalize run (startWith aof) calls = s at hcfg hsel hacc hpeak hroom ⊢
  refine ⟨?_, fun origin horizon n ho hn hfit => ?_⟩
  · have hover : perEntryOverhead = 144 := rfl
    have henf : (s.enforceForWrite env key value.length).1 = .ok () := by
      unfold enforceForWrite
      exact admitted_of_selectable hsel hcfg.evicts hacc hpeak (by omega) (by omega)
    have hset : ∃ a, (s.set env key value).1 = .ok a := by
      unfold KvEngine.set KvEngine.insert
      simp only [hv]
      rcases h : s.enforceForWrite env key value.length with ⟨_ | _, s₁⟩ <;> rw [h] at henf
      · cases henf
      · exact ⟨_, rfl⟩
    obtain ⟨a, ha⟩ := hset
    exact ⟨.value a, by simp [exec, answer, ha, Except.map]⟩
  · have hfit' : Fit horizon n s :=
      ⟨hfit.entries, hfit.store, hfit.sieve, hfit.ac, hfit.counted, hcfg.capacity⟩
    exact (set_quietly env ho s key value n hn hfit').1

/-- Under all-keys SIEVE and a ceiling of 200 bytes: a write, a deadline, a `PERSIST` before it. -/
def unqueuedRun : List Call :=
  [⟨Env.steady 0, .setEvictionConfig { maxMemory := 200, policy := .allKeysSieve }⟩,
    ⟨Env.steady 0, .set [97] [118]⟩, ⟨Env.steady 0, .expireAtMs [97] 10⟩,
    ⟨Env.steady 5, .persist [97]⟩]

/-- The stored key is not queued any more, so a write that fits alone is refused. -/
theorem allKeys_set_refused :
    (run (startWith none) unqueuedRun).eviction = { maxMemory := 200, policy := .allKeysSieve }
      ∧ 1 + 1 + perEntryOverhead ≤ 200
      ∧ (exec (Env.steady 6) (run (startWith none) unqueuedRun) (.set [98] [118])).1
        = .error .outOfMemory
      ∧ (run (startWith none) unqueuedRun).store.lookup [97] ≠ none := by
  decide

theorem allKeys_set_admitted_sieve :
    (∃ r, (exec (Env.steady 6) (run (startWith none) (unqueuedRun.take 3)) (.set [98] [118])).1
        = .ok r)
      ∧ Quiet ((run (startWith none) (unqueuedRun.take 3)).insertSites 0 (Env.steady 6) [98]
        [118]) := by
  have hkeeps : ∀ n c, (unqueuedRun.take 3)[n]? = some c →
      KeepsQueued c.env (run (startWith none) ((unqueuedRun.take 3).take n)) c.cmd := by
    intro n c hc
    have hmem := List.mem_of_getElem? hc
    simp only [unqueuedRun, List.take_succ_cons, List.take_zero, List.mem_cons, List.not_mem_nil,
      or_false] at hmem
    rcases hmem with rfl | rfl | rfl <;> trivial
  obtain ⟨hset, hquiet⟩ := allKeys_set_admitted none (unqueuedRun.take 3) (Env.steady 6)
    (fun _ => hkeeps) (by decide)
    ⟨by decide, by decide, by decide, by decide⟩ (by decide)
    (show validatePair [98] [118] = _ by decide)
  refine ⟨hset, hquiet 0 10 1 (by decide) (by decide) ⟨fun k e he => ?_, ?_, ?_, ?_, ?_, ?_⟩⟩
  · have hall : ∀ x ∈ (run (startWith none) (unqueuedRun.take 3)).store.entries,
        x.1.length ≤ keyMaxBytes ∧ x.2.data.length ≤ valueMaxBytes ∧ x.2.expireAt = some 10 := by
      decide
    obtain ⟨hk, hd, hx⟩ := hall ⟨k, e⟩ (AList.mem_lookup_iff.1 he)
    refine ⟨hk, hd, fun d hd => ?_⟩
    rw [Option.some.inj (hx.symm.trans hd)]
  all_goals decide

end FerrumKv
