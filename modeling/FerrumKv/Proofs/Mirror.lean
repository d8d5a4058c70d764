import FerrumKv.Lib.Runs
import FerrumKv.Proofs.Acts
import FerrumKv.Proofs.Indexes

/-!
# The indexes mirror the keyspace

`Mirrored s` says that the index of the active policy tracks exactly the eligible stored keys and
that the other one is empty. Two commands break it (`Notifies`): `PERSIST` takes the key out of the
index also where the scope is all keys, and `MEMORY USAGE` removes an expired entry without telling
the index. In every run the indexes mirror the keyspace after every command just when no command is
one of the two (`run_mirrored_iff`).
-/

namespace FerrumKv

open KvEngine

variable {e : ValueEntry} {s : KvEngine} {kind : IndexKind} {store : Store} {env : Env}
  {cmd : Command}

/-! ## One index -/

/-- The keys are exactly those the store holds in scope. -/
def Tracks (store : Store) (scope : EvictionScope) (keys : List Key) : Prop :=
  ∀ k, k ∈ keys ↔ InScope store scope k

/-- An index in use tracks the keys in scope; one that is not is empty. -/
def Mirrors (active : Bool) (store : Store) (scope : EvictionScope) (keys : List Key) : Prop :=
  if active then Tracks store scope keys else keys = []

def Mirrored (s : KvEngine) : Prop :=
  Mirrors s.eviction.policy.indexKind.isSieve s.store s.eviction.policy.scope s.sieve.queue.keys
    ∧ Mirrors s.eviction.policy.indexKind.isAc s.store s.eviction.policy.scope s.ac.queue.keys

section Store

variable {store : Store} {scope : EvictionScope} {key k : Key} {e : ValueEntry}

theorem inScope_insert :
    InScope (store.insert key e) scope k
      ↔ k = key ∧ scope.admits e = true ∨ k ≠ key ∧ InScope store scope k := by
  unfold InScope
  by_cases hk : k = key
  · subst hk
    simp [AList.lookup_insert]
  · simp [AList.lookup_insert_ne hk, hk]

theorem inScope_erase : InScope (store.erase key) scope k ↔ k ≠ key ∧ InScope store scope k := by
  unfold InScope
  by_cases hk : k = key
  · subst hk
    simp [AList.lookup_erase]
  · simp [AList.lookup_erase_ne hk, hk]

end Store

/-- What one index of the engine shows: whether it is in use, the scope it was built for, and the
keys it tracks. -/
structure IndexView where
  active : Bool
  scope : EvictionScope
  keys : List Key

def sieveView (s : KvEngine) : IndexView :=
  ⟨s.indexKind.isSieve, s.sieve.scope, s.sieve.queue.keys⟩

def acView (s : KvEngine) : IndexView := ⟨s.indexKind.isAc, s.ac.scope, s.ac.queue.keys⟩

namespace IndexView

/-- The index mirrors the store, and was built for the scope. -/
def Good (store : Store) (scope : EvictionScope) (v : IndexView) : Prop :=
  Mirrors v.active store scope v.keys ∧ (v.active = true → v.scope = scope)

/-- `v'` is `v` told of an insert. -/
structure Inserted (key : Key) (hasTtl : Bool) (v v' : IndexView) : Prop where
  active : v'.active = v.active
  scope : v'.scope = v.scope
  idle : v.active = false → v'.keys = v.keys
  keys : v.active = true →
    ∀ x, x ∈ v'.keys ↔ x = key ∧ v.scope.takes hasTtl ∨ x ≠ key ∧ x ∈ v.keys

/-- `v'` is `v` told of a removal. -/
structure Removed (key : Key) (v v' : IndexView) : Prop where
  active : v'.active = v.active
  scope : v'.scope = v.scope
  idle : v.active = false → v'.keys = v.keys
  keys : v.active = true → ∀ x, x ∈ v'.keys ↔ x ≠ key ∧ x ∈ v.keys

/-- `v'` is `v` in another order. -/
structure Reordered (v v' : IndexView) : Prop where
  active : v'.active = v.active
  scope : v'.scope = v.scope
  keys : ∀ x, x ∈ v'.keys ↔ x ∈ v.keys

/-- `v'` is `v`, with at most the given key dropped. -/
structure Shrunk (dropped : Option Key) (v v' : IndexView) : Prop where
  active : v'.active = v.active
  scope : v'.scope = v.scope
  subset : ∀ x, x ∈ v'.keys → x ∈ v.keys
  keeps : ∀ x, dropped ≠ some x → x ∈ v.keys → x ∈ v'.keys

section Good

variable {store store' : Store} {scope : EvictionScope} {key : Key} {v v' : IndexView}

theorem Good.tracks (h : Good store scope v) (ha : v.active = true) : Tracks store scope v.keys := by
  unfold Good Mirrors at h
  rw [if_pos ha] at h
  exact h.1

theorem Good.inserted (h : Good store scope v) {e : ValueEntry}
    (hv : Inserted key e.expireAt.isSome v v') : Good (store.insert key e) scope v' := by
  unfold Good Mirrors at h ⊢
  rw [hv.active, hv.scope]
  cases ha : v.active with
  | true =>
    rw [ha] at h
    simp only [if_true, true_imp_iff] at h ⊢
    refine ⟨fun x => ?_, h.2⟩
    rw [hv.keys ha, inScope_insert, admits_iff, h.1 x, h.2]
  | false =>
    rw [ha] at h
    simpa [hv.idle ha] using h

theorem Good.removed (h : Good store scope v) (hv : Removed key v v') :
    Good (store.erase key) scope v' := by
  unfold Good Mirrors at h ⊢
  rw [hv.active, hv.scope]
  cases ha : v.active with
  | true =>
    rw [ha] at h
    simp only [if_true, true_imp_iff] at h ⊢
    refine ⟨fun x => ?_, h.2⟩
    rw [hv.keys ha, inScope_erase, h.1 x]
  | false =>
    rw [ha] at h
    simpa [hv.idle ha] using h

theorem Good.reordered (h : Good store scope v) (hv : Reordered v v') : Good store scope v' := by
  unfold Good Mirrors at h ⊢
  rw [hv.active, hv.scope]
  refine ⟨?_, h.2⟩
  have h1 := h.1
  split_ifs at h1 ⊢
  · exact fun x => (hv.keys x).trans (h1 x)
  · rw [List.eq_nil_iff_forall_not_mem] at h1 ⊢
    exact fun x hx => h1 x ((hv.keys x).1 hx)

theorem Good.idle (h : Good store scope v) (ha : v.active = false) (store' : Store)
    (scope' : EvictionScope) : Good store' scope' v := by
  unfold Good Mirrors at h ⊢
  simpa [ha] using h

theorem Good.congr (h : Good store scope v)
    (hst : ∀ k, InScope store' scope k ↔ InScope store scope k) : Good store' scope v := by
  unfold Good Mirrors at h ⊢
  refine ⟨?_, h.2⟩
  have h1 := h.1
  split_ifs at h1 ⊢
  · exact fun x => (h1 x).trans (hst x).symm
  · exact h1

theorem Removed.after {v₁ : IndexView} (h : Removed key v₁ v') (hgood : Good store scope v)
    (hv : Shrunk (some key) v v₁) : Removed key v v' where
  active := h.active.trans hv.active
  scope := h.scope.trans hv.scope
  idle ha := by
    have hnil : v.keys = [] := by
      have := hgood.1
      unfold Mirrors at this
      simpa [ha] using this
    rw [h.idle (hv.active.trans ha), hnil, List.eq_nil_iff_forall_not_mem]
    intro x hx
    have := hv.subset x hx
    rw [hnil] at this
    cases this
  keys ha x := by
    rw [h.keys (hv.active.trans ha)]
    refine and_congr_right fun hx => ⟨hv.subset x, hv.keeps x ?_⟩
    rw [ne_eq, Option.some.injEq]
    exact Ne.symm hx

theorem Shrunk.reordered (h : Shrunk none v v') : Reordered v v' :=
  ⟨h.active, h.scope, fun x => ⟨h.subset x, h.keeps x (by simp)⟩⟩

end Good

section Notified

variable {S : Type} (scopeOf : S → EvictionScope) (keysOf : S → List Key) {key : Key} (active : Bool)
  {st st' : S}

theorem Inserted.of_ite {hasTtl : Bool} (hscope : scopeOf st' = scopeOf st)
    (hkeys : ∀ x, x ∈ keysOf st'
      ↔ x = key ∧ (scopeOf st).takes hasTtl ∨ x ≠ key ∧ x ∈ keysOf st) :
    Inserted key hasTtl ⟨active, scopeOf st, keysOf st⟩
      ⟨active, scopeOf (if active then st' else st), keysOf (if active then st' else st)⟩ := by
  cases active with
  | true => exact ⟨rfl, hscope, fun ha => (by cases ha), fun _ => hkeys⟩
  | false => exact ⟨rfl, rfl, fun _ => rfl, fun ha => (by cases ha)⟩

theorem Removed.of_ite (hscope : scopeOf st' = scopeOf st)
    (hkeys : ∀ x, x ∈ keysOf st' ↔ x ≠ key ∧ x ∈ keysOf st) :
    Removed key ⟨active, scopeOf st, keysOf st⟩
      ⟨active, scopeOf (if active then st' else st), keysOf (if active then st' else st)⟩ := by
  cases active with
  | true => exact ⟨rfl, hscope, fun ha => (by cases ha), fun _ => hkeys⟩
  | false => exact ⟨rfl, rfl, fun _ => rfl, fun ha => (by cases ha)⟩

theorem Reordered.of_ite (hscope : scopeOf st' = scopeOf st)
    (hkeys : ∀ x, x ∈ keysOf st' ↔ x ∈ keysOf st) :
    Reordered ⟨active, scopeOf st, keysOf st⟩
      ⟨active, scopeOf (if active then st' else st), keysOf (if active then st' else st)⟩ := by
  cases active with
  | true => exact ⟨rfl, hscope, hkeys⟩
  | false => exact ⟨rfl, rfl, fun _ => Iff.rfl⟩

end Notified

end IndexView

open IndexView

section Notify

variable (s : KvEngine) (key : Key)

theorem notifyInsert_inserted (hasTtl : Bool) :
    Inserted key hasTtl (sieveView s)
        (sieveView ((s.sieveNotifyInsert key hasTtl).acNotifyInsert key hasTtl))
      ∧ Inserted key hasTtl (acView s)
        (acView ((s.sieveNotifyInsert key hasTtl).acNotifyInsert key hasTtl)) :=
  ⟨.of_ite SieveState.scope (·.queue.keys) _ (SieveState.observeInsert_scope s.sieve key hasTtl)
      fun _ => SieveState.mem_keys_observeInsert s.sieve key hasTtl,
    .of_ite AdaptiveClimbState.scope (·.queue.keys) _
      (AdaptiveClimbState.observeInsert_scope s.ac key hasTtl)
      fun _ => AdaptiveClimbState.mem_keys_observeInsert s.ac key hasTtl⟩

theorem notifyRemove_removed :
    Removed key (sieveView s) (sieveView ((s.sieveNotifyRemove key).acNotifyRemove key))
      ∧ Removed key (acView s) (acView ((s.sieveNotifyRemove key).acNotifyRemove key)) :=
  ⟨.of_ite SieveState.scope (·.queue.keys) _ (SieveState.observeRemove_scope s.sieve key)
      fun _ => SieveState.mem_keys_observeRemove s.sieve key,
    .of_ite AdaptiveClimbState.scope (·.queue.keys) _ rfl
      fun _ => AdaptiveClimbState.mem_keys_observeRemove s.ac key⟩

theorem notifyAccess_reordered :
    Reordered (sieveView s) (sieveView ((s.sieveNotifyAccess key).acNotifyAccess key))
      ∧ Reordered (acView s) (acView ((s.sieveNotifyAccess key).acNotifyAccess key)) :=
  ⟨.of_ite SieveState.scope (·.queue.keys) _ rfl
      fun _ => by rw [SieveState.keys_observeAccess],
    .of_ite AdaptiveClimbState.scope (·.queue.keys) _
      (AdaptiveClimbState.observeAccess_scope s.ac key)
      fun _ => AdaptiveClimbState.mem_keys_observeAccess s.ac key⟩

end Notify

/-! ## The invariant -/

/-- The index in use is that of the policy, and both indexes are good. -/
structure Indexed (s : KvEngine) : Prop where
  kind : s.indexKind = s.eviction.policy.indexKind
  sieve : Good s.store s.eviction.policy.scope (sieveView s)
  ac : Good s.store s.eviction.policy.scope (acView s)

theorem Indexed.mirrored (h : Indexed s) : Mirrored s := by
  unfold Mirrored
  rw [← h.kind]
  exact ⟨h.sieve.1, h.ac.1⟩

theorem indexed_startWith (aof : Option (List AofRecord)) : Indexed (startWith aof) :=
  ⟨rfl, ⟨rfl, fun ha => (by cases ha)⟩, ⟨rfl, fun ha => (by cases ha)⟩⟩

section Step

variable {s s' : KvEngine} {key : Key}

theorem Indexed.of_eq (h : Indexed s) (hk : s'.indexKind = s.indexKind)
    (hev : s'.eviction = s.eviction) (hst : s'.store = s.store) (hsv : s'.sieve = s.sieve)
    (hac : s'.ac = s.ac) : Indexed s' := by
  obtain ⟨h1, h2, h3⟩ := h
  unfold sieveView at h2
  unfold acView at h3
  constructor
  · rw [hk, hev, h1]
  · rw [hst, hev, sieveView, hk, hsv]
    exact h2
  · rw [hst, hev, acView, hk, hac]
    exact h3

theorem trackInsert_indexed (h : Indexed s) (key : Key) (e : ValueEntry) :
    Indexed (s.trackInsert key e) := by
  obtain ⟨hsv, hac⟩ := notifyInsert_inserted s key e.expireAt.isSome
  exact ⟨h.kind, h.sieve.inserted hsv, h.ac.inserted hac⟩

theorem trackRemove_indexed (h : Indexed s) (key : Key) : Indexed (s.trackRemove key) := by
  obtain ⟨hsv, hac⟩ := notifyRemove_removed s key
  exact ⟨h.kind, h.sieve.removed hsv, h.ac.removed hac⟩

theorem inScope_insert_of_expireAt {scope : EvictionScope}
    (e' : ValueEntry) (he : store.lookup key = some e) (hd : e'.expireAt = e.expireAt) (k : Key) :
    InScope (store.insert key e') scope k ↔ InScope store scope k := by
  rw [inScope_insert, admits_iff, hd, ← admits_iff]
  by_cases hk : k = key
  · subst hk
    simp [InScope, he]
  · simp [hk]

theorem touchAccess_indexed (h : Indexed s) (r : AccessReading) (key : Key) :
    Indexed (s.touchAccess r key) := by
  unfold touchAccess
  split
  · rename_i e he
    obtain ⟨hsv, hac⟩ := notifyAccess_reordered s key
    exact ⟨h.kind, (h.sieve.congr (inScope_insert_of_expireAt (e.touch r) he rfl)).reordered hsv,
      (h.ac.congr (inScope_insert_of_expireAt (e.touch r) he rfl)).reordered hac⟩
  · exact h

theorem deadlined_indexed (h : Indexed s) (env : Env)
    (he : s.store.lookup key = some e) (absEpochMs : Int64) :
    Indexed (deadlined env s key absEpochMs) := by
  obtain ⟨hsv, hac⟩ := notifyInsert_inserted s key true
  rw [deadlined, setDeadline_of_lookup _ he]
  exact ⟨h.kind, h.sieve.inserted hsv, h.ac.inserted hac⟩

theorem inScope_insert_volatile (hd : e.expireAt = none) (k : Key) :
    InScope (store.insert key e) .volatile k ↔ InScope (store.erase key) .volatile k := by
  rw [inScope_insert, inScope_erase]
  simp [EvictionScope.admits, hd]

theorem clear_indexed (h : Indexed s) : Indexed s.clear := by
  have hnone : ∀ (scope : EvictionScope) (k : Key), k ∈ [] ↔ InScope ∅ scope k := by
    intro scope k
    simp [InScope]
  refine ⟨h.kind, ⟨?_, h.sieve.2⟩, ⟨?_, h.ac.2⟩⟩
  · change Mirrors s.indexKind.isSieve ∅ _ []
    unfold Mirrors
    split_ifs
    · exact hnone _
    · rfl
  · change Mirrors s.indexKind.isAc ∅ _ []
    unfold Mirrors
    split_ifs
    · exact hnone _
    · rfl

theorem selectVictim_scopes (env : Env) (s : KvEngine) :
    (s.selectVictim env).2.sieve.scope = s.sieve.scope
      ∧ (s.selectVictim env).2.ac.scope = s.ac.scope := by
  unfold selectVictim
  simp only []
  split
  case h_3 | h_4 | h_5 | h_6 => exact ⟨SieveState.evictOne_scope s.sieve, rfl⟩
  case h_7 | h_8 => exact ⟨rfl, AdaptiveClimbState.evictOne_scope s.ac⟩
  all_goals exact ⟨rfl, rfl⟩

/-- The choice of a victim drops at most the victim from the indexes. -/
theorem selectVictim_shrunk (env : Env) (h : Indexed s) :
    Shrunk (s.selectVictim env).1 (sieveView s) (sieveView (s.selectVictim env).2)
      ∧ Shrunk (s.selectVictim env).1 (acView s) (acView (s.selectVictim env).2) := by
  have hkind : (s.selectVictim env).2.indexKind = s.indexKind := by
    rw [selectVictim_frame]
  obtain ⟨hss, has⟩ := selectVictim_scopes env s
  have hsieve : s.eviction.policy.indexKind.isSieve = true → ∀ x,
      (x ∈ (s.evictSieve env).2.sieve.queue.keys
        ↔ (s.evictSieve env).1 ≠ some x ∧ x ∈ s.sieve.queue.keys) := by
    intro ha x
    rw [← h.kind] at ha
    exact SieveState.mem_keys_evictOne s.sieve fun k hk => (h.sieve.tracks ha k).1 hk
  have hac : ∀ x, (x ∈ s.evictAc.2.ac.queue.keys
      ↔ s.evictAc.1 ≠ some x ∧ x ∈ s.ac.queue.keys) :=
    fun x => AdaptiveClimbState.mem_keys_evictOne s.ac
  have hkeys : ∀ x,
      ((x ∈ (s.selectVictim env).2.sieve.queue.keys → x ∈ s.sieve.queue.keys)
        ∧ ((s.selectVictim env).1 ≠ some x → x ∈ s.sieve.queue.keys →
          x ∈ (s.selectVictim env).2.sieve.queue.keys))
      ∧ ((x ∈ (s.selectVictim env).2.ac.queue.keys → x ∈ s.ac.queue.keys)
        ∧ ((s.selectVictim env).1 ≠ some x → x ∈ s.ac.queue.keys →
          x ∈ (s.selectVictim env).2.ac.queue.keys)) := by
    intro x
    unfold selectVictim
    simp only []
    cases hp : s.eviction.policy <;> rw [hp] at hsieve <;> simp only []
    case allKeysSieve | volatileSieve | allKeysSieveS | volatileSieveS =>
      exact ⟨⟨fun hx => ((hsieve rfl x).1 hx).2, fun hne hx => (hsieve rfl x).2 ⟨hne, hx⟩⟩,
        id, fun _ => id⟩
    case allKeysAdaptiveClimb | volatileAdaptiveClimb =>
      exact ⟨⟨id, fun _ => id⟩, fun hx => ((hac x).1 hx).2, fun hne hx => (hac x).2 ⟨hne, hx⟩⟩
    all_goals exact ⟨⟨id, fun _ => id⟩, id, fun _ => id⟩
  refine ⟨⟨?_, hss, fun x => (hkeys x).1.1, fun x => (hkeys x).1.2⟩,
    ⟨?_, has, fun x => (hkeys x).2.1, fun x => (hkeys x).2.2⟩⟩
  · simp only [sieveView, hkind]
  · simp only [acView, hkind]

theorem noVictim_indexed (env : Env) (h : Indexed s) (hv : (s.selectVictim env).1 = none) :
    Indexed (s.selectVictim env).2 := by
  obtain ⟨hsv, hac⟩ := selectVictim_shrunk env h
  rw [hv] at hsv hac
  have hsieve := h.sieve.reordered hsv.reordered
  have hadapt := h.ac.reordered hac.reordered
  have hkind := h.kind
  rw [selectVictim_frame] at hsieve hadapt ⊢
  exact ⟨hkind, hsieve, hadapt⟩

theorem evictVictim_indexed (env : Env) (h : Indexed s) {victim : Key}
    (hv : (s.selectVictim env).1 = some victim) :
    Indexed ((s.selectVictim env).2.evictVictim victim) := by
  obtain ⟨hsv, hac⟩ := selectVictim_shrunk env h
  rw [hv] at hsv hac
  obtain ⟨hrs, hra⟩ := notifyRemove_removed (s.selectVictim env).2 victim
  have hsieve := h.sieve.removed (hrs.after h.sieve hsv)
  have hadapt := h.ac.removed (hra.after h.ac hac)
  have hkind := h.kind
  rw [selectVictim_frame] at hsieve hadapt ⊢
  exact ⟨hkind, hsieve, hadapt⟩

/-! ## Policy changes -/

/-- The scope an index kind stands for. -/
def IndexKind.scope : IndexKind → EvictionScope
  | .sieveVolatile | .sieveSVolatile | .acVolatile => .volatile
  | _ => .allKeys

theorem scope_of_indexKind {p : EvictionPolicy} (h : p.indexKind ≠ .none) :
    p.scope = p.indexKind.scope := by
  cases p <;> first | rfl | exact absurd rfl h

theorem isAc_of_isSieve (h : kind.isSieve = true) : kind.isAc = false := by
  cases kind <;> first | rfl | cases h

theorem isSieve_of_isAc (h : kind.isAc = true) : kind.isSieve = false := by
  cases kind <;> first | rfl | cases h

theorem good_of_empty {active : Bool} (h : active = false) (store : Store)
    (scope scope' : EvictionScope) : Good store scope ⟨active, scope', []⟩ := by
  subst h
  exact ⟨rfl, fun ha => (by cases ha)⟩

theorem good_of_tracks {active : Bool} {scope : EvictionScope} {keys : List Key}
    (ha : active = true) (h : Tracks store scope keys) : Good store scope ⟨active, scope, keys⟩ := by
  subst ha
  exact ⟨h, fun _ => rfl⟩

theorem good_of_kind {v : IndexView} {p q : EvictionPolicy}
    (h : Good store p.scope v) (hkind : p.indexKind = q.indexKind)
    (hactive : v.active = true → p.indexKind ≠ .none) : Good store q.scope v := by
  cases ha : v.active with
  | true =>
    have hne := hactive ha
    rw [scope_of_indexKind (hkind ▸ hne), ← hkind, ← scope_of_indexKind hne]
    exact h
  | false => exact h.idle ha store q.scope

theorem ne_none_of_isSieve (h : kind.isSieve = true) : kind ≠ .none := by
  rintro rfl
  cases h

theorem ne_none_of_isAc (h : kind.isAc = true) : kind ≠ .none := by
  rintro rfl
  cases h

theorem setEvictionConfig_indexed (env : Env) (h : Indexed s) (cfg : EvictionConfig) :
    Indexed (s.setEvictionConfig env cfg) := by
  unfold setEvictionConfig
  simp only []
  by_cases hkind : cfg.policy.indexKind ≠ s.indexKind
  · rw [if_pos hkind]
    by_cases hsv : cfg.policy.indexKind.isSieve = true
    · rw [if_pos hsv]
      exact ⟨rfl, good_of_tracks hsv fun _ => SieveState.mem_keys_rebuild,
        good_of_empty (isAc_of_isSieve hsv) _ _ _⟩
    · rw [if_neg hsv]
      by_cases hac : cfg.policy.indexKind.isAc = true
      · rw [if_pos hac]
        exact ⟨rfl, good_of_empty (isSieve_of_isAc hac) _ _ _,
          good_of_tracks hac fun _ => AdaptiveClimbState.mem_keys_rebuild⟩
      · rw [if_neg hac]
        exact ⟨rfl, good_of_empty (by simpa using hsv) _ _ _, good_of_empty (by simpa using hac) _ _ _⟩
  · rw [if_neg hkind]
    rw [ne_eq, not_not] at hkind
    have hpq : s.eviction.policy.indexKind = cfg.policy.indexKind := h.kind.symm.trans hkind.symm
    refine ⟨hkind.symm, good_of_kind h.sieve hpq fun ha => ?_, good_of_kind h.ac hpq fun ha => ?_⟩
    · rw [← h.kind]
      exact ne_none_of_isSieve ha
    · rw [← h.kind]
      exact ne_none_of_isAc ha

/-! ## The two commands that do not tell the index -/

/-- Whether a command tells the index in use of what it does: it is not a `PERSIST` that clears a
deadline where the scope is all keys, nor a `MEMORY USAGE` that meets an expired entry. -/
def Notifies (env : Env) (s : KvEngine) : Command → Prop
  | .persist key =>
    s.eviction.policy.indexKind ≠ .none → s.eviction.policy.scope = .allKeys →
      ∀ e, s.store.lookup key = some e → e.isExpired env.now = false → e.expireAt = none
  | .memoryUsage key =>
    s.eviction.policy.indexKind ≠ .none →
      ∀ e, s.store.lookup key = some e → e.isExpired env.shared = true →
        e.isExpired env.now = false
  | _ => True

theorem inactive_of_none (h : s.indexKind = .none) :
    (sieveView s).active = false ∧ (acView s).active = false := by
  simp [sieveView, acView, h, IndexKind.isSieve, IndexKind.isAc]

theorem persisted_indexed (h : Indexed s)
    (he : s.store.lookup key = some e) (hx : e.isExpired env.now = false) (hd : e.expireAt ≠ none)
    (hn : Notifies env s (.persist key)) : Indexed (persisted s key) := by
  rw [persisted, setDeadline_of_lookup _ he]
  by_cases hnone : s.indexKind = .none
  · obtain ⟨hsv, hac⟩ := inactive_of_none hnone
    obtain ⟨hrs, hra⟩ := notifyRemove_removed s key
    exact ⟨h.kind, (h.sieve.removed hrs).idle (hrs.active.trans hsv) _ _,
      (h.ac.removed hra).idle (hra.active.trans hac) _ _⟩
  · rw [h.kind] at hnone
    have hscope : s.eviction.policy.scope = .volatile := by
      cases hs : s.eviction.policy.scope with
      | allKeys => exact absurd (hn hnone hs e he hx) hd
      | volatile => rfl
    obtain ⟨hrs, hra⟩ := notifyRemove_removed s key
    have hin : ∀ k, InScope (s.store.insert key { e with expireAt := none }) .volatile k
        ↔ InScope (s.store.erase key) .volatile k := inScope_insert_volatile rfl
    have hsieve := h.sieve.removed hrs
    have hadapt := h.ac.removed hra
    rw [hscope] at hsieve hadapt
    refine ⟨h.kind, ?_, ?_⟩
    · exact hscope ▸ hsieve.congr hin
    · exact hscope ▸ hadapt.congr hin

theorem discarded_indexed (h : Indexed s)
    (he : s.store.lookup key = some e) (hs : e.isExpired env.shared = true)
    (hx : e.isExpired env.now = true) (hn : Notifies env s (.memoryUsage key)) :
    Indexed (discarded s key e) := by
  have hnone : s.indexKind = .none := by
    by_contra hne
    rw [h.kind] at hne
    rw [hn hne e he hs] at hx
    cases hx
  obtain ⟨hsv, hac⟩ := inactive_of_none hnone
  exact ⟨h.kind, h.sieve.idle hsv _ _, h.ac.idle hac _ _⟩

end Step

theorem Act.indexed {s₀ a b : KvEngine} (hact : Act env cmd s₀ a b)
    (hn : Notifies env s₀ cmd) (h : Indexed a) : Indexed b := by
  cases hact with
  | count => exact h.of_eq rfl rfl rfl rfl rfl
  | touch _ r key => exact touchAccess_indexed h r key
  | remove _ key hk => exact (trackRemove_indexed h key).of_eq rfl rfl rfl rfl rfl
  | forget _ key hx => exact trackRemove_indexed h key
  | evict _ victim hv => exact evictVictim_indexed env h hv
  | noVictim _ hv => exact noVictim_indexed env h hv
  | write _ key value ttl r hv ht =>
    have hlog : Indexed (a.appendAof (.set key value :: keepTtlRecords env key ttl)) :=
      h.of_eq rfl rfl rfl rfl rfl
    exact trackInsert_indexed hlog key _
  | flush => exact clear_indexed h
  | config _ cfg => exact setEvictionConfig_indexed env h cfg
  | deadline key absEpochMs e hc hk he hlt => exact deadlined_indexed h env hk absEpochMs
  | persist key e hc hk he hd =>
    subst hc
    exact persisted_indexed h hk he hd hn
  | discard key e hc hk hs he =>
    subst hc
    exact discarded_indexed h hk hs he hn

theorem exec_indexed (h : Indexed s) (hn : Notifies env s cmd) : Indexed (exec env s cmd).2 :=
  (exec_acts env s cmd).preserves (fun _ _ hact ha => hact.indexed hn ha) h

/-! ## Every run -/

/-- The index in use is always that of the policy. -/
def KindOk (s : KvEngine) : Prop := s.indexKind = s.eviction.policy.indexKind

theorem setEvictionConfig_kindOk (env : Env) (cfg : EvictionConfig) :
    KindOk (s.setEvictionConfig env cfg) := by
  unfold setEvictionConfig KindOk
  simp only []
  split_ifs with h
  · rfl
  · rfl
  · rfl
  · exact (not_not.1 h).symm

theorem Act.kindOk {s₀ a b : KvEngine} (hact : Act env cmd s₀ a b) (h : KindOk a) : KindOk b := by
  cases hact with
  | touch _ r key =>
    unfold touchAccess
    split <;> exact h
  | evict _ victim hv =>
    rw [selectVictim_frame]
    exact h
  | noVictim _ hv =>
    rw [selectVictim_frame]
    exact h
  | config _ cfg => exact setEvictionConfig_kindOk env cfg
  | deadline key absEpochMs e hc hk he hlt =>
    rw [deadlined, setDeadline_of_lookup _ hk]
    exact h
  | persist key e hc hk he hd =>
    rw [persisted, setDeadline_of_lookup _ hk]
    exact h
  | _ => exact h

theorem run_kindOk (h : KindOk s) (calls : List Call) : KindOk (run s calls) :=
  Runs.foldl_invariant (I := KindOk) (fun s (c : Call) hs =>
    (exec_acts c.env s c.cmd).preserves (fun _ _ hact ha => hact.kindOk ha) hs) calls h

theorem isSieve_or_isAc (h : kind ≠ .none) :
    kind.isSieve = true ∨ kind.isAc = true := by
  cases kind <;> first | exact absurd rfl h | exact .inl rfl | exact .inr rfl

theorem Mirrors.tracks {active : Bool} {scope : EvictionScope} {keys : List Key}
    (h : Mirrors active store scope keys) (ha : active = true) : Tracks store scope keys := by
  unfold Mirrors at h
  rwa [if_pos ha] at h

/-- `PERSIST` takes out of the index in use a key that stays in an all-keys scope. -/
theorem not_mirrored_persisted (hk : KindOk s)
    (hkind : s.eviction.policy.indexKind ≠ .none) (hscope : s.eviction.policy.scope = .allKeys)
    {key : Key} (he : s.store.lookup key = some e) : ¬ Mirrored (persisted s key) := by
  rw [persisted, setDeadline_of_lookup _ he]
  rintro ⟨hsv, hac⟩
  obtain ⟨hrs, hra⟩ := notifyRemove_removed s key
  have hin : InScope (s.store.insert key { e with expireAt := none }) s.eviction.policy.scope key :=
    ⟨_, AList.lookup_insert _, by rw [hscope]; rfl⟩
  rw [← hk] at hkind
  rcases isSieve_or_isAc hkind with ha | ha
  · exact ((hrs.keys ha key).1 ((hsv.tracks (hk ▸ ha) key).2 hin)).1 rfl
  · exact ((hra.keys ha key).1 ((hac.tracks (hk ▸ ha) key).2 hin)).1 rfl

theorem admits_of_isExpired {now : ℕ} (h : e.isExpired now = true)
    (scope : EvictionScope) : scope.admits e = true := by
  obtain ⟨d, hd, -⟩ := isExpired_iff.1 h
  cases scope with
  | allKeys => rfl
  | volatile => simp [EvictionScope.admits, hd]

/-- `MEMORY USAGE` leaves in the index in use a key it took out of the store. -/
theorem not_mirrored_discarded (hkind : s.eviction.policy.indexKind ≠ .none)
    (h : Mirrored s) {key : Key} (he : s.store.lookup key = some e) {now : ℕ}
    (hx : e.isExpired now = true) : ¬ Mirrored (discarded s key e) := by
  rintro ⟨hsv, hac⟩
  have hin : InScope s.store s.eviction.policy.scope key := ⟨e, he, admits_of_isExpired hx _⟩
  have hout : ¬ InScope (s.store.erase key) s.eviction.policy.scope key :=
    fun hk => (inScope_erase.1 hk).1 rfl
  rcases isSieve_or_isAc hkind with ha | ha
  · exact hout ((hsv.tracks ha key).1 ((h.1.tracks ha key).2 hin))
  · exact hout ((hac.tracks ha key).1 ((h.2.tracks ha key).2 hin))

/-- A command between two states with mirroring indexes told the index of what it did. -/
theorem notifies_of_mirrored (hk : KindOk s)
    (h : Mirrored s) (h' : Mirrored (exec env s cmd).2) : Notifies env s cmd := by
  cases cmd with
  | persist key =>
    intro hkind hscope e he hx
    by_contra hd
    rcases persist_spec env s key with
      ⟨he', -⟩ | ⟨e', he', hx', -⟩ | ⟨e', he', -, hd', -⟩ | ⟨e', -, -, -, hs'⟩
    · rw [he] at he'
      cases he'
    · rw [he, Option.some.injEq] at he'
      rw [← he', hx] at hx'
      cases hx'
    · rw [he, Option.some.injEq] at he'
      exact hd (he' ▸ hd')
    · have hexec : (exec env s (.persist key)).2 = persisted s key := by
        simp [exec, reply, hs']
      rw [hexec] at h'
      exact not_mirrored_persisted hk hkind hscope he h'
  | memoryUsage key =>
    intro hkind e he hs
    by_contra hx
    rw [Bool.not_eq_false] at hx
    have hexec : (exec env s (.memoryUsage key)).2 = discarded s key e := by
      simp [exec, reply, memoryUsage, memoryOf, he, hs, hx, discarded]
    rw [hexec] at h'
    exact not_mirrored_discarded hkind h he hx h'
  | _ => trivial

/-- The indexes mirror the keyspace after every command of a run just when every command of it
tells the index in use of what it does. -/
theorem run_mirrored_iff (aof : Option (List AofRecord)) (calls : List Call) :
    (∀ n, Mirrored (run (startWith aof) (calls.take n)))
      ↔ ∀ n c, calls[n]? = some c → Notifies c.env (run (startWith aof) (calls.take n)) c.cmd := by
  have hkind : KindOk (startWith aof) := rfl
  constructor
  · intro hm n c hc
    have hnext := hm (n + 1)
    rw [run, Runs.foldl_take_succ hc] at hnext
    exact notifies_of_mirrored (run_kindOk hkind _) (hm n) hnext
  · intro hn n
    exact (Runs.forall_take (I := Indexed) (indexed_startWith aof)
      (fun m c hc hi => exec_indexed hi (hn m c hc)) n).mirrored

/-- Under the all-keys SIEVE policy: a write, a deadline, and a `PERSIST` before it. -/
def persistingRun : List Call :=
  [⟨Env.steady 0, .setEvictionConfig { policy := .allKeysSieve }⟩,
    ⟨Env.steady 0, .set [97] [118]⟩, ⟨Env.steady 0, .expireAtMs [97] 10⟩,
    ⟨Env.steady 5, .persist [97]⟩]

/-- Under the same policy: a `MEMORY USAGE` after the deadline. -/
def measuringRun : List Call := persistingRun.take 3 ++ [⟨Env.steady 20, .memoryUsage [97]⟩]

/-- The persisted key is stored but no longer tracked; the measured key is tracked but gone. -/
theorem mirror_lost :
    ¬ Mirrored (run (startWith none) persistingRun)
      ∧ ¬ Mirrored (run (startWith none) measuringRun) := by
  constructor
  · rintro ⟨hsv, -⟩
    have hstored : InScope (run (startWith none) persistingRun).store .allKeys [97] :=
      ⟨⟨[118], none, 0, 5, 0⟩, by decide, by decide⟩
    have hkeys : (run (startWith none) persistingRun).sieve.queue.keys = [] := by decide
    have := ((hsv.tracks (by decide)) [97]).2 hstored
    rw [hkeys] at this
    cases this
  · rintro ⟨hsv, -⟩
    have hkeys : [97] ∈ (run (startWith none) measuringRun).sieve.queue.keys := by decide
    obtain ⟨e, he, -⟩ := ((hsv.tracks (by decide)) [97]).1 hkeys
    have hgone : (run (startWith none) measuringRun).store.lookup [97] = none := by decide
    rw [hgone] at he
    cases he

end FerrumKv
