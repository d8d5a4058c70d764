import FerrumKv.Proofs.Admission
import FerrumKv.Proofs.ConfigSet

/-!
# Policy switches and the indexes

`set_eviction_config` publishes the kind of index under the shared lock and installs the
configuration later. Where its calls do not overlap, no SIEVE sweep of a volatile policy meets a
queue that is being used for all keys, and no `PERSIST` clears a deadline while an index is in use
for all keys, the index in use is that of the policy and covers the stored keys, and the other one
is empty, whenever no call is in progress (`switch_coherent`). `switch_incoherent` has a schedule
against each condition. Commands are sequences of the system's deeds (`run_command`).
-/

namespace FerrumKv

open KvEngine IndexView

section Deeds

variable {env : Env} {cmd : Command} {s₀ a b : KvEngine}

theorem deadline_cases (env : Env) (s : KvEngine) (key : Key) (absEpochMs : Int64) :
    (Deed.deadline env key absEpochMs).apply s = s
      ∨ (Deed.deadline env key absEpochMs).apply s = (Deed.remove key).apply s
      ∨ ∃ e, s.store.lookup key = some e
        ∧ (Deed.deadline env key absEpochMs).apply s = deadlined env s key absEpochMs := by
  simp only [Deed.apply]
  rcases expireAtMs_spec env s key absEpochMs with
    ⟨-, h⟩ | ⟨e, he, -, h⟩ | ⟨e, he, -, -, h⟩ | ⟨e, he, -, -, h⟩ <;> rw [h]
  · exact .inl rfl
  · exact .inr (.inl rfl)
  · exact .inr (.inl rfl)
  · exact .inr (.inr ⟨e, he, rfl⟩)

theorem persist_cases (env : Env) (s : KvEngine) (key : Key) :
    (Deed.persist env key).apply s = s
      ∨ (Deed.persist env key).apply s = (Deed.remove key).apply s
      ∨ ∃ e, s.store.lookup key = some e ∧ e.isExpired env.now = false ∧ e.expireAt ≠ none
        ∧ (Deed.persist env key).apply s = persisted s key := by
  simp only [Deed.apply]
  rcases persist_spec env s key with
    ⟨-, h⟩ | ⟨e, he, -, h⟩ | ⟨e, he, -, -, h⟩ | ⟨e, he, hx, hd, h⟩ <;> rw [h]
  · exact .inl rfl
  · exact .inr (.inl rfl)
  · exact .inl rfl
  · exact .inr (.inr ⟨e, he, hx, hd, rfl⟩)

theorem usage_cases (env : Env) (s : KvEngine) (key : Key) :
    (Deed.usage env key).apply s = s ∨ ∃ e, (Deed.usage env key).apply s = discarded s key e := by
  simp only [Deed.apply, memoryUsage, memoryOf]
  cases s.store.lookup key with
  | none => exact .inl rfl
  | some e =>
    simp only []
    split_ifs
    · exact .inr ⟨e, rfl⟩
    · exact .inl rfl
    · exact .inl rfl

theorem evict_cases (env : Env) (s : KvEngine) :
    ((s.selectVictim env).1 = none ∧ (Deed.evict env).apply s = (s.selectVictim env).2)
      ∨ ∃ victim, (s.selectVictim env).1 = some victim
        ∧ (Deed.evict env).apply s = (s.selectVictim env).2.evictVictim victim := by
  simp only [Deed.apply]
  rcases s.selectVictim env with ⟨_ | victim, s'⟩
  · exact .inl ⟨rfl, rfl⟩
  · exact .inr ⟨victim, rfl, rfl⟩

theorem Deed.sameConfig (s : KvEngine) (d : Deed) : SameConfig s (d.apply s) := by
  cases d with
  | touch r key => exact touchAccess_sameConfig s r key
  | evict env =>
    rcases evict_cases env s with ⟨-, h⟩ | ⟨victim, -, h⟩ <;> rw [h]
    · exact selectVictim_sameConfig env s
    · exact selectVictim_sameConfig env s
  | deadline env key absEpochMs =>
    rcases deadline_cases env s key absEpochMs with h | h | ⟨e, he, h⟩ <;> rw [h]
    · exact ⟨rfl, rfl⟩
    · exact ⟨rfl, rfl⟩
    · rw [deadlined, setDeadline_of_lookup _ he]
      exact ⟨rfl, rfl⟩
  | persist env key =>
    rcases persist_cases env s key with h | h | ⟨e, he, -, -, h⟩ <;> rw [h]
    · exact ⟨rfl, rfl⟩
    · exact ⟨rfl, rfl⟩
    · rw [persisted, setDeadline_of_lookup _ he]
      exact ⟨rfl, rfl⟩
  | usage env key =>
    rcases usage_cases env s key with h | ⟨e, h⟩ <;> rw [h] <;> exact ⟨rfl, rfl⟩
  | _ => exact ⟨rfl, rfl⟩

/-- A policy change that changes neither configuration nor kind changes nothing. -/
theorem setEvictionConfig_eq_self {s : KvEngine} {cfg : EvictionConfig}
    (h : SameConfig s (s.setEvictionConfig env cfg)) : s.setEvictionConfig env cfg = s := by
  have hkind : cfg.policy.indexKind = s.indexKind :=
    (setEvictionConfig_kindOk env cfg).symm.trans h.2
  obtain rfl : cfg = s.eviction := h.1
  unfold setEvictionConfig
  simp only []
  rw [if_neg (not_not.2 hkind)]

theorem Act.deed (h : Act env cmd s₀ a b) (hsame : SameConfig a b) :
    b = a ∨ ∃ d : Deed, d.apply a = b := by
  cases h with
  | count _ hits misses evicted expired cursor =>
    exact .inr ⟨.count hits misses evicted expired cursor, rfl⟩
  | touch _ r key => exact .inr ⟨.touch r key, rfl⟩
  | remove _ key hk => exact .inr ⟨.remove key, rfl⟩
  | forget _ key hx => exact .inr ⟨.forget key, rfl⟩
  | evict _ victim hv =>
    refine .inr ⟨.evict env, ?_⟩
    rcases evict_cases env a with ⟨h, -⟩ | ⟨v, h, he⟩ <;> rw [hv] at h <;> cases h
    exact he
  | noVictim _ hv =>
    refine .inr ⟨.evict env, ?_⟩
    rcases evict_cases env a with ⟨-, he⟩ | ⟨v, h, -⟩
    · exact he
    · rw [hv] at h
      cases h
  | write _ key value ttl r hv ht => exact .inr ⟨.write _ key _, rfl⟩
  | flush => exact .inr ⟨.flush, rfl⟩
  | config _ cfg => exact .inl (setEvictionConfig_eq_self hsame)
  | deadline key absEpochMs e hc hk he hlt =>
    refine .inr ⟨.deadline env key absEpochMs, ?_⟩
    have hle : ¬ absEpochMs.toInt ≤ env.nowMs.toInt := by omega
    simp [Deed.apply, expireAtMs, KvEngine.expireAt, hk, he, hle, deadlined]
  | persist key e hc hk he hd =>
    refine .inr ⟨.persist env key, ?_⟩
    simp [Deed.apply, KvEngine.persist, hk, he, hd, persisted]
  | discard key e hc hk hs he =>
    refine .inr ⟨.usage env key, ?_⟩
    simp [Deed.apply, memoryUsage, memoryOf, hk, hs, he, discarded]

theorem PlainActs.deeds (h : PlainActs env cmd s₀ a b) :
    ∃ ds : List Deed, ds.foldl Deed.apply a = b := by
  induction h with
  | refl => exact ⟨[], rfl⟩
  | tail _ hstep ih =>
    obtain ⟨ds, hds⟩ := ih
    rcases hstep.1.deed hstep.2 with rfl | ⟨d, hd⟩
    · exact ⟨ds, hds⟩
    · exact ⟨ds ++ [d], by rw [List.foldl_append, hds, List.foldl_cons, List.foldl_nil, hd]⟩

namespace ConfigSystem

variable {s : ConfigSystem} {c : ℕ}

theorem withEviction_self {m : KvEngine} {cfg : EvictionConfig} (h : m.eviction = cfg) :
    { m with eviction := cfg } = m := by
  subst h
  rfl

theorem run_deeds : ∀ (ds : List Deed) {s : ConfigSystem},
    (s.thread c).pc = .writing s.mem.eviction →
    s.run (ds.map (.deed c)) = { s with mem := ds.foldl Deed.apply s.mem }
  | [], _, _ => rfl
  | d :: ds, s, h => by
    have hsame := (Deed.sameConfig s.mem d).1
    have hstep : s.step (.deed c d) = { s with mem := d.apply s.mem } := by
      simp only [step, h, perform]
      rw [withEviction_self hsame]
    have ih := run_deeds ds (s := { s with mem := d.apply s.mem }) (by rw [hsame]; exact h)
    rw [List.map_cons, run, List.foldl_cons, hstep]
    exact ih

theorem run_command (env : Env) (hcmd : ∀ cfg, cmd ≠ .setEvictionConfig cfg)
    (hidle : (s.thread c).pc = .idle) (hw : s.writer = none) (hr : s.readers = ∅) :
    ∃ ds : List Deed, (s.run (.begin c :: (ds.map (.deed c) ++ [.finish c]))).mem
      = (exec env s.mem cmd).2 := by
  obtain ⟨ds, hds⟩ := (exec_plainActs env s.mem hcmd).deeds
  refine ⟨ds, ?_⟩
  have hbegin : s.step (.begin c)
      = { s.setPc c (.writing s.mem.eviction) with writer := some c } := by
    simp only [step, hidle, hw, hr, and_self, if_true]
  have hpc : ((s.step (.begin c)).thread c).pc = .writing (s.step (.begin c)).mem.eviction := by
    rw [hbegin]
    simp [setPc, setThread]
  have hmem : (s.step (.begin c)).mem = s.mem := by
    rw [hbegin]
    rfl
  rw [run, List.foldl_cons]
  generalize s.step (.begin c) = t at hpc hmem
  have hrun := run_deeds ds hpc
  rw [run] at hrun
  rw [List.foldl_append, hrun, List.foldl_cons, List.foldl_nil]
  simp only [step, hpc, setPc, setThread]
  rw [hmem]
  exact hds

end ConfigSystem

end Deeds

namespace IndexView

/-- An index that is not in use is empty. -/
def Vacant (v : IndexView) : Prop := v.active = false → v.keys = []

section Vacant

variable {key : Key} {v v' : IndexView}

theorem Vacant.inserted (h : Vacant v) {hasTtl : Bool} (hv : Inserted key hasTtl v v') :
    Vacant v' := by
  intro ha
  rw [hv.active] at ha
  rw [hv.idle ha, h ha]

theorem Vacant.removed (h : Vacant v) (hv : Removed key v v') : Vacant v' := by
  intro ha
  rw [hv.active] at ha
  rw [hv.idle ha, h ha]

theorem Vacant.reordered (h : Vacant v) (hv : Reordered v v') : Vacant v' := by
  intro ha
  rw [hv.active] at ha
  refine List.eq_nil_iff_forall_not_mem.2 fun x hx => ?_
  have hin := (hv.keys x).1 hx
  rw [h ha] at hin
  cases hin

end Vacant

end IndexView

def Vacants (s : KvEngine) : Prop := Vacant (sieveView s) ∧ Vacant (acView s)

section Vacants

variable {s : KvEngine} {key : Key}

theorem trackRemove_vacants (h : Vacants s) (key : Key) : Vacants (s.trackRemove key) := by
  obtain ⟨hsv, hac⟩ := notifyRemove_removed s key
  exact ⟨h.1.removed hsv, h.2.removed hac⟩

theorem trackInsert_vacants (h : Vacants s) (key : Key) (e : ValueEntry) :
    Vacants (s.trackInsert key e) := by
  obtain ⟨hsv, hac⟩ := notifyInsert_inserted s key e.expireAt.isSome
  exact ⟨h.1.inserted hsv, h.2.inserted hac⟩

theorem touchAccess_vacants (h : Vacants s) (r : AccessReading) (key : Key) :
    Vacants (s.touchAccess r key) := by
  unfold touchAccess
  split
  · obtain ⟨hsv, hac⟩ := notifyAccess_reordered s key
    exact ⟨h.1.reordered hsv, h.2.reordered hac⟩
  · exact h

theorem deadlined_vacants (h : Vacants s) (env : Env) {e : ValueEntry}
    (he : s.store.lookup key = some e) (absEpochMs : Int64) :
    Vacants (deadlined env s key absEpochMs) := by
  obtain ⟨hsv, hac⟩ := notifyInsert_inserted s key true
  rw [deadlined, setDeadline_of_lookup _ he]
  exact ⟨h.1.inserted hsv, h.2.inserted hac⟩

theorem persisted_vacants (h : Vacants s) {e : ValueEntry} (he : s.store.lookup key = some e) :
    Vacants (persisted s key) := by
  obtain ⟨hsv, hac⟩ := notifyRemove_removed s key
  rw [persisted, setDeadline_of_lookup _ he]
  exact ⟨h.1.removed hsv, h.2.removed hac⟩

theorem selectVictim_empty (env : Env) (s : KvEngine) :
    (s.sieve.queue.keys = [] → (s.selectVictim env).2.sieve.queue.keys = [])
      ∧ (s.ac.queue.keys = [] → (s.selectVictim env).2.ac.queue.keys = []) := by
  have hsieve : s.sieve.queue.keys = [] → (s.evictSieve env).2.sieve.queue.keys = [] := by
    intro h
    have hlen : s.sieve.queue.length = 0 := by rw [← IndexMap.length_keys, h]; rfl
    simp only [evictSieve, SieveState.evictOne, hlen, if_true]
    exact h
  have hac : s.ac.queue.keys = [] → s.evictAc.2.ac.queue.keys = [] := by
    intro h
    simp only [evictAc, AdaptiveClimbState.evictOne, h, List.reverse_nil, List.find?_nil]
  unfold selectVictim
  simp only []
  split
  case h_3 | h_4 | h_5 | h_6 => exact ⟨hsieve, id⟩
  case h_7 | h_8 => exact ⟨id, hac⟩
  all_goals exact ⟨id, id⟩

theorem selectVictim_vacants (h : Vacants s) (env : Env) : Vacants (s.selectVictim env).2 := by
  obtain ⟨hsv, hac⟩ := selectVictim_empty env s
  have hkind := (selectVictim_sameConfig env s).2
  unfold Vacants Vacant sieveView acView at h ⊢
  rw [hkind]
  exact ⟨fun ha => hsv (h.1 ha), fun ha => hac (h.2 ha)⟩

end Vacants

/-- Whether a deed keeps every key in scope in the index in use: it is no sweep for fewer keys than
the queue was built for, and no `PERSIST` that clears a deadline where an index is in use for all
keys. -/
def Deed.Safe (s : KvEngine) : Deed → Prop
  | .evict _ => ScanFits s
  | .persist env key =>
    s.indexKind ≠ .none → s.indexKind.scope = .allKeys →
      ∀ e, s.store.lookup key = some e → e.isExpired env.now = false → e.expireAt = none
  | _ => True

section Keep

variable {s : KvEngine}

theorem Deed.queued {d : Deed} (hd : d.Safe s) (h : Queued s) : Queued (d.apply s) := by
  cases d with
  | count => exact h.of_eq rfl rfl rfl rfl
  | touch r key => exact touchAccess_queued h r key
  | remove key => exact (trackRemove_queued h key).of_eq rfl rfl rfl rfl
  | forget key => exact trackRemove_queued h key
  | evict env =>
    rcases evict_cases env s with ⟨hv, he⟩ | ⟨victim, hv, he⟩ <;> rw [he]
    · exact noVictim_queued env h hd hv
    · exact evictVictim_queued env h hd hv
  | write records key entry =>
    have hlog : Queued (s.appendAof records) := h.of_eq rfl rfl rfl rfl
    exact trackInsert_queued hlog key entry
  | flush => exact clear_queued h
  | deadline env key absEpochMs =>
    rcases deadline_cases env s key absEpochMs with he | he | ⟨e, hl, he⟩ <;> rw [he]
    · exact h
    · exact (trackRemove_queued h key).of_eq rfl rfl rfl rfl
    · exact deadlined_queued h env hl absEpochMs
  | persist env key =>
    rcases persist_cases env s key with he | he | ⟨e, hl, hx, hne, he⟩ <;> rw [he]
    · exact h
    · exact (trackRemove_queued h key).of_eq rfl rfl rfl rfl
    · refine persisted_queued h hl fun hkind => ?_
      cases hs : s.indexKind.scope with
      | allKeys => exact absurd (hd hkind hs e hl hx) hne
      | volatile => rfl
  | usage env key =>
    rcases usage_cases env s key with he | ⟨e, he⟩ <;> rw [he]
    · exact h
    · exact discarded_queued h key e

theorem Deed.vacants (d : Deed) (h : Vacants s) : Vacants (d.apply s) := by
  cases d with
  | count => exact h
  | touch r key => exact touchAccess_vacants h r key
  | remove key => exact trackRemove_vacants h key
  | forget key => exact trackRemove_vacants h key
  | evict env =>
    have hsel := selectVictim_vacants h env
    rcases evict_cases env s with ⟨-, he⟩ | ⟨victim, -, he⟩ <;> rw [he]
    · exact hsel
    · exact trackRemove_vacants hsel victim
  | write records key entry =>
    have hlog : Vacants (s.appendAof records) := h
    exact trackInsert_vacants hlog key entry
  | flush => exact ⟨fun _ => rfl, fun _ => rfl⟩
  | deadline env key absEpochMs =>
    rcases deadline_cases env s key absEpochMs with he | he | ⟨e, hl, he⟩ <;> rw [he]
    · exact h
    · exact trackRemove_vacants h key
    · exact deadlined_vacants h env hl absEpochMs
  | persist env key =>
    rcases persist_cases env s key with he | he | ⟨e, hl, -, -, he⟩ <;> rw [he]
    · exact h
    · exact trackRemove_vacants h key
    · exact persisted_vacants h hl
  | usage env key =>
    rcases usage_cases env s key with he | ⟨e, he⟩ <;> rw [he]
    · exact h
    · exact h

end Keep

/-! ## Phases of a switch -/

/-- The index covers the stored keys in scope where it is in use, and is empty where it is not. -/
def Filled (store : Store) (scope : EvictionScope) (v : IndexView) : Prop :=
  Covers store scope v ∧ Vacant v

def sieveAs (kind : IndexKind) (s : KvEngine) : IndexView :=
  ⟨kind.isSieve, s.sieve.scope, s.sieve.queue.keys⟩

def acAs (kind : IndexKind) (s : KvEngine) : IndexView := ⟨kind.isAc, s.ac.scope, s.ac.queue.keys⟩

/-- Both indexes are as the kind wants them. -/
structure Fills (kind : IndexKind) (s : KvEngine) : Prop where
  sieve : Filled s.store kind.scope (sieveAs kind s)
  ac : Filled s.store kind.scope (acAs kind s)

/-- The index that `set_eviction_config` changes first is as the kind wants it. -/
structure FillsFirst (kind : IndexKind) (s : KvEngine) : Prop where
  sieve : kind.isAc = false → Filled s.store kind.scope (sieveAs kind s)
  ac : kind.isAc = true → Filled s.store kind.scope (acAs kind s)

/-- The kind in use is that of the policy, and both indexes are as it wants them. -/
def Matched (s : KvEngine) : Prop := KindOk s ∧ Fills s.indexKind s

/-- What holds of the engine while a thread with a configuration of the kind is in
`set_eviction_config`. -/
def Phase (s : KvEngine) (kind : IndexKind) : ThreadPc → Prop
  | .rebuilt => FillsFirst kind s
  | .cleared => Fills kind s
  | .installing => kind = s.indexKind ∧ Fills s.indexKind s
  | _ => Matched s

/-- The keys in the store and in the indexes are the same, maybe in another order. -/
structure Reorders (s s' : KvEngine) : Prop where
  config : SameConfig s s'
  store : ∀ scope k, InScope s'.store scope k ↔ InScope s.store scope k
  sieve : s'.sieve.scope = s.sieve.scope ∧ ∀ x, x ∈ s'.sieve.queue.keys ↔ x ∈ s.sieve.queue.keys
  ac : s'.ac.scope = s.ac.scope ∧ ∀ x, x ∈ s'.ac.queue.keys ↔ x ∈ s.ac.queue.keys

section Phase

variable {s s' : KvEngine} {kind : IndexKind}

theorem fills_self : Fills s.indexKind s ↔ Queued s ∧ Vacants s :=
  ⟨fun h => ⟨⟨h.sieve.1, h.ac.1⟩, h.sieve.2, h.ac.2⟩,
    fun h => ⟨⟨h.1.sieve, h.2.1⟩, ⟨h.1.ac, h.2.2⟩⟩⟩

theorem filled_empty {active : Bool} {scope scope' : EvictionScope} {store : Store}
    (h : active = false) : Filled store scope ⟨active, scope', []⟩ :=
  ⟨covers_idle h, fun _ => rfl⟩

theorem filled_of_tracks {active : Bool} {scope : EvictionScope} {store : Store} {keys : List Key}
    (h : active = true) (hk : ∀ k, k ∈ keys ↔ InScope store scope k) :
    Filled store scope ⟨active, scope, keys⟩ := by
  refine ⟨fun _ => ⟨rfl, fun k => (hk k).2⟩, fun ha => ?_⟩
  rw [show active = false from ha] at h
  cases h

namespace Reorders

theorem sieve_filled (hr : Reorders s s') (h : Filled s.store kind.scope (sieveAs kind s)) :
    Filled s'.store kind.scope (sieveAs kind s') := by
  have hv : Reordered (sieveAs kind s) (sieveAs kind s') := ⟨rfl, hr.sieve.1, hr.sieve.2⟩
  exact ⟨(h.1.mono fun k => (hr.store _ k).1).reordered hv, h.2.reordered hv⟩

theorem ac_filled (hr : Reorders s s') (h : Filled s.store kind.scope (acAs kind s)) :
    Filled s'.store kind.scope (acAs kind s') := by
  have hv : Reordered (acAs kind s) (acAs kind s') := ⟨rfl, hr.ac.1, hr.ac.2⟩
  exact ⟨(h.1.mono fun k => (hr.store _ k).1).reordered hv, h.2.reordered hv⟩

theorem fills (hr : Reorders s s') (h : Fills kind s) : Fills kind s' :=
  ⟨hr.sieve_filled h.sieve, hr.ac_filled h.ac⟩

theorem matched (hr : Reorders s s') (h : Matched s) : Matched s' := by
  obtain ⟨hk, hf⟩ := h
  refine ⟨?_, ?_⟩
  · unfold KindOk
    rw [hr.config.1, hr.config.2]
    exact hk
  · rw [hr.config.2]
    exact hr.fills hf

theorem phase (hr : Reorders s s') {pc : ThreadPc} (h : Phase s kind pc) : Phase s' kind pc := by
  cases pc with
  | rebuilt => exact ⟨fun hk => hr.sieve_filled (h.sieve hk), fun hk => hr.ac_filled (h.ac hk)⟩
  | cleared => exact hr.fills h
  | installing =>
    refine ⟨h.1.trans hr.config.2.symm, ?_⟩
    rw [hr.config.2]
    exact hr.fills h.2
  | _ => exact hr.matched h

theorem refl (s : KvEngine) : Reorders s s :=
  ⟨⟨rfl, rfl⟩, fun _ _ => Iff.rfl, ⟨rfl, fun _ => Iff.rfl⟩, ⟨rfl, fun _ => Iff.rfl⟩⟩

theorem touched {key : Key} {e : ValueEntry} (r : AccessReading) (he : s.store.lookup key = some e) :
    Reorders s { s with store := s.store.insert key (e.touch r) } :=
  ⟨⟨rfl, rfl⟩, fun _ k => inScope_insert_of_expireAt (e.touch r) he rfl k,
    ⟨rfl, fun _ => Iff.rfl⟩, ⟨rfl, fun _ => Iff.rfl⟩⟩

theorem sieveTold (s : KvEngine) (key : Key) :
    Reorders s { s with sieve := s.sieve.observeAccess key } :=
  ⟨⟨rfl, rfl⟩, fun _ _ => Iff.rfl,
    ⟨rfl, fun x => by simp only [SieveState.keys_observeAccess]⟩, ⟨rfl, fun _ => Iff.rfl⟩⟩

theorem acTold (s : KvEngine) (key : Key) : Reorders s { s with ac := s.ac.observeAccess key } :=
  ⟨⟨rfl, rfl⟩, fun _ _ => Iff.rfl, ⟨rfl, fun _ => Iff.rfl⟩,
    ⟨AdaptiveClimbState.observeAccess_scope s.ac key,
      fun _ => AdaptiveClimbState.mem_keys_observeAccess s.ac key⟩⟩

end Reorders

/-- A deed of a command keeps both indexes, whatever configuration the command read. -/
theorem Deed.fills {cfg : EvictionConfig} {d : Deed} (hd : d.Safe { s with eviction := cfg })
    (h : Fills s.indexKind s) :
    (d.apply { s with eviction := cfg }).indexKind = s.indexKind
      ∧ Fills s.indexKind { d.apply { s with eviction := cfg } with eviction := s.eviction } := by
  obtain ⟨hq, hv⟩ := fills_self.1 h
  have hq' : Queued { s with eviction := cfg } := hq.of_eq rfl rfl rfl rfl
  have hkind := (Deed.sameConfig { s with eviction := cfg } d).2
  have hfills := fills_self.2 ⟨Deed.queued hd hq', Deed.vacants (s := { s with eviction := cfg }) d hv⟩
  rw [hkind] at hfills
  exact ⟨hkind, hfills.sieve, hfills.ac⟩

end Phase

namespace ConfigSystem

/-! ## Locks -/

def Shared : ThreadPc → Prop
  | .locked | .rebuilt | .cleared | .reading | .touched _ | .sieveSeen .. | .sieveTold _
  | .acSeen .. => True
  | _ => False

/-- The locks are held by the threads that are where they hold them, and exclude each other. -/
structure Orderly (s : ConfigSystem) : Prop where
  writing : ∀ c cfg, (s.thread c).pc = .writing cfg → s.writer = some c
  shared : ∀ c, Shared (s.thread c).pc → c ∈ s.readers
  excludes : s.writer ≠ none → s.readers = ∅

section Orderly

variable {s s' : ConfigSystem} {c : ℕ} {t : ConfigThread}

theorem Orderly.moved (h : Orderly s) (ht : s'.thread = Function.update s.thread c t)
    (hw : s'.writer = s.writer) (hr : s'.readers = s.readers)
    (hwriting : ∀ cfg, t.pc = .writing cfg → ∃ cfg', (s.thread c).pc = .writing cfg')
    (hshared : Shared t.pc → Shared (s.thread c).pc) : Orderly s' := by
  refine ⟨fun c' cfg hpc => ?_, fun c' hpc => ?_, ?_⟩
  · rw [ht] at hpc
    rw [hw]
    by_cases hne : c' = c
    · subst hne
      rw [Function.update_self] at hpc
      obtain ⟨cfg', hpc'⟩ := hwriting cfg hpc
      exact h.writing c' cfg' hpc'
    · rw [Function.update_of_ne hne] at hpc
      exact h.writing c' cfg hpc
  · rw [ht] at hpc
    rw [hr]
    by_cases hne : c' = c
    · subst hne
      rw [Function.update_self] at hpc
      exact h.shared c' (hshared hpc)
    · rw [Function.update_of_ne hne] at hpc
      exact h.shared c' hpc
  · rw [hw, hr]
    exact h.excludes

theorem Orderly.acquire (h : Orderly s) (ht : s'.thread = Function.update s.thread c t)
    (hw : s.writer = none) (hw' : s'.writer = none) (hr : s'.readers = insert c s.readers)
    (hwriting : ∀ cfg, t.pc ≠ .writing cfg) : Orderly s' := by
  refine ⟨fun c' cfg hpc => ?_, fun c' hpc => ?_, fun hne => absurd hw' hne⟩
  · rw [ht] at hpc
    by_cases hne : c' = c
    · subst hne
      rw [Function.update_self] at hpc
      exact absurd hpc (hwriting cfg)
    · rw [Function.update_of_ne hne] at hpc
      rw [hw', ← hw]
      exact h.writing c' cfg hpc
  · rw [hr]
    by_cases hne : c' = c
    · exact hne ▸ Finset.mem_insert_self c s.readers
    · rw [ht, Function.update_of_ne hne] at hpc
      exact Finset.mem_insert_of_mem (h.shared c' hpc)

theorem Orderly.release (h : Orderly s) (ht : s'.thread = Function.update s.thread c t)
    (hw : s'.writer = s.writer) (hr : s'.readers = s.readers.erase c)
    (hwriting : ∀ cfg, t.pc ≠ .writing cfg) (hshared : ¬ Shared t.pc) : Orderly s' := by
  refine ⟨fun c' cfg hpc => ?_, fun c' hpc => ?_, fun hne => ?_⟩
  · rw [ht] at hpc
    rw [hw]
    by_cases hne : c' = c
    · subst hne
      rw [Function.update_self] at hpc
      exact absurd hpc (hwriting cfg)
    · rw [Function.update_of_ne hne] at hpc
      exact h.writing c' cfg hpc
  · rw [ht] at hpc
    rw [hr]
    by_cases hne : c' = c
    · subst hne
      rw [Function.update_self] at hpc
      exact absurd hpc hshared
    · rw [Function.update_of_ne hne] at hpc
      exact Finset.mem_erase_of_ne_of_mem hne (h.shared c' hpc)
  · rw [hr, h.excludes (hw ▸ hne), Finset.erase_empty]

theorem Orderly.begin (h : Orderly s) (hw : s.writer = none) (hr : s.readers = ∅) :
    Orderly { s.setPc c (.writing s.mem.eviction) with writer := some c } := by
  have hothers : ∀ c', c' ≠ c → (s.setPc c (.writing s.mem.eviction)).thread c' = s.thread c' :=
    fun c' hne => Function.update_of_ne hne _ _
  refine ⟨fun c' cfg hpc => ?_, fun c' hpc => ?_, fun _ => hr⟩
  · by_cases hne : c' = c
    · rw [hne]
    · have hpc' : (s.thread c').pc = .writing cfg := hothers c' hne ▸ hpc
      rw [h.writing c' cfg hpc'] at hw
      cases hw
  · by_cases hne : c' = c
    · subst hne
      simp [setPc, setThread, Shared] at hpc
    · exact h.shared c' (hothers c' hne ▸ hpc)

theorem Orderly.finish (h : Orderly s) {cfg : EvictionConfig} (hpc : (s.thread c).pc = .writing cfg) :
    Orderly { s.setPc c .idle with writer := none } := by
  have hothers : ∀ c', c' ≠ c → (s.setPc c .idle).thread c' = s.thread c' :=
    fun c' hne => Function.update_of_ne hne _ _
  refine ⟨fun c' cfg' hpc' => ?_, fun c' hpc' => ?_, fun hne => absurd rfl hne⟩
  · by_cases hne : c' = c
    · subst hne
      simp [setPc, setThread] at hpc'
    · have hw := h.writing c' cfg' (hothers c' hne ▸ hpc')
      rw [h.writing c cfg hpc] at hw
      exact absurd (Option.some.inj hw).symm hne
  · by_cases hne : c' = c
    · subst hne
      simp [setPc, setThread, Shared] at hpc'
    · exact h.shared c' (hothers c' hne ▸ hpc')

/-- While a command has the exclusive lock, no thread has the shared one. -/
theorem Orderly.not_shared (h : Orderly s) {cfg : EvictionConfig}
    (hpc : (s.thread c).pc = .writing cfg) (c' : ℕ) : ¬ Shared (s.thread c').pc := by
  intro hs
  have hin := h.shared c' hs
  rw [h.excludes (by simp [h.writing c cfg hpc])] at hin
  cases hin

end Orderly

/-! ## The invariant -/

/-- At most one thread is in `set_eviction_config`, and the indexes are as they are at its place; they
match the policy where no thread is. -/
structure Coordinated (s : ConfigSystem) : Prop where
  orderly : Orderly s
  alone : ∀ c c', InCall (s.thread c).pc → InCall (s.thread c').pc → c = c'
  phase : ∀ c, InCall (s.thread c).pc → Phase s.mem (s.newKind c) (s.thread c).pc
  matched : (∀ c, ¬ InCall (s.thread c).pc) → Matched s.mem

theorem coordinated_start (aof : Option (List AofRecord)) : Coordinated (start (startWith aof)) :=
  ⟨⟨fun _ _ h => (by cases h), fun _ h => h.elim, fun _ => rfl⟩, fun _ _ h => h.elim,
    fun _ h => h.elim, fun _ => ⟨rfl, ⟨covers_idle rfl, fun _ => rfl⟩, ⟨covers_idle rfl, fun _ => rfl⟩⟩⟩

section Coordinated

variable {s s' : ConfigSystem} {c : ℕ} {t : ConfigThread}

/-- A thread outside of `set_eviction_config` moves, and stays outside. -/
theorem Coordinated.bystander (h : Coordinated s) (ho : Orderly s')
    (ht : s'.thread = Function.update s.thread c t) (hout : ¬ InCall (s.thread c).pc)
    (hout' : ¬ InCall t.pc)
    (hp : ∀ c', InCall (s.thread c').pc → Phase s.mem (s.newKind c') (s.thread c').pc →
      Phase s'.mem (s.newKind c') (s.thread c').pc)
    (hs : Matched s.mem → Matched s'.mem) : Coordinated s' := by
  have hin : ∀ c', InCall (s'.thread c').pc → s'.thread c' = s.thread c' := by
    intro c' hc'
    rw [ht] at hc' ⊢
    by_cases hne : c' = c
    · subst hne
      rw [Function.update_self] at hc'
      exact absurd hc' hout'
    · exact Function.update_of_ne hne _ _
  refine ⟨ho, fun c₁ c₂ h₁ h₂ => ?_, fun c' hc' => ?_, fun hnone => hs (h.matched fun c' hc' => ?_)⟩
  · exact h.alone c₁ c₂ (hin c₁ h₁ ▸ h₁) (hin c₂ h₂ ▸ h₂)
  · have heq := hin c' hc'
    unfold newKind
    rw [heq] at hc' ⊢
    exact hp c' hc' (h.phase c' hc')
  · refine hnone c' ?_
    rw [ht]
    by_cases hne : c' = c
    · subst hne
      exact absurd hc' hout
    · rw [Function.update_of_ne hne]
      exact hc'

theorem Coordinated.reordered (h : Coordinated s) (ho : Orderly s')
    (ht : s'.thread = Function.update s.thread c t) (hout : ¬ InCall (s.thread c).pc)
    (hout' : ¬ InCall t.pc) (hr : Reorders s.mem s'.mem) : Coordinated s' :=
  h.bystander ho ht hout hout' (fun _ _ hp => hr.phase hp) hr.matched

theorem Coordinated.of_moved (ho : Orderly s') (ht : s'.thread = Function.update s.thread c t)
    (hothers : ∀ c', c' ≠ c → ¬ InCall (s.thread c').pc)
    (hin : InCall t.pc → Phase s'.mem t.cfg.policy.indexKind t.pc)
    (hout : ¬ InCall t.pc → Matched s'.mem) : Coordinated s' := by
  have hself : s'.thread c = t := by rw [ht, Function.update_self]
  have hof : ∀ c', InCall (s'.thread c').pc → c' = c := by
    intro c' hc'
    by_contra hne
    rw [ht, Function.update_of_ne hne] at hc'
    exact hothers c' hne hc'
  refine ⟨ho, fun c₁ c₂ h₁ h₂ => (hof c₁ h₁).trans (hof c₂ h₂).symm, fun c' hc' => ?_,
    fun hnone => hout fun hc => hnone c (hself.symm ▸ hc)⟩
  obtain rfl := hof c' hc'
  unfold newKind
  rw [hself] at hc' ⊢
  exact hin hc'

theorem Coordinated.others (h : Coordinated s) (hin : InCall (s.thread c).pc) :
    ∀ c', c' ≠ c → ¬ InCall (s.thread c').pc :=
  fun c' hne hc' => hne (h.alone c' c hc' hin)

/-! ## Steps of a switch -/

theorem load_coordinated (h : Coordinated s) (ha : Apart s (.load c)) :
    Coordinated (s.step (.load c)) := by
  simp only [step]
  split_ifs with hpc hkind
  · have hnone := ha hpc
    refine .of_moved (h.orderly.moved rfl rfl rfl (by simp) (by simp [Shared])) rfl
      (fun c' _ => hnone c') (fun _ => ⟨hkind, (h.matched hnone).2⟩) fun hout => ?_
    exact (hout trivial).elim
  · have hnone := ha hpc
    refine .of_moved (h.orderly.moved rfl rfl rfl (by simp) (by simp [Shared])) rfl
      (fun c' _ => hnone c') (fun _ => h.matched hnone) fun hout => ?_
    exact (hout trivial).elim
  · exact h

theorem lock_coordinated (h : Coordinated s) : Coordinated (s.step (.lock c)) := by
  simp only [step]
  split_ifs with hg
  · have hin : InCall (s.thread c).pc := by simp [hg.1, InCall]
    have hp := h.phase c hin
    rw [hg.1] at hp
    exact .of_moved (h.orderly.acquire rfl hg.2 hg.2 rfl (by simp)) rfl (h.others hin) (fun _ => hp)
      fun _ => hp
  · exact h

theorem filled_rebuild {kind : IndexKind} {p : EvictionPolicy} {store : Store} {keys : List Key}
    {active : Bool} (hkind : p.indexKind = kind) (hne : kind ≠ .none) (ha : active = true)
    (hk : ∀ k, k ∈ keys ↔ InScope store p.scope k) :
    Filled store kind.scope ⟨active, p.scope, keys⟩ := by
  have hscope : p.scope = kind.scope := hkind ▸ scope_of_indexKind (hkind ▸ hne)
  rw [← hscope]
  exact filled_of_tracks ha hk

theorem rebuild_coordinated (h : Coordinated s) (env : Env) :
    Coordinated (s.step (.rebuild c env)) := by
  simp only [step]
  split_ifs with hpc
  swap
  · exact h
  have hin : InCall (s.thread c).pc := by simp [hpc, InCall]
  have hshared : Shared (s.thread c).pc := by simp [hpc, Shared]
  unfold rebuildFirst
  split_ifs with hsv hown hac hown hown <;> try exact h
  · refine .of_moved (h.orderly.moved rfl rfl rfl (by simp) fun _ => hshared) rfl (h.others hin)
      (fun _ => ⟨fun _ => ?_, fun hac => ?_⟩) fun hout => (hout trivial).elim
    · exact filled_rebuild rfl (ne_none_of_isSieve hsv) hsv fun _ => SieveState.mem_keys_rebuild
    · cases hac.symm.trans (isAc_of_isSieve hsv)
  · refine .of_moved (h.orderly.moved rfl rfl rfl (by simp) fun _ => hshared) rfl (h.others hin)
      (fun _ => ⟨fun hac' => ?_, fun _ => ?_⟩) fun hout => (hout trivial).elim
    · cases hac.symm.trans hac'
    · exact filled_rebuild rfl (ne_none_of_isAc hac) hac
        fun _ => AdaptiveClimbState.mem_keys_rebuild
  · refine .of_moved (h.orderly.moved rfl rfl rfl (by simp) fun _ => hshared) rfl (h.others hin)
      (fun _ => ⟨fun _ => ?_, fun hac' => absurd hac' hac⟩) fun hout => (hout trivial).elim
    exact filled_empty (Bool.eq_false_iff.2 hsv)

theorem clear_coordinated (h : Coordinated s) : Coordinated (s.step (.clear c)) := by
  simp only [step]
  split_ifs with hpc
  swap
  · exact h
  have hin : InCall (s.thread c).pc := by simp [hpc, InCall]
  have hshared : Shared (s.thread c).pc := by simp [hpc, Shared]
  have hp := h.phase c hin
  rw [hpc] at hp
  unfold clearSecond
  split_ifs with hsv hown hac hown hown <;> try exact h
  · refine .of_moved (h.orderly.moved rfl rfl rfl (by simp) fun _ => hshared) rfl (h.others hin)
      (fun _ => ⟨hp.sieve (isAc_of_isSieve hsv), ?_⟩) fun hout => (hout trivial).elim
    exact filled_empty (isAc_of_isSieve hsv)
  · refine .of_moved (h.orderly.moved rfl rfl rfl (by simp) fun _ => hshared) rfl (h.others hin)
      (fun _ => ⟨?_, hp.ac hac⟩) fun hout => (hout trivial).elim
    exact filled_empty (isSieve_of_isAc hac)
  · rw [Bool.not_eq_true] at hac
    refine .of_moved (h.orderly.moved rfl rfl rfl (by simp) fun _ => hshared) rfl (h.others hin)
      (fun _ => ⟨hp.sieve hac, ?_⟩) fun hout => (hout trivial).elim
    exact filled_empty hac

theorem publish_coordinated (h : Coordinated s) : Coordinated (s.step (.publish c)) := by
  simp only [step]
  split_ifs with hpc
  · have hin : InCall (s.thread c).pc := by simp [hpc, InCall]
    have hp := h.phase c hin
    rw [hpc] at hp
    refine .of_moved (h.orderly.release rfl rfl rfl (by simp) (by simp [Shared])) rfl (h.others hin)
      (fun _ => ⟨rfl, hp.sieve, hp.ac⟩) fun hout => (hout trivial).elim
  · exact h

theorem install_coordinated (h : Coordinated s) : Coordinated (s.step (.install c)) := by
  simp only [step]
  split_ifs with hpc
  · have hin : InCall (s.thread c).pc := by simp [hpc, InCall]
    have hp := h.phase c hin
    rw [hpc] at hp
    exact .of_moved (h.orderly.moved rfl rfl rfl (by simp) (by simp [Shared])) rfl (h.others hin)
      (fun hc => hc.elim) fun _ => ⟨hp.1.symm, hp.2.sieve, hp.2.ac⟩
  · exact h

/-! ## Steps of the others -/

theorem request_coordinated (h : Coordinated s) (change : Change) :
    Coordinated (s.step (.request c change)) := by
  simp only [step]
  split_ifs with hpc
  · exact h.reordered (h.orderly.moved rfl rfl rfl (by simp) (by simp [Shared])) rfl
      (by simp [hpc, InCall]) (by simp [InCall]) (.refl s.mem)
  · exact h

theorem share_coordinated (h : Coordinated s) : Coordinated (s.step (.share c)) := by
  simp only [step]
  split_ifs with hg
  · exact h.reordered (h.orderly.acquire rfl hg.2 hg.2 rfl (by simp)) rfl (by simp [hg.1, InCall])
      (by simp [InCall]) (.refl s.mem)
  · exact h

theorem touch_coordinated (h : Coordinated s) (r : AccessReading) (key : Key) :
    Coordinated (s.step (.touch c r key)) := by
  simp only [step, touchEntry]
  split_ifs with hpc
  · split
    · rename_i e he
      exact h.reordered (h.orderly.moved rfl rfl rfl (by simp) (by simp [hpc, Shared])) rfl
        (by simp [hpc, InCall]) (by simp [InCall]) (.touched r he)
    · exact h
  · exact h

theorem peek_coordinated (h : Coordinated s) : Coordinated (s.step (.peek c)) := by
  simp only [step]
  split
  · rename_i key hpc
    exact h.reordered (h.orderly.moved rfl rfl rfl (by simp) (by simp [hpc, Shared])) rfl
      (by simp [hpc, InCall]) (by simp [InCall]) (.refl s.mem)
  · rename_i key hpc
    exact h.reordered (h.orderly.moved rfl rfl rfl (by simp) (by simp [hpc, Shared])) rfl
      (by simp [hpc, InCall]) (by simp [InCall]) (.refl s.mem)
  · exact h

theorem tell_coordinated (h : Coordinated s) : Coordinated (s.step (.tell c)) := by
  simp only [step, tellIndex]
  split
  · rename_i key kind hpc
    have hout : ¬ InCall (s.thread c).pc := by simp [hpc, InCall]
    split_ifs
    · exact h.reordered (h.orderly.moved rfl rfl rfl (by simp) (by simp [hpc, Shared])) rfl hout
        (by simp [InCall]) (.refl s.mem)
    · exact h.reordered (h.orderly.moved rfl rfl rfl (by simp) (by simp [hpc, Shared])) rfl hout
        (by simp [InCall]) (.sieveTold s.mem key)
    · exact h
  · rename_i key kind hpc
    have hout : ¬ InCall (s.thread c).pc := by simp [hpc, InCall]
    split_ifs
    · exact h.reordered (h.orderly.moved rfl rfl rfl (by simp) (by simp [hpc, Shared])) rfl hout
        (by simp [InCall]) (.refl s.mem)
    · exact h.reordered (h.orderly.moved rfl rfl rfl (by simp) (by simp [hpc, Shared])) rfl hout
        (by simp [InCall]) (.acTold s.mem key)
    · exact h
  · exact h

theorem unshare_coordinated (h : Coordinated s) : Coordinated (s.step (.unshare c)) := by
  simp only [step]
  split_ifs with hpc
  · exact h.reordered (h.orderly.release rfl rfl rfl (by simp) (by simp [Shared])) rfl
      (by simp [hpc, InCall]) (by simp [InCall]) (.refl s.mem)
  · exact h

theorem begin_coordinated (h : Coordinated s) : Coordinated (s.step (.begin c)) := by
  simp only [step]
  split_ifs with hg
  · exact h.reordered (h.orderly.begin hg.2.1 hg.2.2) rfl (by simp [hg.1, InCall])
      (by simp [InCall]) (.refl s.mem)
  · exact h

theorem copy_coordinated (h : Coordinated s) : Coordinated (s.step (.copy c)) := by
  simp only [step]
  split
  · rename_i cfg hpc
    exact h.reordered (h.orderly.moved rfl rfl rfl (by simp [hpc]) (by simp [Shared])) rfl
      (by simp [hpc, InCall]) (by simp [InCall]) (.refl s.mem)
  · exact h

theorem finish_coordinated (h : Coordinated s) : Coordinated (s.step (.finish c)) := by
  simp only [step]
  split
  · rename_i cfg hpc
    exact h.reordered (h.orderly.finish hpc) rfl (by simp [hpc, InCall]) (by simp [InCall])
      (.refl s.mem)
  · exact h

theorem deed_coordinated (h : Coordinated s) {d : Deed}
    (hd : ∀ cfg, (s.thread c).pc = .writing cfg → d.Safe { s.mem with eviction := cfg }) :
    Coordinated (s.step (.deed c d)) := by
  simp only [step]
  split
  · rename_i cfg hpc
    have hfills := fun hf => Deed.fills (hd cfg hpc) hf
    have hmatched : Matched s.mem → Matched (s.perform cfg d).mem := by
      rintro ⟨hk, hf⟩
      obtain ⟨hkind, hf'⟩ := hfills hf
      refine ⟨hkind.trans hk, ?_⟩
      exact hkind.symm ▸ hf'
    refine h.bystander (c := c) (t := s.thread c) ?_ (Function.update_eq_self c s.thread).symm
      (by simp [hpc, InCall]) (by simp [hpc, InCall]) (fun c' hin hp => ?_) hmatched
    · exact ⟨h.orderly.writing, h.orderly.shared, h.orderly.excludes⟩
    · have hns := h.orderly.not_shared hpc c'
      cases hpc' : (s.thread c').pc <;> rw [hpc'] at hin hp hns
      case switching => exact hmatched hp
      case installing =>
        obtain ⟨hkind, hf'⟩ := hfills hp.2
        exact ⟨hp.1.trans hkind.symm, hkind.symm ▸ hf'⟩
      case locked | rebuilt | cleared => exact absurd trivial hns
      all_goals exact hin.elim
  · exact h

end Coordinated

/-- The step begins no call while another one is in progress, and no deed that takes a key in scope
from the index in use. -/
def Calm (s : ConfigSystem) (e : Event) : Prop :=
  Apart s e ∧ ∀ c d cfg, e = .deed c d → (s.thread c).pc = .writing cfg →
    d.Safe { s.mem with eviction := cfg }

theorem step_coordinated {s : ConfigSystem} (h : Coordinated s) {e : Event} (he : Calm s e) :
    Coordinated (s.step e) := by
  cases e with
  | request c change => exact request_coordinated h change
  | load c => exact load_coordinated h he.1
  | lock c => exact lock_coordinated h
  | rebuild c env => exact rebuild_coordinated h env
  | clear c => exact clear_coordinated h
  | publish c => exact publish_coordinated h
  | install c => exact install_coordinated h
  | share c => exact share_coordinated h
  | touch c r key => exact touch_coordinated h r key
  | peek c => exact peek_coordinated h
  | tell c => exact tell_coordinated h
  | unshare c => exact unshare_coordinated h
  | begin c => exact begin_coordinated h
  | copy c => exact copy_coordinated h
  | deed c d => exact deed_coordinated h fun cfg hpc => he.2 c d cfg rfl hpc
  | finish c => exact finish_coordinated h

theorem run_coordinated (aof : Option (List AofRecord)) (events : List Event)
    (he : ∀ n e, events[n]? = some e → Calm ((start (startWith aof)).run (events.take n)) e) :
    Coordinated ((start (startWith aof)).run events) := by
  have h : ∀ n, Coordinated ((events.take n).foldl step (start (startWith aof))) :=
    Runs.forall_take (coordinated_start aof) fun n e hn ih => step_coordinated ih (he n e hn)
  have hlast := h events.length
  rwa [List.take_length] at hlast

/-! ## Coherence -/

/-- An index of the kind in use was built for the scope of the policy and holds every stored key in
it; one that is not in use is empty. -/
def Serves (s : KvEngine) (active : Bool) (scope : EvictionScope) (keys : List Key) : Prop :=
  if active then
    scope = s.eviction.policy.scope ∧ ∀ k, InScope s.store s.eviction.policy.scope k → k ∈ keys
  else keys = []

/-- The kind in use is that of the policy, and both indexes serve it. -/
def Coherent (s : KvEngine) : Prop :=
  s.indexKind = s.eviction.policy.indexKind
    ∧ Serves s s.indexKind.isSieve s.sieve.scope s.sieve.queue.keys
    ∧ Serves s s.indexKind.isAc s.ac.scope s.ac.queue.keys

theorem serves_of_filled {s : KvEngine} (hk : KindOk s) {v : IndexView}
    (h : Filled s.store s.indexKind.scope v) (hne : v.active = true → s.indexKind ≠ .none) :
    Serves s v.active v.scope v.keys := by
  unfold Serves
  split_ifs with ha
  · rw [hk.scope_eq (hne ha)]
    exact h.1 ha
  · exact h.2 (Bool.eq_false_iff.2 ha)

theorem Matched.coherent {s : KvEngine} (h : Matched s) : Coherent s :=
  ⟨h.1, serves_of_filled h.1 h.2.sieve ne_none_of_isSieve,
    serves_of_filled h.1 h.2.ac ne_none_of_isAc⟩

/-- Along a calm schedule the policy and the indexes agree whenever no call is in progress. -/
theorem switch_coherent (aof : Option (List AofRecord)) (events : List Event)
    (he : ∀ n e, events[n]? = some e → Calm ((start (startWith aof)).run (events.take n)) e)
    {s : ConfigSystem} (hrun : (start (startWith aof)).run events = s)
    (hdone : ∀ c, ¬ InCall (s.thread c).pc) : Coherent s.mem := by
  have h := run_coordinated aof events he
  rw [hrun] at h
  exact Matched.coherent (h.matched hdone)

def setting (c : ℕ) (key : Key) : List Event :=
  [.begin c, .deed c (.write [.set key [49]] key (.new ⟨0, 0, false⟩ [49])), .finish c]

/-- A switch to SIEVE while another thread reads a key. -/
def calmSwitch : List Event :=
  setting 1 [97] ++ [.request 0 (.policy .allKeysSieve), .load 0, .lock 0, .share 1,
    .touch 1 ⟨0, 0, false⟩ [97], .rebuild 0 (Env.steady 0), .peek 1, .clear 0, .publish 0, .tell 1,
    .install 0, .peek 1, .tell 1, .unshare 1] ++ setting 2 [98]

theorem switch_coherent_calmSwitch :
    [98] ∈ ((start (startWith none)).run calmSwitch).mem.sieve.queue.keys := by
  have he : ∀ n e, calmSwitch[n]? = some e →
      Calm ((start (startWith none)).run (calmSwitch.take n)) e := by
    rintro (_ | _ | _ | _ | _ | _ | _ | _ | _ | _ | _ | _ | _ | _ | _ | _ | _ | _ | _ | _ | n) e hn <;>
      cases hn
    all_goals first
      | exact ⟨trivial, fun _ _ _ hd _ => (by cases hd <;> trivial)⟩
      | refine ⟨fun _ c' hc' => ?_, fun _ _ _ hd _ => (by cases hd)⟩
        rcases c' with _ | _ | c' <;> cases hc'
  have hdone : ∀ c, ¬ InCall (((start (startWith none)).run calmSwitch).thread c).pc := by
    rintro (_ | _ | _ | c) h <;> cases h
  obtain ⟨-, hsv, -⟩ := switch_coherent none calmSwitch he rfl hdone
  exact hsv.2 [98] (eligible_iff.1 (by decide))

/-- Two switches read the old kind, and the one that publishes last installs first. -/
def overlappingSwitches : List Event :=
  setting 2 [97] ++ [.request 0 (.policy .allKeysSieve), .request 1 (.policy .allKeysAdaptiveClimb),
    .load 0, .load 1, .lock 0, .rebuild 0 (Env.steady 0), .clear 0, .publish 0, .lock 1,
    .rebuild 1 (Env.steady 0), .clear 1, .publish 1, .install 1, .install 0]

/-- Room for two entries, of which the first one has a deadline, under a volatile SIEVE policy. -/
def crowded : List Event :=
  changing 0 (.maxMemory 300) (Env.steady 0) ++ changing 0 (.policy .volatileSieve) (Env.steady 0)
    ++ setting 1 [97] ++ [.begin 1, .deed 1 (.deadline (Env.steady 0) [97] 100), .finish 1]
    ++ setting 1 [98]

/-- Then a switch to all keys, up to the publication of the new kind. -/
def published : List Event :=
  crowded ++ [.request 0 (.policy .allKeysSieve), .load 0, .lock 0, .rebuild 0 (Env.steady 0),
    .clear 0, .publish 0]

/-- What a `SET` of a third key does there. -/
def thirdKey : List Deed :=
  [.evict (Env.steady 0), .write [.set [99] [49]] [99] (.new ⟨0, 0, false⟩ [49])]

/-- That `SET` comes before the new policy is installed. -/
def sweptSwitch : List Event :=
  published ++ .begin 1 :: thirdKey.map (.deed 1) ++ [.finish 1, .install 0]

/-- A `PERSIST` under an all-keys policy. -/
def persistedSwitch : List Event :=
  changing 0 (.policy .allKeysSieve) (Env.steady 0) ++ setting 1 [97]
    ++ [.begin 1, .deed 1 (.deadline (Env.steady 0) [97] 100),
      .deed 1 (.persist (Env.steady 0) [97]), .finish 1]

theorem not_coherent_of_lacks {s : KvEngine} (key : Key) (hsv : s.indexKind.isSieve = true)
    (hk : InScope s.store s.eviction.policy.scope key) (hq : key ∉ s.sieve.queue.keys) :
    ¬ Coherent s := by
  rintro ⟨-, hserves, -⟩
  rw [Serves, if_pos hsv] at hserves
  exact hq (hserves.2 key hk)

set_option maxRecDepth 20000 in
/-- Switches that overlap leave a policy without its index; a sweep for the old policy takes a key
from the new index; `PERSIST` takes its key from an index for all keys. In each run no call is in
progress. -/
theorem switch_incoherent :
    ((∀ c, ¬ InCall (((start (startWith none)).run overlappingSwitches).thread c).pc)
        ∧ ¬ Coherent ((start (startWith none)).run overlappingSwitches).mem)
      ∧ ((∀ c, ¬ InCall (((start (startWith none)).run sweptSwitch).thread c).pc)
        ∧ thirdKey.foldl Deed.apply ((start (startWith none)).run published).mem
          = (exec (Env.steady 0) ((start (startWith none)).run published).mem (.set [99] [49])).2
        ∧ ¬ Coherent ((start (startWith none)).run sweptSwitch).mem)
      ∧ (∀ c, ¬ InCall (((start (startWith none)).run persistedSwitch).thread c).pc)
        ∧ ¬ Coherent ((start (startWith none)).run persistedSwitch).mem := by
  refine ⟨⟨?_, ?_⟩, ⟨?_, rfl, ?_⟩, ?_, ?_⟩
  · rintro (_ | _ | _ | c) h <;> cases h
  · rintro ⟨hkind, -⟩
    revert hkind
    decide
  · rintro (_ | _ | c) h <;> cases h
  · refine not_coherent_of_lacks [98] (by decide) (eligible_iff.1 ?_) ?_
    · decide
    · decide
  · rintro (_ | _ | c) h <;> cases h
  · refine not_coherent_of_lacks [97] (by decide) (eligible_iff.1 ?_) ?_
    · decide
    · decide

end ConfigSystem

end FerrumKv
