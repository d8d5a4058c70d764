import FerrumKv.Effects
import FerrumKv.Lib.Cyclic
import FerrumKv.Proofs.Acts

/-!
# Every command is a sequence of effects

`exec_traced`: a command in any state is a sequence of effects on the keys it names, in which the
uses are `uses` and the expired entries removed are `expirations`, in this order.
-/

namespace FerrumKv

open KvEngine

theorem filterMap_cons_toList {α β : Type*} (f : α → Option β) (a : α) (l : List α) :
    (a :: l).filterMap f = (f a).toList ++ l.filterMap f := by
  rw [List.filterMap_cons]
  rcases f a with _ | b <;> rfl

theorem Trace.append {env : Env} {cmd : Command} {s₀ s t s' : KvEngine} {effs effs' : List Effect}
    (h : Trace env cmd s₀ s effs t) (h' : Trace env cmd s₀ t effs' s') :
    Trace env cmd s₀ s (effs ++ effs') s' := by
  induction h with
  | nil _ => exact h'
  | cons hd _ ih => exact .cons hd (ih h')

/-- The command `cmd` goes from `s` to `s'` by effects with these uses and these expired entries. -/
def Traced (env : Env) (cmd : Command) (s₀ : KvEngine) (used : List (ℕ × Key)) (gone : List Key)
    (s s' : KvEngine) : Prop :=
  ∃ effs, Trace env cmd s₀ s effs s' ∧ effs.filterMap Effect.used = used
    ∧ effs.filterMap Effect.expired = gone

/-- The configuration and the two counters of removals are as they were. -/
def Calm (s s' : KvEngine) : Prop :=
  s'.eviction = s.eviction ∧ s'.expiredKeys = s.expiredKeys ∧ s'.evictedKeys = s.evictedKeys

section Traced

variable {env : Env} {cmd : Command} {s₀ s s' t : KvEngine} {key : Key} {e : ValueEntry}

theorem Traced.refl (s : KvEngine) : Traced env cmd s₀ [] [] s s := ⟨[], .nil s, rfl, rfl⟩

theorem Traced.trans {used used' : List (ℕ × Key)} {gone gone' : List Key}
    (h : Traced env cmd s₀ used gone s t) (h' : Traced env cmd s₀ used' gone' t s') :
    Traced env cmd s₀ (used ++ used') (gone ++ gone') s s' := by
  obtain ⟨effs, ht, rfl, rfl⟩ := h
  obtain ⟨effs', ht', rfl, rfl⟩ := h'
  exact ⟨effs ++ effs', ht.append ht', List.filterMap_append, List.filterMap_append⟩

theorem Effect.Does.traced {eff : Effect} (h : eff.Does env cmd s₀ s s') :
    Traced env cmd s₀ eff.used.toList eff.expired.toList s s' :=
  ⟨[eff], .cons h (.nil _), by cases eff <;> rfl, by cases eff <;> rfl⟩

/-! ## Single effects -/

theorem note_traced (hst : s'.store = s.store) (hc : Calm s s') : Traced env cmd s₀ [] [] s s' := by
  have h : Effect.note.Does env cmd s₀ s s' := ⟨hst ▸ .note, hc.1, hc.2.1, hc.2.2⟩
  exact h.traced

theorem use_traced (i : ℕ) (hk : key ∈ cmd.keys) (he : e.lastAccessNs = (env.access i).ns)
    (hst : s'.store = s.store.insert key e) (hc : Calm s s') :
    Traced env cmd s₀ [(i, key)] [] s s' := by
  have h : (Effect.use i key).Does env cmd s₀ s s' :=
    ⟨hst ▸ .use i key e hk he, hc.1, hc.2.1, hc.2.2⟩
  exact h.traced

theorem retime_traced {d : Option ℕ} (hk : key ∈ cmd.keys) (he : s.store.lookup key = some e)
    (hst : s'.store = s.store.insert key { e with expireAt := d }) (hc : Calm s s') :
    Traced env cmd s₀ [] [] s s' := by
  have h : (Effect.retime key).Does env cmd s₀ s s' :=
    ⟨hst ▸ .retime key e d hk he, hc.1, hc.2.1, hc.2.2⟩
  exact h.traced

theorem remove_traced (hk : key ∈ cmd.keys)
    (hx : ∀ e, s.store.lookup key = some e → e.isExpired env.now = false)
    (hst : s'.store = s.store.erase key) (hc : Calm s s') : Traced env cmd s₀ [] [] s s' := by
  have h : (Effect.remove key).Does env cmd s₀ s s' :=
    ⟨hst ▸ .remove key hk hx, hc.1, hc.2.1, hc.2.2⟩
  exact h.traced

theorem lapse_traced (hk : key ∈ cmd.keys) (he : s.store.lookup key = some e)
    (hx : e.isExpired env.now = true) (hst : s'.store = s.store.erase key) (hc : Calm s s') :
    Traced env cmd s₀ [] [key] s s' := by
  have h : (Effect.lapse key).Does env cmd s₀ s s' :=
    ⟨hst ▸ .lapse key e hk he hx, hc.1, hc.2.1, hc.2.2⟩
  exact h.traced

theorem dropExpired_traced (hk : key ∈ cmd.keys) (he : s.store.lookup key = some e)
    (hx : e.isExpired env.now = true) : Traced env cmd s₀ [] [key] s (s.dropExpired key) :=
  lapse_traced hk he hx rfl ⟨rfl, rfl, rfl⟩

theorem touchAccess_traced (i : ℕ) (hk : key ∈ cmd.keys) (he : s.store.lookup key = some e) :
    Traced env cmd s₀ [(i, key)] [] s (s.touchAccess (env.access i) key) := by
  have hst : (s.touchAccess (env.access i) key).store
      = s.store.insert key (e.touch (env.access i)) := by
    simp only [touchAccess, he]
    rfl
  refine use_traced i hk rfl hst ?_
  simp only [touchAccess, he]
  exact ⟨rfl, rfl, rfl⟩

/-! ## Reads -/

theorem fetchLive_traced (i : ℕ) (hk : key ∈ cmd.keys) :
    Traced env cmd s₀ (if liveAt env.now s key then [(i, key)] else [])
      (if expiredAt env.now s key then [key] else []) s (s.fetchLive env i key).2 := by
  unfold fetchLive liveAt expiredAt
  rcases hl : s.store.lookup key with _ | e
  · exact note_traced rfl ⟨rfl, rfl, rfl⟩
  · by_cases hx : e.isExpired env.now = true
    · simp only [hx, Option.any_some, Bool.not_true, Bool.false_eq_true, if_true, if_false]
      exact (dropExpired_traced hk hl hx).trans (note_traced rfl ⟨rfl, rfl, rfl⟩)
    · simp only [hx, Option.any_some, Bool.not_false, if_true, Bool.false_eq_true, if_false]
      exact (touchAccess_traced i hk hl).trans (note_traced rfl ⟨rfl, rfl, rfl⟩)

theorem containsLive_traced (hk : key ∈ cmd.keys) :
    Traced env cmd s₀ [] (if expiredAt env.now s key then [key] else []) s
      (s.containsLive env key).2 := by
  unfold containsLive expiredAt
  rcases hl : s.store.lookup key with _ | e
  · exact note_traced rfl ⟨rfl, rfl, rfl⟩
  · by_cases hx : e.isExpired env.now = true
    · simp only [hx, Option.any_some, if_true]
      exact (dropExpired_traced hk hl hx).trans (note_traced rfl ⟨rfl, rfl, rfl⟩)
    · simp only [hx, Option.any_some, Bool.false_eq_true, if_false]
      exact note_traced rfl ⟨rfl, rfl, rfl⟩

theorem fetchLive_isSome (i : ℕ) (s : KvEngine) (key : Key) :
    (s.fetchLive env i key).1.isSome = liveAt env.now s key := by
  unfold fetchLive liveAt
  rcases s.store.lookup key with _ | e
  · rfl
  · simp only [Option.any_some]
    split_ifs with hx <;> simp [hx]

theorem expiredAt_of_lookup (he : s.store.lookup key = some e) (t : ℕ) :
    expiredAt t s key = e.isExpired t := by
  rw [expiredAt, he, Option.any_some]

theorem expiredAt_of_absent (he : s.store.lookup key = none) (t : ℕ) :
    expiredAt t s key = false := by
  rw [expiredAt, he, Option.any_none]

theorem liveAt_of_lookup (he : s.store.lookup key = some e) (t : ℕ) :
    liveAt t s key = !e.isExpired t := by
  rw [liveAt, he, Option.any_some]

theorem liveAt_of_absent (he : s.store.lookup key = none) (t : ℕ) :
    liveAt t s key = false := by
  rw [liveAt, he, Option.any_none]

theorem not_isExpired {t : ℕ} (hx : expiredAt t s key = false) (he : s.store.lookup key = some e) :
    ¬ e.isExpired t = true := by
  rw [← expiredAt_of_lookup he, hx]
  exact Bool.false_ne_true

/-- A command that looks under the shared lock first removes an entry that both clocks find
expired. -/
theorem rechecked_traced (hx : expiredAt env.shared s key = true →
      Traced env cmd s₀ [] (if expiredAt env.now s key then [key] else []) s s')
    (hl : expiredAt env.shared s key = false → Traced env cmd s₀ [] [] s s') :
    Traced env cmd s₀ []
      (if expiredAt env.shared s key && expiredAt env.now s key then [key] else []) s s' := by
  by_cases h : expiredAt env.shared s key = true
  · rw [h, Bool.true_and]
    exact hx h
  · rw [Bool.not_eq_true] at h
    rw [h, Bool.false_and]
    exact hl h

theorem get_traced (s : KvEngine) (key : Key) :
    Traced env (.get key) s (uses env s (.get key)) (expirations env s (.get key)) s
      (s.get env key).2 := by
  have hk : key ∈ (Command.get key).keys := List.mem_singleton_self key
  obtain hl | ⟨e, hl⟩ := Option.eq_none_or_eq_some (s.store.lookup key)
  · have hget : s.get env key = (none, s.recordMiss) := by simp only [KvEngine.get, hl]
    simp only [uses, expirations, hget, expiredAt_of_absent hl]
    exact note_traced rfl ⟨rfl, rfl, rfl⟩
  · by_cases hs : e.isExpired env.shared = true
    · have hget : s.get env key = s.fetchLive env 0 key := by
        simp only [KvEngine.get, hl, if_pos hs]
      simp only [uses, expirations, hget, fetchLive_isSome, expiredAt_of_lookup hl env.shared, hs,
        Bool.true_and]
      exact fetchLive_traced 0 hk
    · have hget : s.get env key
          = (some e.data, (s.touchAccess (env.access 0) key).recordHit) := by
        simp only [KvEngine.get, hl, if_neg hs]
      simp only [uses, expirations, hget, expiredAt_of_lookup hl env.shared, hs, Bool.false_and]
      exact (touchAccess_traced 0 hk hl).trans (note_traced rfl ⟨rfl, rfl, rfl⟩)

theorem lookup_of_expiredAt {t : ℕ} (h : expiredAt t s key = true) :
    ∃ e, s.store.lookup key = some e ∧ e.isExpired t = true := by
  obtain hl | ⟨e, hl⟩ := Option.eq_none_or_eq_some (s.store.lookup key)
  · rw [expiredAt_of_absent hl] at h
    cases h
  · exact ⟨e, hl, by rwa [expiredAt_of_lookup hl] at h⟩

theorem existsKey_traced (s : KvEngine) (key : Key) :
    Traced env (.existsKey key) s [] (expirations env s (.existsKey key)) s
      (s.existsKey env key).2 := by
  refine rechecked_traced (fun hx => ?_) fun hx => ?_
  · obtain ⟨e, hl, he⟩ := lookup_of_expiredAt hx
    simp only [existsKey, hl, if_pos he]
    exact containsLive_traced (List.mem_singleton_self key)
  · unfold existsKey
    split
    · rename_i e hl
      rw [if_neg (not_isExpired hx hl)]
      exact note_traced rfl ⟨rfl, rfl, rfl⟩
    · exact note_traced rfl ⟨rfl, rfl, rfl⟩

theorem lapsed_traced (hk : key ∈ cmd.keys) :
    Traced env cmd s₀ [] (if expiredAt env.now s key then [key] else []) s (lapsed env s key) := by
  unfold lapsed
  obtain hl | ⟨e, hl⟩ := Option.eq_none_or_eq_some (s.store.lookup key)
  · simp only [expiredAt_of_absent hl, hl]
    exact .refl s
  · simp only [expiredAt_of_lookup hl, hl]
    split_ifs with hx
    · exact dropExpired_traced hk hl hx
    · exact .refl s

theorem strlen_traced (s : KvEngine) (key : Key) :
    Traced env (.strlen key) s [] (expirations env s (.strlen key)) s (s.strlen env key).2 := by
  refine rechecked_traced (fun hx => ?_) fun hx => ?_
  · obtain ⟨e, hl, he⟩ := lookup_of_expiredAt hx
    simp only [strlen, hl, if_pos he, strlenOf_snd]
    exact lapsed_traced (List.mem_singleton_self key)
  · unfold strlen
    split
    · rename_i e hl
      rw [if_neg (not_isExpired hx hl)]
      exact .refl s
    · exact .refl s

theorem ttlMs_traced (s : KvEngine) (key : Key) :
    Traced env (.ttlMs key) s [] (expirations env s (.ttlMs key)) s (s.ttlMs env key).2 := by
  refine rechecked_traced (fun hx => ?_) fun hx => ?_
  · obtain ⟨e, hl, he⟩ := lookup_of_expiredAt hx
    simp only [ttlMs, hl, if_pos he, ttlOf_snd]
    exact lapsed_traced (List.mem_singleton_self key)
  · unfold ttlMs
    split
    · rename_i e hl
      rw [if_neg (not_isExpired hx hl)]
      exact .refl s
    · exact .refl s

theorem memoryUsage_traced (s : KvEngine) (key : Key) :
    Traced env (.memoryUsage key) s [] (expirations env s (.memoryUsage key)) s
      (s.memoryUsage env key).2 := by
  refine rechecked_traced (fun hx => ?_) fun hx => ?_
  · obtain ⟨e, hl, he⟩ := lookup_of_expiredAt hx
    simp only [memoryUsage, memoryOf, hl, if_pos he, expiredAt_of_lookup hl]
    split_ifs with hn
    · exact lapse_traced (List.mem_singleton_self key) hl hn rfl ⟨rfl, rfl, rfl⟩
    · exact .refl s
  · unfold memoryUsage
    split
    · rename_i e hl
      rw [if_neg (not_isExpired hx hl)]
      exact .refl s
    · exact .refl s

/-! ## Admission -/

theorem selectVictim_calm (env : Env) (s : KvEngine) : Calm s (s.selectVictim env).2 := by
  rw [selectVictim_frame]
  exact ⟨rfl, rfl, rfl⟩

theorem PartOf.refl (s : KvEngine) : PartOf s s := ⟨fun _ _ h => h, rfl⟩

theorem PartOf.of_erase {k : Key} (h : PartOf s₀ s) (hst : s'.store = s.store.erase k)
    (hev : s'.eviction = s.eviction) : PartOf s₀ s' := by
  refine ⟨fun k' e he => h.lookup k' e ?_, hev.trans h.eviction⟩
  rw [hst] at he
  by_cases hk : k' = k
  · rw [hk, AList.lookup_erase] at he
    cases he
  · rwa [AList.lookup_erase_ne hk] at he

theorem PartOf.of_store (h : PartOf s₀ s) (hst : s'.store = s.store)
    (hev : s'.eviction = s.eviction) : PartOf s₀ s' :=
  ⟨fun k e he => h.lookup k e (hst ▸ he), hev.trans h.eviction⟩

/-- The loop evicts from a part of the store the command found, and leaves such a part. -/
theorem evictLoop_traced (incoming : ℕ) : ∀ (rounds : ℕ) (s : KvEngine),
    s.eviction.maxMemory ≠ 0 → PartOf s₀ s →
    Traced env cmd s₀ [] [] s (evictLoop env incoming rounds s).2
      ∧ PartOf s₀ (evictLoop env incoming rounds s).2
  | 0, s, _, hpart => ⟨.refl s, hpart⟩
  | rounds + 1, s, hmax, hpart => by
    unfold evictLoop
    split_ifs
    · exact ⟨.refl s, hpart⟩
    · exact ⟨.refl s, hpart⟩
    · have hst := selectVictim_store env s
      have hcalm := selectVictim_calm env s
      rcases h : s.selectVictim env with ⟨_ | victim, t⟩
      · rw [h] at hst hcalm
        exact ⟨note_traced hst hcalm, hpart.of_store hst hcalm.1⟩
      · rw [h] at hst hcalm
        have hstore : (t.evictVictim victim).store = s.store.erase victim :=
          congrArg (·.erase victim) hst
        have hv : (Effect.evict victim).Does env cmd s₀ s (t.evictVictim victim) :=
          ⟨hstore ▸ .evict victim hmax hpart (by rw [h]), hcalm.1, hcalm.2.1,
            congrArg (· + 1) hcalm.2.2⟩
        have hmax' : (t.evictVictim victim).eviction.maxMemory ≠ 0 := by
          rw [hv.eviction]
          exact hmax
        obtain ⟨htr, hpart'⟩ :=
          evictLoop_traced incoming rounds _ hmax' (hpart.of_erase hstore hcalm.1)
        exact ⟨hv.traced.trans htr, hpart'⟩

theorem enforceForWrite_traced (s : KvEngine) (hpart : PartOf s₀ s) (k : Key) (valueLen : ℕ) :
    Traced env cmd s₀ [] [] s (s.enforceForWrite env k valueLen).2
      ∧ PartOf s₀ (s.enforceForWrite env k valueLen).2 := by
  unfold enforceForWrite enforceMemoryLimit
  simp only []
  split_ifs with hmax
  · exact ⟨.refl s, hpart⟩
  · generalize k.length + valueLen + perEntryOverhead - _ = incoming
    have h : Traced env cmd s₀ [] [] s _ ∧ PartOf s₀ _ :=
      evictLoop_traced incoming (max s.store.entries.length 1 + 16) s hmax hpart
    split
    · rename_i he
      rwa [he] at h
    · rename_i he
      rw [he] at h
      split_ifs <;> exact h

/-! ## Writes -/

theorem write_traced (i : ℕ) (hk : key ∈ cmd.keys) (value : Bytes) (ttl : Option ℕ)
    (rs : List AofRecord) :
    Traced env cmd s₀ [(i, key)] [] s
      ((s.appendAof rs).trackInsert key (.newWith (env.access i) value ttl)) :=
  use_traced i hk rfl rfl ⟨rfl, rfl, rfl⟩

theorem admitted_traced {k : Key} {n : ℕ} {r : Except FerrumError Unit}
    (hpart : PartOf s₀ s) (h : s.enforceForWrite env k n = (r, t)) :
    Traced env cmd s₀ [] [] s t ∧ PartOf s₀ t := by
  have ht : Traced env cmd s₀ [] [] s _ ∧ PartOf s₀ _ := enforceForWrite_traced s hpart k n
  rwa [h] at ht

theorem set_traced (s : KvEngine) (key value : Bytes) :
    Traced env (.set key value) s (uses env s (.set key value)) [] s (s.set env key value).2 := by
  rcases hv : validatePair key value with err | _
  · have hset : s.set env key value = (.error err, s) := by
      simp only [KvEngine.set, KvEngine.insert, hv]
    simp only [uses, hset, onOk]
    exact .refl s
  rcases ha : s.enforceForWrite env key value.length with ⟨err | _, t⟩
  · have hset : s.set env key value = (.error err, t) := by
      simp only [KvEngine.set, KvEngine.insert, hv, ha]
    simp only [uses, hset, onOk]
    exact (admitted_traced (.refl s) ha).1
  · simp only [uses, KvEngine.set, KvEngine.insert, hv, ha, onOk]
    exact (admitted_traced (.refl s) ha).1.trans
      (write_traced 0 (List.mem_singleton_self key) value none [.set key value])

theorem insertAbsent_traced (hpart : PartOf s₀ s) (hk : key ∈ cmd.keys) (value : Bytes) :
    Traced env cmd s₀
      (if (insertNx.insertAbsent env key value s).1.toOption = some true then [(0, key)] else []) []
      s (insertNx.insertAbsent env key value s).2 := by
  rcases ha : s.enforceForWrite env key value.length with ⟨err | _, t⟩
  · simp only [insertNx.insertAbsent, ha, Except.toOption]
    exact (admitted_traced hpart ha).1
  · simp only [insertNx.insertAbsent, ha, Except.toOption]
    exact (admitted_traced hpart ha).1.trans (write_traced 0 hk value none [.set key value])

theorem setNx_traced (s : KvEngine) (key value : Bytes) :
    Traced env (.setNx key value) s (uses env s (.setNx key value))
      (expirations env s (.setNx key value)) s (s.setNx env key value).2 := by
  have hk : key ∈ (Command.setNx key value).keys := List.mem_singleton_self key
  rcases hv : validatePair key value with err | _
  · simp only [uses, expirations, setNx, insertNx, hv, Except.toOption, Except.toBool]
    exact .refl s
  simp only [uses, expirations, setNx, insertNx, hv, Except.toBool, Bool.true_and]
  obtain hl | ⟨e, hl⟩ := Option.eq_none_or_eq_some (s.store.lookup key)
  · simp only [hl, expiredAt_of_absent hl]
    exact insertAbsent_traced (.refl s) hk value
  · simp only [hl, expiredAt_of_lookup hl]
    by_cases hx : e.isExpired env.now = true
    · simp only [hx, if_true]
      have hlapse : Traced env (.setNx key value) s [] [key] s (s.trackRemove key) :=
        lapse_traced hk hl hx rfl ⟨rfl, rfl, rfl⟩
      have hpart : PartOf s (s.trackRemove key) := (PartOf.refl s).of_erase rfl rfl
      have hinsert : Traced env (.setNx key value) s _ [] (s.trackRemove key) _ :=
        insertAbsent_traced hpart hk value
      exact hlapse.trans hinsert
    · simp only [hx, Except.toOption]
      exact .refl s

theorem enforceMany_traced : ∀ (pairs : List (Key × Bytes)) (s : KvEngine), PartOf s₀ s →
    Traced env cmd s₀ [] [] s (enforceMany env pairs s).2
  | [], s, _ => .refl s
  | (k, v) :: pairs, s, hpart => by
    unfold enforceMany
    split
    · rename_i ha
      exact (admitted_traced hpart ha).1
    · rename_i ha
      obtain ⟨htr, hpart'⟩ := @admitted_traced env cmd s₀ s _ k v.length _ hpart ha
      exact htr.trans (enforceMany_traced pairs _ hpart')

theorem trackInsertMany_traced : ∀ (i : ℕ) (pairs : List (Key × Bytes)) (s : KvEngine),
    (∀ p ∈ pairs, p.1 ∈ cmd.keys) →
    Traced env cmd s₀ (positions (fun _ => true) i (pairs.map (·.1))) [] s
      (trackInsertMany env i pairs s)
  | _, [], s, _ => .refl s
  | i, (k, v) :: pairs, s, hk => by
    have hw : Traced env cmd s₀ [(i, k)] [] s (s.trackInsert k (.new (env.access i) v)) :=
      use_traced i (hk (k, v) List.mem_cons_self) rfl rfl ⟨rfl, rfl, rfl⟩
    exact hw.trans
      (trackInsertMany_traced (i + 1) pairs _ fun p hp => hk p (List.mem_cons_of_mem _ hp))

theorem mset_traced (s : KvEngine) (pairs : List (Key × Bytes)) :
    Traced env (.mset pairs) s (uses env s (.mset pairs)) [] s (s.mset env pairs).2 := by
  rcases hv : validatePairs pairs with err | _
  · simp only [uses, mset, insertMany, hv, onOk]
    exact .refl s
  have hroom : Traced env (.mset pairs) s [] [] s (enforceMany env pairs s).2 :=
    enforceMany_traced pairs s (.refl s)
  rcases ha : enforceMany env pairs s with ⟨err | _, t⟩
  · rw [ha] at hroom
    simp only [uses, mset, insertMany, hv, ha, onOk]
    exact hroom
  · rw [ha] at hroom
    simp only [uses, mset, insertMany, hv, ha, onOk]
    have hlog : Traced env (.mset pairs) s [] [] t
        (t.appendAof (pairs.map fun p => .set p.1 p.2)) := note_traced rfl ⟨rfl, rfl, rfl⟩
    exact (hroom.trans hlog).trans
      (trackInsertMany_traced 0 pairs _ fun p hp => List.mem_map_of_mem hp)

/-! ## Writes that keep a deadline -/

theorem insertKeepTtl_traced {value : Bytes} {ttl : Option ℕ} {r : Except FerrumError Unit}
    (hpart : PartOf s₀ s) (hk : key ∈ cmd.keys)
    (h : s.insertKeepTtl env key value ttl = (r, t)) :
    Traced env cmd s₀ (onOk r [(0, key)]) [] s t := by
  rcases ha : s.enforceForWrite env key value.length with ⟨err | _, a⟩
  · simp only [insertKeepTtl, ha, Prod.mk.injEq] at h
    obtain ⟨rfl, rfl⟩ := h
    exact (admitted_traced hpart ha).1
  · simp only [insertKeepTtl, ha, Prod.mk.injEq] at h
    obtain ⟨rfl, rfl⟩ := h
    exact (admitted_traced hpart ha).1.trans (write_traced 0 hk value ttl _)

theorem incrBy_store_traced (hpart : PartOf s₀ s) (hk : key ∈ cmd.keys) (delta n : Int64)
    (ttl : Option ℕ) :
    Traced env cmd s₀ (onOk (incrBy.store env key delta s n ttl).1 [(0, key)]) [] s
      (incrBy.store env key delta s n ttl).2 := by
  unfold incrBy.store
  rcases checkedAdd n delta with _ | newValue
  · exact .refl s
  rcases hi : s.insertKeepTtl env key (i64ToString newValue) ttl with ⟨err | _, t⟩
  · simp only [hi]
    exact insertKeepTtl_traced hpart hk hi
  · simp only [hi]
    exact insertKeepTtl_traced hpart hk hi

theorem incrByFloat_store_traced (hpart : PartOf s₀ s) (hk : key ∈ cmd.keys) (delta n : UInt64)
    (ttl : Option ℕ) :
    Traced env cmd s₀ (onOk (incrByFloat.store env key delta s n ttl).1 [(0, key)]) [] s
      (incrByFloat.store env key delta s n ttl).2 := by
  unfold incrByFloat.store
  by_cases hf : env.float.isFinite (env.float.add n delta) = false
  · simp only [hf, if_true]
    exact .refl s
  simp only [hf]
  rcases hi : s.insertKeepTtl env key (env.float.render (env.float.add n delta)) ttl
    with ⟨err | _, t⟩
  · simp only []
    exact insertKeepTtl_traced hpart hk hi
  · simp only []
    exact insertKeepTtl_traced hpart hk hi

theorem append_store_traced (hpart : PartOf s₀ s) (hk : key ∈ cmd.keys) (value : Bytes)
    (ttl : Option ℕ) :
    Traced env cmd s₀ (onOk (append.store env key s value ttl).1 [(0, key)]) [] s
      (append.store env key s value ttl).2 := by
  unfold append.store
  rcases validateValue value with _ | _
  · exact .refl s
  rcases hi : s.insertKeepTtl env key value ttl with ⟨err | _, t⟩
  · exact insertKeepTtl_traced hpart hk hi
  · exact insertKeepTtl_traced hpart hk hi

theorem lapsed_partOf (env : Env) (s : KvEngine) (key : Key) : PartOf s (lapsed env s key) := by
  unfold lapsed
  split
  · split_ifs
    · exact (PartOf.refl s).of_erase rfl rfl
    · exact .refl s
  · exact .refl s

/-- The uses and expirations of a command that reads an entry, dropping an expired one, and then
writes it. -/
def Updates (env : Env) (cmd : Command) (s : KvEngine) (key : Key) {α : Type}
    (r : Except FerrumError α × KvEngine) : Prop :=
  Traced env cmd s (onOk r.1 [(0, key)])
    (if (validateKey key).toBool && expiredAt env.now s key then [key] else []) s r.2

theorem Updates.of_valid {α : Type} {r : Except FerrumError α × KvEngine} (hk : key ∈ cmd.keys)
    (hv : validateKey key = .ok ())
    (h : PartOf s (s.readState env key).2 →
      Traced env cmd s (onOk r.1 [(0, key)]) [] (s.readState env key).2 r.2) :
    Updates env cmd s key r := by
  have hlapse : Traced env cmd s [] _ s (lapsed env s key) := lapsed_traced hk
  rw [readState_snd] at h
  have hgone := hlapse.trans (h (lapsed_partOf env s key))
  rw [List.append_nil, List.nil_append] at hgone
  simpa only [Updates, hv, Except.toBool, Bool.true_and] using hgone

theorem Updates.of_invalid {α : Type} {err : FerrumError} (hv : validateKey key = .error err) :
    Updates env cmd s key ((.error err, s) : Except FerrumError α × KvEngine) := by
  simp only [Updates, hv, Except.toBool, Bool.false_and]
  exact .refl s

theorem incrBy_traced (s : KvEngine) (key : Key) (delta : Int64) :
    Updates env (.incrBy key delta) s key (s.incrBy env key delta) := by
  have hk : key ∈ (Command.incrBy key delta).keys := List.mem_singleton_self key
  unfold incrBy
  split
  · rename_i hv
    exact .of_invalid hv
  · rename_i hv
    refine .of_valid hk hv ?_
    rcases s.readState env key with ⟨_ | ⟨data, ttl⟩, t⟩ <;> intro hpart
    · exact incrBy_store_traced hpart hk delta 0 none
    · rcases hn : parseI64 data with _ | n
      · simp only [hn]
        exact .refl t
      · simp only [hn]
        exact incrBy_store_traced hpart hk delta n ttl

theorem incrByFloat_traced (s : KvEngine) (key : Key) (delta : UInt64) :
    Updates env (.incrByFloat key delta) s key (s.incrByFloat env key delta) := by
  have hk : key ∈ (Command.incrByFloat key delta).keys := List.mem_singleton_self key
  unfold incrByFloat
  split
  · rename_i hv
    exact .of_invalid hv
  · rename_i hv
    refine .of_valid hk hv ?_
    rcases s.readState env key with ⟨_ | ⟨data, ttl⟩, t⟩ <;> intro hpart
    · exact incrByFloat_store_traced hpart hk delta 0 none
    · rcases hn : env.float.parse data with _ | n
      · simp only [hn]
        exact .refl t
      · simp only [hn]
        exact incrByFloat_store_traced hpart hk delta n ttl

theorem append_traced (s : KvEngine) (key suffix : Bytes) :
    Updates env (.append key suffix) s key (s.append env key suffix) := by
  have hk : key ∈ (Command.append key suffix).keys := List.mem_singleton_self key
  unfold KvEngine.append
  split
  · rename_i hv
    exact .of_invalid hv
  · rename_i hv
    refine .of_valid hk hv ?_
    rcases s.readState env key with ⟨_ | ⟨data, ttl⟩, t⟩ <;> intro hpart
    · exact append_store_traced hpart hk suffix none
    · exact append_store_traced hpart hk (data ++ suffix) ttl

/-! ## Removals -/

theorem any_lookup_erase (p : ValueEntry → Bool) (h : s'.store = s.store.erase key) :
    (fun k => (s'.store.lookup k).any p)
      = fun k => (s.store.lookup k).any p && decide (k ≠ key) := by
  funext k
  rw [h]
  by_cases hk : k = key
  · subst hk
    simp [AList.lookup_erase]
  · simp [AList.lookup_erase_ne hk, hk]

theorem expiredAt_erase (h : s'.store = s.store.erase key) (t : ℕ) :
    expiredAt t s' = fun k => expiredAt t s k && decide (k ≠ key) :=
  any_lookup_erase (·.isExpired t) h

theorem liveAt_erase (h : s'.store = s.store.erase key) (t : ℕ) :
    liveAt t s' = fun k => liveAt t s k && decide (k ≠ key) :=
  any_lookup_erase (fun e => !e.isExpired t) h

theorem and_ne_eq {p : Key → Bool} (h : p key = false) :
    (fun k => p k && decide (k ≠ key)) = p := by
  funext k
  by_cases hk : k = key
  · simp [hk, h]
  · simp [hk]

theorem firsts_cons (p : Key → Bool) (key : Key) (keys : List Key) :
    firsts p (key :: keys)
      = (if p key then [key] else []) ++ firsts (fun k => p k && decide (k ≠ key)) keys := by
  rw [firsts]
  split_ifs with h
  · rfl
  · rw [and_ne_eq (by simpa using h)]
    rfl

theorem erased_traced (hk : key ∈ cmd.keys) (hst : s'.store = s.store.erase key) (hc : Calm s s') :
    Traced env cmd s₀ [] (if expiredAt env.now s key then [key] else []) s s' := by
  split_ifs with hx
  · obtain ⟨e, he, hx⟩ := lookup_of_expiredAt hx
    exact lapse_traced hk he hx hst hc
  · refine remove_traced hk (fun e he => ?_) hst hc
    rwa [expiredAt_of_lookup he, Bool.not_eq_true] at hx

theorem del_traced (s : KvEngine) (key : Key) :
    Traced env (.del key) s [] (expirations env s (.del key)) s (s.del env key).2 := by
  refine erased_traced (List.mem_singleton_self key) (del_store env s key) ?_
  rcases del_eq env s key with h | h <;> rw [h] <;> exact ⟨rfl, rfl, rfl⟩

theorem removeLoop_traced : ∀ (keys : List Key) (s : KvEngine), (∀ k ∈ keys, k ∈ cmd.keys) →
    Traced env cmd s₀ [] (firsts (expiredAt env.now s) keys) s (removeLoop env keys s).2
  | [], s, _ => .refl s
  | key :: keys, s, hk => by
    have hloop : (removeLoop env (key :: keys) s).2
        = (removeLoop env keys (s.trackRemove key)).2 := by
      rw [removeLoop]
      split_ifs <;> rfl
    have hhead : Traced env cmd s₀ [] _ s (s.trackRemove key) :=
      erased_traced (hk key List.mem_cons_self) rfl ⟨rfl, rfl, rfl⟩
    have htail : Traced env cmd s₀ [] _ (s.trackRemove key) _ :=
      removeLoop_traced keys (s.trackRemove key) fun k h => hk k (List.mem_cons_of_mem _ h)
    have hst : (s.trackRemove key).store = s.store.erase key := rfl
    rw [expiredAt_erase hst] at htail
    rw [firsts_cons, hloop]
    exact hhead.trans htail

theorem delMany_traced (s : KvEngine) (keys : List Key) :
    Traced env (.delMany keys) s [] (expirations env s (.delMany keys)) s
      (s.delMany env keys).2 := by
  unfold delMany
  split_ifs with h
  · rw [h]
    exact .refl s
  · have hloop : Traced env (.delMany keys) s [] _ s _ := removeLoop_traced keys s fun _ hk => hk
    have hlog : Traced env (.delMany keys) s [] [] (removeLoop env keys s).2
        (s.removeMany env keys).2 := note_traced rfl ⟨rfl, rfl, rfl⟩
    have hall := hloop.trans hlog
    rw [List.append_nil, List.append_nil] at hall
    exact hall

theorem expireAtMs_traced (s : KvEngine) (key : Key) (absEpochMs : Int64) :
    Traced env (.expireAtMs key absEpochMs) s [] (expirations env s (.expireAtMs key absEpochMs)) s
      (s.expireAtMs env key absEpochMs).2 := by
  have hk : key ∈ (Command.expireAtMs key absEpochMs).keys := List.mem_singleton_self key
  rcases expireAtMs_spec env s key absEpochMs with
    ⟨hl, h⟩ | ⟨e, hl, hx, h⟩ | ⟨e, hl, hx, -, h⟩ | ⟨e, hl, hx, -, h⟩ <;> rw [h]
  · simp only [expirations, expiredAt_of_absent hl]
    exact .refl s
  · simp only [expirations, expiredAt_of_lookup hl, hx]
    exact dropExpired_traced hk hl hx
  · simp only [expirations, expiredAt_of_lookup hl, hx]
    refine remove_traced hk (fun e' he' => ?_) rfl ⟨rfl, rfl, rfl⟩
    rw [hl] at he'
    exact Option.some.inj he' ▸ hx
  · simp only [expirations, expiredAt_of_lookup hl, hx, deadlined, setDeadline_of_lookup _ hl]
    exact retime_traced hk hl rfl ⟨rfl, rfl, rfl⟩

theorem persist_traced (s : KvEngine) (key : Key) :
    Traced env (.persist key) s [] (expirations env s (.persist key)) s (s.persist env key).2 := by
  have hk : key ∈ (Command.persist key).keys := List.mem_singleton_self key
  rcases persist_spec env s key with
    ⟨hl, h⟩ | ⟨e, hl, hx, h⟩ | ⟨e, hl, hx, -, h⟩ | ⟨e, hl, hx, -, h⟩ <;> rw [h]
  · simp only [expirations, expiredAt_of_absent hl]
    exact .refl s
  · simp only [expirations, expiredAt_of_lookup hl, hx]
    exact dropExpired_traced hk hl hx
  · simp only [expirations, expiredAt_of_lookup hl, hx]
    exact .refl s
  · simp only [expirations, expiredAt_of_lookup hl, hx, persisted, setDeadline_of_lookup _ hl]
    exact retime_traced hk hl rfl ⟨rfl, rfl, rfl⟩

/-! ## Reads of many keys -/

/-- The same keys are stored, with the same deadlines. -/
def SameDeadlines (s s' : KvEngine) : Prop :=
  ∀ k, (s'.store.lookup k).map (·.expireAt) = (s.store.lookup k).map (·.expireAt)

theorem SameDeadlines.expiredAt (h : SameDeadlines s s') (t : ℕ) :
    expiredAt t s' = FerrumKv.expiredAt t s := by
  have hany : ∀ o : Option ValueEntry, o.any (·.isExpired t)
      = (o.map (·.expireAt)).any (fun d => d.any fun d => decide (d ≤ t)) := by
    rintro (_ | ⟨_, _ | _, _, _, _⟩) <;> rfl
  funext k
  unfold FerrumKv.expiredAt
  rw [hany, hany, h k]

theorem SameDeadlines.liveAt (h : SameDeadlines s s') (t : ℕ) :
    liveAt t s' = FerrumKv.liveAt t s := by
  have hany : ∀ o : Option ValueEntry, o.any (fun e => !e.isExpired t)
      = (o.map (·.expireAt)).any (fun d => !d.any fun d => decide (d ≤ t)) := by
    rintro (_ | ⟨_, _ | _, _, _, _⟩) <;> rfl
  funext k
  unfold FerrumKv.liveAt
  rw [hany, hany, h k]

theorem sameDeadlines_touchAccess (s : KvEngine) (r : AccessReading) (key : Key) :
    SameDeadlines s (s.touchAccess r key) := by
  unfold touchAccess
  split
  · rename_i e he
    intro k
    by_cases hk : k = key
    · subst hk
      have hl : (s.store.insert k (e.touch r)).lookup k = some (e.touch r) := AList.lookup_insert _
      change Option.map _ ((s.store.insert k (e.touch r)).lookup k) = _
      rw [hl, he]
      rfl
    · change Option.map _ ((s.store.insert key (e.touch r)).lookup k) = _
      rw [AList.lookup_insert_ne hk]
  · exact fun _ => rfl

theorem mgetShared_sameDeadlines : ∀ (i : ℕ) (keys : List Key) (s : KvEngine),
    SameDeadlines s (s.mgetShared env i keys).2
  | _, [], _ => fun _ => rfl
  | i, key :: keys, s => by
    unfold mgetShared
    split
    · split_ifs
      · exact mgetShared_sameDeadlines (i + 1) keys s
      · exact fun k => (mgetShared_sameDeadlines (i + 1) keys _ k).trans
          (sameDeadlines_touchAccess s (env.access i) key k)
    · exact mgetShared_sameDeadlines (i + 1) keys _

theorem mgetShared_traced : ∀ (i : ℕ) (keys : List Key) (s : KvEngine), (∀ k ∈ keys, k ∈ cmd.keys) →
    (s.mgetShared env i keys).1.2 = positions (expiredAt env.shared s) i keys
      ∧ Traced env cmd s₀ (positions (liveAt env.shared s) i keys) [] s
        (s.mgetShared env i keys).2
  | _, [], s, _ => ⟨rfl, .refl s⟩
  | i, key :: keys, s, hk => by
    have htail : ∀ k ∈ keys, k ∈ cmd.keys := fun k h => hk k (List.mem_cons_of_mem _ h)
    rw [positions, positions]
    obtain hl | ⟨e, hl⟩ := Option.eq_none_or_eq_some (s.store.lookup key)
    · obtain ⟨hpos, htr⟩ := mgetShared_traced (i + 1) keys s.recordMiss htail
      have hmiss : Traced env cmd s₀ [] [] s s.recordMiss := note_traced rfl ⟨rfl, rfl, rfl⟩
      simp only [mgetShared, hl, expiredAt_of_absent hl, liveAt_of_absent hl]
      exact ⟨hpos, hmiss.trans htr⟩
    · simp only [mgetShared, hl, expiredAt_of_lookup hl, liveAt_of_lookup hl]
      by_cases hx : e.isExpired env.shared = true
      · obtain ⟨hpos, htr⟩ := mgetShared_traced (i + 1) keys s htail
        simp only [hx, if_true]
        exact ⟨congrArg ((i, key) :: ·) hpos, htr⟩
      · obtain ⟨hpos, htr⟩ :=
          mgetShared_traced (i + 1) keys (s.touchAccess (env.access i) key).recordHit htail
        have hsame : SameDeadlines s (s.touchAccess (env.access i) key).recordHit :=
          sameDeadlines_touchAccess s (env.access i) key
        rw [hsame.expiredAt] at hpos
        rw [hsame.liveAt] at htr
        have hhit : Traced env cmd s₀ [] [] (s.touchAccess (env.access i) key)
            (s.touchAccess (env.access i) key).recordHit := note_traced rfl ⟨rfl, rfl, rfl⟩
        have htouch : Traced env cmd s₀ [(i, key)] [] s _ :=
          touchAccess_traced i (hk key List.mem_cons_self) hl
        simp only [hx]
        exact ⟨hpos, (htouch.trans hhit).trans htr⟩

theorem fetchLive_expiredAt (i : ℕ) (s : KvEngine) (key : Key) :
    expiredAt env.now (s.fetchLive env i key).2
      = fun k => expiredAt env.now s k && decide (k ≠ key) := by
  unfold fetchLive
  obtain hl | ⟨e, hl⟩ := Option.eq_none_or_eq_some (s.store.lookup key)
  · rw [and_ne_eq (expiredAt_of_absent hl env.now), hl]
    rfl
  · simp only [hl]
    split_ifs with hx
    · have hst : ((s.dropExpired key).recordMiss).store = s.store.erase key := rfl
      exact expiredAt_erase hst env.now
    · rw [and_ne_eq (by rw [expiredAt_of_lookup hl]; simpa using hx)]
      exact (sameDeadlines_touchAccess s (env.access i) key).expiredAt env.now

theorem fetchLive_liveAt (i : ℕ) (s : KvEngine) (key : Key) :
    liveAt env.now (s.fetchLive env i key).2 = liveAt env.now s := by
  unfold fetchLive
  obtain hl | ⟨e, hl⟩ := Option.eq_none_or_eq_some (s.store.lookup key)
  · rw [hl]
    rfl
  · simp only [hl]
    split_ifs with hx
    · have hst : ((s.dropExpired key).recordMiss).store = s.store.erase key := rfl
      rw [liveAt_erase hst, and_ne_eq (by rw [liveAt_of_lookup hl, hx]; rfl)]
    · exact (sameDeadlines_touchAccess s (env.access i) key).liveAt env.now

/-- The second pass of `MGET`, over the positions found expired. -/
theorem fetchLives_traced : ∀ (l : List (ℕ × Key)) (s : KvEngine), (∀ p ∈ l, p.2 ∈ cmd.keys) →
    Traced env cmd s₀ (l.filter fun p => liveAt env.now s p.2)
      (firsts (expiredAt env.now s) (l.map (·.2))) s
      (l.foldl (fun s p => (s.fetchLive env p.1 p.2).2) s)
  | [], s, _ => .refl s
  | (i, key) :: l, s, hk => by
    have hhead : Traced env cmd s₀ _ _ s (s.fetchLive env i key).2 :=
      fetchLive_traced i (hk (i, key) List.mem_cons_self)
    have htail : Traced env cmd s₀ _ _ (s.fetchLive env i key).2 _ :=
      fetchLives_traced l _ fun p hp => hk p (List.mem_cons_of_mem _ hp)
    rw [fetchLive_expiredAt, fetchLive_liveAt] at htail
    have hfilter : ((i, key) :: l).filter (fun p => liveAt env.now s p.2)
        = (if liveAt env.now s key then [(i, key)] else [])
          ++ l.filter fun p => liveAt env.now s p.2 := by
      rw [List.filter_cons]
      split_ifs <;> rfl
    rw [List.map_cons, firsts_cons, hfilter, List.foldl_cons]
    exact hhead.trans htail

theorem filter_positions (p q : Key → Bool) : ∀ (i : ℕ) (keys : List Key),
    (positions p i keys).filter (fun x => q x.2) = positions (fun k => p k && q k) i keys
  | _, [] => rfl
  | i, key :: keys => by
    rw [positions, positions, ← filter_positions p q (i + 1) keys]
    by_cases hp : p key = true
    · rw [if_pos hp, List.filter_cons, hp, Bool.true_and]
    · rw [if_neg hp, Bool.not_eq_true] at *
      rw [hp, Bool.false_and, if_neg Bool.false_ne_true]

theorem map_positions (p : Key → Bool) : ∀ (i : ℕ) (keys : List Key),
    (positions p i keys).map (·.2) = keys.filter p
  | _, [] => rfl
  | i, key :: keys => by
    rw [positions, List.filter_cons, ← map_positions p (i + 1) keys]
    split_ifs <;> rfl

theorem firsts_filter (p : Key → Bool) : ∀ (keys : List Key) (q : Key → Bool),
    firsts q (keys.filter p) = firsts (fun k => p k && q k) keys
  | [], _ => rfl
  | key :: keys, q => by
    by_cases hp : p key = true
    · rw [List.filter_cons_of_pos hp, firsts_cons, firsts_cons, firsts_filter p keys, hp,
        Bool.true_and]
      simp only [Bool.and_assoc]
    · rw [List.filter_cons_of_neg hp, firsts_filter p keys, firsts]
      rw [Bool.not_eq_true] at hp
      rw [hp, Bool.false_and, if_neg Bool.false_ne_true]

theorem mget_traced (s : KvEngine) (keys : List Key) :
    Traced env (.mget keys) s (uses env s (.mget keys)) (expirations env s (.mget keys)) s
      (s.mget env keys).2 := by
  obtain ⟨hpos, hshared⟩ := @mgetShared_traced env (.mget keys) s 0 keys s fun _ hk => hk
  have hsame : SameDeadlines s (s.mgetShared env 0 keys).2 := mgetShared_sameDeadlines 0 keys s
  have hkeys : ∀ p ∈ (s.mgetShared env 0 keys).1.2, p.2 ∈ (Command.mget keys).keys := by
    intro p hp
    rw [hpos] at hp
    have hmem := List.mem_map_of_mem (f := (·.2)) hp
    rw [map_positions] at hmem
    exact List.mem_of_mem_filter hmem
  have hagain : Traced env (.mget keys) s _ _ (s.mgetShared env 0 keys).2 (s.mget env keys).2 :=
    fetchLives_traced _ _ hkeys
  rw [hpos, hsame.liveAt, hsame.expiredAt, filter_positions, map_positions, firsts_filter] at hagain
  exact hshared.trans hagain

theorem containsLive_expiredAt (s : KvEngine) (key : Key) :
    expiredAt env.now (s.containsLive env key).2
      = fun k => expiredAt env.now s k && decide (k ≠ key) := by
  unfold containsLive
  obtain hl | ⟨e, hl⟩ := Option.eq_none_or_eq_some (s.store.lookup key)
  · rw [and_ne_eq (expiredAt_of_absent hl env.now), hl]
    rfl
  · simp only [hl]
    split_ifs with hx
    · have hst : ((s.dropExpired key).recordMiss).store = s.store.erase key := rfl
      exact expiredAt_erase hst env.now
    · rw [and_ne_eq (by rw [expiredAt_of_lookup hl]; simpa using hx)]
      rfl

theorem existsExclusive_traced : ∀ (keys : List Key) (s : KvEngine), (∀ k ∈ keys, k ∈ cmd.keys) →
    Traced env cmd s₀ [] (firsts (expiredAt env.now s) keys) s (s.existsExclusive env keys).2
  | [], s, _ => .refl s
  | key :: keys, s, hk => by
    have hhead : Traced env cmd s₀ [] _ s (s.containsLive env key).2 :=
      containsLive_traced (hk key List.mem_cons_self)
    have htail : Traced env cmd s₀ [] _ (s.containsLive env key).2 _ :=
      existsExclusive_traced keys _ fun k h => hk k (List.mem_cons_of_mem _ h)
    rw [containsLive_expiredAt] at htail
    rw [firsts_cons]
    exact hhead.trans htail

theorem existsShared_spec : ∀ (keys : List Key) (s : KvEngine),
    (existsShared env keys s).1.2 = keys.filter (expiredAt env.shared s)
      ∧ (existsShared env keys s).2.store = s.store ∧ Calm s (existsShared env keys s).2
  | [], _ => ⟨rfl, rfl, rfl, rfl, rfl⟩
  | key :: keys, s => by
    obtain hl | ⟨e, hl⟩ := Option.eq_none_or_eq_some (s.store.lookup key)
    · simp only [existsShared, hl, List.filter_cons, expiredAt_of_absent hl]
      exact existsShared_spec keys s.recordMiss
    · simp only [existsShared, hl, List.filter_cons, expiredAt_of_lookup hl]
      by_cases hx : e.isExpired env.shared = true
      · obtain ⟨hkeys, hrest⟩ := existsShared_spec keys s
        simp only [hx, if_true]
        exact ⟨congrArg (key :: ·) hkeys, hrest⟩
      · simp only [hx]
        exact existsShared_spec keys s.recordHit

theorem existsMany_traced (s : KvEngine) (keys : List Key) :
    Traced env (.existsMany keys) s [] (expirations env s (.existsMany keys)) s
      (s.existsMany env keys).2 := by
  unfold existsMany
  split_ifs with h
  · rw [h]
    exact .refl s
  · obtain ⟨hkeys, hst, hcalm⟩ := @existsShared_spec env keys s
    have hshared : Traced env (.existsMany keys) s [] [] s (existsShared env keys s).2 :=
      note_traced hst hcalm
    have hagain : Traced env (.existsMany keys) s [] _ (existsShared env keys s).2 _ :=
      existsExclusive_traced (existsShared env keys s).1.2 _ fun k hk => by
        rw [hkeys] at hk
        exact List.mem_of_mem_filter hk
    have hnow : expiredAt env.now (existsShared env keys s).2 = expiredAt env.now s := by
      unfold expiredAt
      rw [hst]
    rw [hkeys, hnow, firsts_filter] at hagain
    simp only [hkeys]
    exact hshared.trans hagain

/-! ## The sweep -/

theorem sweepWindow_lookup {sample : ℕ} {x : Σ _ : Key, ValueEntry}
    (h : x ∈ s.sweepWindow env sample) : s.store.lookup x.1 = some x.2 := by
  have hmem : x ∈ env.iter s.store := Cyclic.mem_order.1 (List.mem_of_mem_take h)
  exact AList.mem_lookup_iff.2 ((env.iter_perm s.store).mem_iff.1 hmem)

theorem sweepWindow_nodup (sample : ℕ) : ((s.sweepWindow env sample).map (·.1)).Nodup := by
  obtain ⟨start, hw⟩ : ∃ start, s.sweepWindow env sample
      = (Cyclic.order start (env.iter s.store)).take sample := ⟨_, rfl⟩
  have hperm := ((Cyclic.order_perm start (env.iter s.store)).trans (env.iter_perm s.store)).map
    Sigma.fst
  rw [hw]
  exact (hperm.nodup_iff.2 s.store.nodupKeys).sublist ((List.take_sublist _ _).map _)

theorem sweepVictims_traced {sample : ℕ} : ∀ (l : List Key) (s : KvEngine), l.Nodup →
    (∀ k ∈ l, expiredAt env.now s k = true) →
    Traced env (.sweepExpired sample) s₀ [] l s (l.foldl sweepVictim s)
  | [], s, _, _ => .refl s
  | key :: l, s, hnd, hx => by
    obtain ⟨hnot, hnd⟩ := List.nodup_cons.1 hnd
    obtain ⟨e, he, hex⟩ := lookup_of_expiredAt (hx key List.mem_cons_self)
    have hdoes : (Effect.sweep key).Does env (.sweepExpired sample) s₀ s (s.sweepVictim key) :=
      ⟨.sweep key e ⟨sample, rfl⟩ he hex, rfl, rfl, rfl⟩
    have hst : (s.sweepVictim key).store = s.store.erase key := rfl
    refine hdoes.traced.trans (sweepVictims_traced l _ hnd fun k hk => ?_)
    have hne : k ≠ key := fun h => hnot (h ▸ hk)
    simp [expiredAt_erase hst, hx k (List.mem_cons_of_mem _ hk), hne]

theorem sweepExpired_traced (s : KvEngine) (sample : ℕ) :
    Traced env (.sweepExpired sample) s [] (expirations env s (.sweepExpired sample)) s
      (s.sweepExpired env sample).2 := by
  unfold expirations sweepExpired
  split_ifs with hz
  · subst hz
    exact .refl s
  simp only []
  generalize hv : ((s.sweepWindow env sample).filter fun e => e.2.isExpired env.now).map (·.1)
    = victims
  have hnd : victims.Nodup := by
    rw [← hv]
    exact (sweepWindow_nodup sample).sublist (List.filter_sublist.map _)
  have hexp : ∀ k ∈ victims, expiredAt env.now s k = true := by
    intro k hk
    rw [← hv] at hk
    obtain ⟨x, hx, rfl⟩ := List.mem_map.1 hk
    obtain ⟨hmem, hex⟩ := List.mem_filter.1 hx
    rw [expiredAt_of_lookup (sweepWindow_lookup hmem)]
    exact hex
  have hcursor : ∀ a : KvEngine, a.store = s.store → Calm s a →
      Traced env (.sweepExpired sample) s [] victims s (victims.foldl sweepVictim a) := by
    intro a hst hc
    have hnow : expiredAt env.now a = expiredAt env.now s := by
      unfold expiredAt
      rw [hst]
    exact (note_traced hst hc).trans
      (sweepVictims_traced victims a hnd fun k hk => by rw [hnow]; exact hexp k hk)
  by_cases hlen : 0 < (env.iter s.store).length
  · rw [if_pos hlen]
    exact hcursor _ rfl ⟨rfl, rfl, rfl⟩
  · rw [if_neg hlen]
    exact hcursor s rfl ⟨rfl, rfl, rfl⟩

theorem setEvictionConfig_counters (env : Env) (s : KvEngine) (cfg : EvictionConfig) :
    (s.setEvictionConfig env cfg).expiredKeys = s.expiredKeys
      ∧ (s.setEvictionConfig env cfg).evictedKeys = s.evictedKeys := by
  unfold setEvictionConfig
  simp only []
  split_ifs <;> exact ⟨rfl, rfl⟩

end Traced

/-- Every command is a sequence of effects with the uses and the expirations foretold. -/
theorem exec_traced (env : Env) (s : KvEngine) (cmd : Command) :
    Traced env cmd s (uses env s cmd) (expirations env s cmd) s (exec env s cmd).2 := by
  cases cmd with
  | set key value => exact set_traced s key value
  | setNx key value => exact setNx_traced s key value
  | mset pairs => exact mset_traced s pairs
  | get key => exact get_traced s key
  | mget keys => exact mget_traced s keys
  | incrBy key delta => exact incrBy_traced s key delta
  | incrByFloat key delta => exact incrByFloat_traced s key delta
  | append key suffix => exact append_traced s key suffix
  | del key => exact del_traced s key
  | delMany keys => exact delMany_traced s keys
  | existsKey key => exact existsKey_traced s key
  | existsMany keys => exact existsMany_traced s keys
  | dbsize => exact .refl s
  | scanKeys pattern => exact .refl s
  | expireStats => exact .refl s
  | strlen key => exact strlen_traced s key
  | flushdb =>
    have h : Effect.flush.Does env .flushdb s s s.flushdb := ⟨.flush rfl, rfl, rfl, rfl⟩
    exact h.traced
  | expireAtMs key absEpochMs => exact expireAtMs_traced s key absEpochMs
  | persist key => exact persist_traced s key
  | ttlMs key => exact ttlMs_traced s key
  | memoryUsage key => exact memoryUsage_traced s key
  | sweepExpired sample => exact sweepExpired_traced s sample
  | setEvictionConfig cfg =>
    have h : (Effect.configure cfg).Does env (.setEvictionConfig cfg) s s
        (s.setEvictionConfig env cfg) :=
      ⟨setEvictionConfig_store env s cfg ▸ .configure cfg rfl, rfl,
        (setEvictionConfig_counters env s cfg).1, (setEvictionConfig_counters env s cfg).2⟩
    exact h.traced

end FerrumKv
