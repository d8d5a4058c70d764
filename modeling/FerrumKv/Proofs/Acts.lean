import FerrumKv.Commands
import FerrumKv.Proofs.Victim
import FerrumKv.Proofs.WriteGuard
import Mathlib.Logic.Relation

/-!
# What a command can do

Every command is a sequence of a few elementary acts on the engine (`exec_acts`): counting, touching
an entry, removing a key with its `DEL`, forgetting a key that is not live, evicting, writing with
the records of the write, flushing, reconfiguring, and three edits. What every act preserves, every
command preserves. All acts but the policy change leave the configuration alone (`exec_plainActs`).
-/

namespace FerrumKv

open KvEngine

/-- A deadline that a write keeps: none, or the one `key` had in `s₀`, not yet reached. -/
def Kept (env : Env) (s₀ : KvEngine) (key : Key) (ttl : Option ℕ) : Prop :=
  ttl = none ∨ ∃ e d, s₀.store.lookup key = some e ∧ e.expireAt = some d ∧ env.now < d ∧ ttl = some d

/-- One act of the command `cmd` that began in the state `s₀`. -/
inductive Act (env : Env) (cmd : Command) (s₀ : KvEngine) : KvEngine → KvEngine → Prop
  | count (s : KvEngine) (hits misses evicted expired cursor : ℕ) :
    Act env cmd s₀ s
      { s with
        hits := hits, misses := misses, evictedKeys := evicted, expiredKeys := expired
        sweepCursor := cursor }
  | touch (s : KvEngine) (r : AccessReading) (key : Key) : Act env cmd s₀ s (s.touchAccess r key)
  | remove (s : KvEngine) (key : Key) (hk : Holds s key ∨ Holds s₀ key) :
    Act env cmd s₀ s ((s.trackRemove key).appendAof [.del key])
  | forget (s : KvEngine) (key : Key) (h : existed env s key = false) :
    Act env cmd s₀ s (s.trackRemove key)
  | evict (s : KvEngine) (victim : Key) (h : (s.selectVictim env).1 = some victim) :
    Act env cmd s₀ s ((s.selectVictim env).2.evictVictim victim)
  | noVictim (s : KvEngine) (h : (s.selectVictim env).1 = none) :
    Act env cmd s₀ s (s.selectVictim env).2
  | write (s : KvEngine) (key value : Bytes) (ttl : Option ℕ) (r : AccessReading)
    (hv : validatePair key value = .ok ()) (ht : Kept env s₀ key ttl) :
    Act env cmd s₀ s ((s.appendAof (.set key value :: keepTtlRecords env key ttl)).trackInsert key
      (.newWith r value ttl))
  | flush (s : KvEngine) : Act env cmd s₀ s s.clear
  | config (s : KvEngine) (cfg : EvictionConfig) : Act env cmd s₀ s (s.setEvictionConfig env cfg)
  | deadline (key : Key) (absEpochMs : Int64) (e : ValueEntry)
    (hc : cmd = .expireAtMs key absEpochMs) (hk : s₀.store.lookup key = some e)
    (he : e.isExpired env.now = false) (hlt : env.nowMs.toInt < absEpochMs.toInt) :
    Act env cmd s₀ s₀ (deadlined env s₀ key absEpochMs)
  | persist (key : Key) (e : ValueEntry) (hc : cmd = .persist key)
    (hk : s₀.store.lookup key = some e) (he : e.isExpired env.now = false)
    (hd : e.expireAt ≠ none) :
    Act env cmd s₀ s₀ (persisted s₀ key)
  | discard (key : Key) (e : ValueEntry) (hc : cmd = .memoryUsage key)
    (hk : s₀.store.lookup key = some e) (hs : e.isExpired env.shared = true)
    (he : e.isExpired env.now = true) :
    Act env cmd s₀ s₀ (discarded s₀ key e)

def Acts (env : Env) (cmd : Command) (s₀ : KvEngine) : KvEngine → KvEngine → Prop :=
  Relation.ReflTransGen (Act env cmd s₀)

theorem Acts.preserves {env : Env} {cmd : Command} {s₀ a b : KvEngine} {P : KvEngine → Prop}
    (hP : ∀ a b, Act env cmd s₀ a b → P a → P b) (h : Acts env cmd s₀ a b) (ha : P a) : P b := by
  induction h with
  | refl => exact ha
  | tail _ hstep ih => exact hP _ _ hstep ih

def SameConfig (a b : KvEngine) : Prop := b.eviction = a.eviction ∧ b.indexKind = a.indexKind

/-- A sequence of acts that leave the configuration alone. -/
def PlainActs (env : Env) (cmd : Command) (s₀ : KvEngine) : KvEngine → KvEngine → Prop :=
  Relation.ReflTransGen fun a b => Act env cmd s₀ a b ∧ SameConfig a b

namespace PlainActs

variable {env : Env} {cmd : Command} {s₀ a b c : KvEngine}

theorem refl (s : KvEngine) : PlainActs env cmd s₀ s s := Relation.ReflTransGen.refl

theorem single (h : Act env cmd s₀ a b) (hs : SameConfig a b) : PlainActs env cmd s₀ a b :=
  Relation.ReflTransGen.single ⟨h, hs⟩

theorem trans (h : PlainActs env cmd s₀ a b) (h' : PlainActs env cmd s₀ b c) :
    PlainActs env cmd s₀ a c :=
  Relation.ReflTransGen.trans h h'

theorem acts (h : PlainActs env cmd s₀ a b) : Acts env cmd s₀ a b := by
  induction h with
  | refl => exact Relation.ReflTransGen.refl
  | tail _ hstep ih => exact ih.tail hstep.1

theorem foldl {α : Type} {f : KvEngine → α → KvEngine} :
    ∀ (l : List α) (s : KvEngine), (∀ s, ∀ x ∈ l, PlainActs env cmd s₀ s (f s x)) →
      PlainActs env cmd s₀ s (l.foldl f s)
  | [], s, _ => refl s
  | x :: l, s, hf => (hf s x List.mem_cons_self).trans
      (foldl l (f s x) fun s y hy => hf s y (List.mem_cons_of_mem _ hy))

end PlainActs

section Acts

variable {env : Env} {cmd : Command} {s₀ : KvEngine}

theorem touchAccess_sameConfig (s : KvEngine) (r : AccessReading) (key : Key) :
    SameConfig s (s.touchAccess r key) := by
  unfold touchAccess
  split <;> exact ⟨rfl, rfl⟩

theorem selectVictim_sameConfig (env : Env) (s : KvEngine) :
    SameConfig s (s.selectVictim env).2 := by
  rw [selectVictim_frame]
  exact ⟨rfl, rfl⟩

/-! ## Reads -/

theorem recordHit_acts (s : KvEngine) : PlainActs env cmd s₀ s s.recordHit :=
  .single (.count s (s.hits + 1) s.misses s.evictedKeys s.expiredKeys s.sweepCursor) ⟨rfl, rfl⟩

theorem recordMiss_acts (s : KvEngine) : PlainActs env cmd s₀ s s.recordMiss :=
  .single (.count s s.hits (s.misses + 1) s.evictedKeys s.expiredKeys s.sweepCursor) ⟨rfl, rfl⟩

theorem touchAccess_acts (s : KvEngine) (r : AccessReading) (key : Key) :
    PlainActs env cmd s₀ s (s.touchAccess r key) :=
  .single (.touch s r key) (touchAccess_sameConfig s r key)

theorem dropExpired_acts {s : KvEngine} {key : Key} {e : ValueEntry}
    (he : s.store.lookup key = some e) : PlainActs env cmd s₀ s (s.dropExpired key) :=
  .single (.remove s key (.inl ⟨e, he⟩)) ⟨rfl, rfl⟩

theorem fetchLive_acts (i : ℕ) (s : KvEngine) (key : Key) :
    PlainActs env cmd s₀ s (s.fetchLive env i key).2 := by
  unfold fetchLive
  split
  · rename_i e he
    split_ifs
    · exact (dropExpired_acts he).trans (recordMiss_acts _)
    · exact (touchAccess_acts s _ key).trans (recordHit_acts _)
  · exact recordMiss_acts s

theorem containsLive_acts (s : KvEngine) (key : Key) :
    PlainActs env cmd s₀ s (s.containsLive env key).2 := by
  unfold containsLive
  split
  · rename_i e he
    split_ifs
    · exact (dropExpired_acts he).trans (recordMiss_acts _)
    · exact recordHit_acts s
  · exact recordMiss_acts s

theorem get_acts (s : KvEngine) (key : Key) : PlainActs env cmd s₀ s (s.get env key).2 := by
  unfold KvEngine.get
  split
  · split_ifs
    · exact fetchLive_acts 0 s key
    · exact (touchAccess_acts s _ key).trans (recordHit_acts _)
  · exact recordMiss_acts s

theorem mgetShared_acts : ∀ (i : ℕ) (keys : List Key) (s : KvEngine),
    PlainActs env cmd s₀ s (s.mgetShared env i keys).2
  | _, [], s => .refl s
  | i, key :: keys, s => by
    unfold mgetShared
    split
    · split_ifs
      · exact mgetShared_acts (i + 1) keys s
      · exact ((touchAccess_acts s _ key).trans (recordHit_acts _)).trans
          (mgetShared_acts (i + 1) keys _)
    · exact (recordMiss_acts s).trans (mgetShared_acts (i + 1) keys _)

theorem mget_acts (s : KvEngine) (keys : List Key) : PlainActs env cmd s₀ s (s.mget env keys).2 :=
  (mgetShared_acts 0 keys s).trans (PlainActs.foldl _ _ fun s p _ => fetchLive_acts p.1 s p.2)

theorem existsKey_acts (s : KvEngine) (key : Key) :
    PlainActs env cmd s₀ s (s.existsKey env key).2 := by
  unfold existsKey
  split
  · split_ifs
    · exact containsLive_acts s key
    · exact recordHit_acts s
  · exact recordMiss_acts s

theorem existsShared_acts : ∀ (keys : List Key) (s : KvEngine),
    PlainActs env cmd s₀ s (s.existsShared env keys).2
  | [], s => .refl s
  | key :: keys, s => by
    unfold existsShared
    split
    · split_ifs
      · exact existsShared_acts keys s
      · exact (recordHit_acts s).trans (existsShared_acts keys _)
    · exact (recordMiss_acts s).trans (existsShared_acts keys _)

theorem existsExclusive_acts : ∀ (keys : List Key) (s : KvEngine),
    PlainActs env cmd s₀ s (s.existsExclusive env keys).2
  | [], s => .refl s
  | key :: keys, s => (containsLive_acts s key).trans (existsExclusive_acts keys _)

theorem existsMany_acts (s : KvEngine) (keys : List Key) :
    PlainActs env cmd s₀ s (s.existsMany env keys).2 := by
  unfold existsMany
  split_ifs
  · exact .refl s
  · exact (existsShared_acts keys s).trans (existsExclusive_acts _ _)

theorem strlenOf_acts (s : KvEngine) (key : Key) :
    PlainActs env cmd s₀ s (s.strlenOf env key).2 := by
  unfold strlenOf
  split
  · rename_i he
    split_ifs
    · exact dropExpired_acts he
    · exact .refl s
  · exact .refl s

theorem strlen_acts (s : KvEngine) (key : Key) : PlainActs env cmd s₀ s (s.strlen env key).2 := by
  unfold strlen
  split
  · split_ifs
    · exact strlenOf_acts s key
    · exact .refl s
  · exact .refl s

theorem ttlOf_acts (s : KvEngine) (key : Key) : PlainActs env cmd s₀ s (s.ttlOf env key).2 := by
  unfold ttlOf
  split
  · exact .refl s
  · rename_i he
    split_ifs
    · exact dropExpired_acts he
    · exact .refl s

theorem ttlMs_acts (s : KvEngine) (key : Key) : PlainActs env cmd s₀ s (s.ttlMs env key).2 := by
  unfold ttlMs
  split
  · split_ifs
    · exact ttlOf_acts s key
    · exact .refl s
  · exact .refl s

theorem readState_acts (s : KvEngine) (key : Key) :
    PlainActs env cmd s₀ s (s.readState env key).2 := by
  unfold readState
  split
  · rename_i he
    split_ifs
    · exact dropExpired_acts he
    · exact .refl s
  · exact .refl s

theorem evictLoop_acts (incoming : ℕ) : ∀ (rounds : ℕ) (s : KvEngine),
    PlainActs env cmd s₀ s (evictLoop env incoming rounds s).2
  | 0, s => .refl s
  | rounds + 1, s => by
    unfold evictLoop
    split_ifs
    · exact .refl s
    · exact .refl s
    · rcases h : s.selectVictim env with ⟨_ | victim, s'⟩
      · have hact : Act env cmd s₀ s (s.selectVictim env).2 := .noVictim s (by rw [h])
        have hsame := selectVictim_sameConfig env s
        rw [h] at hact hsame
        exact .single hact hsame
      · have hact : Act env cmd s₀ s ((s.selectVictim env).2.evictVictim victim) :=
          .evict s victim (by rw [h])
        have hsame : SameConfig s ((s.selectVictim env).2.evictVictim victim) :=
          selectVictim_sameConfig env s
        rw [h] at hact hsame
        exact (PlainActs.single hact hsame).trans (evictLoop_acts incoming rounds _)

theorem enforceMemoryLimit_acts (s : KvEngine) (incoming : ℕ) :
    PlainActs env cmd s₀ s (s.enforceMemoryLimit env incoming).2 := by
  unfold enforceMemoryLimit
  split_ifs
  · exact .refl s
  · have h : PlainActs env cmd s₀ s _ := evictLoop_acts incoming (max s.store.entries.length 1 + 16) s
    split
    · rename_i e s' he
      rw [he] at h
      exact h
    · rename_i s' he
      rw [he] at h
      split_ifs <;> exact h

theorem enforceForWrite_acts (s : KvEngine) (key : Key) (valueLen : ℕ) :
    PlainActs env cmd s₀ s (s.enforceForWrite env key valueLen).2 :=
  enforceMemoryLimit_acts s _

/-! ## Writes -/

theorem write_acts (s : KvEngine) {key value : Bytes} {ttl : Option ℕ} (r : AccessReading)
    (hv : validatePair key value = .ok ()) (ht : Kept env s₀ key ttl) :
    PlainActs env cmd s₀ s ((s.appendAof (.set key value :: keepTtlRecords env key ttl)).trackInsert key
      (.newWith r value ttl)) :=
  .single (.write s key value ttl r hv ht) ⟨rfl, rfl⟩

theorem set_acts (s : KvEngine) (key value : Bytes) :
    PlainActs env cmd s₀ s (s.set env key value).2 := by
  unfold KvEngine.set KvEngine.insert
  split
  · exact .refl s
  · rename_i hv
    have h : PlainActs env cmd s₀ s _ := enforceForWrite_acts s key value.length
    split
    · rename_i he
      rw [he] at h
      exact h
    · rename_i he
      rw [he] at h
      exact h.trans (write_acts _ (env.access 0) hv (.inl rfl))

theorem insertAbsent_acts (s : KvEngine) {key value : Bytes}
    (hv : validatePair key value = .ok ()) :
    PlainActs env cmd s₀ s (insertNx.insertAbsent env key value s).2 := by
  unfold insertNx.insertAbsent
  have h : PlainActs env cmd s₀ s _ := enforceForWrite_acts s key value.length
  split
  · rename_i he
    rw [he] at h
    exact h
  · rename_i he
    rw [he] at h
    exact h.trans (write_acts _ (env.access 0) hv (.inl rfl))

theorem setNx_acts (s : KvEngine) (key value : Bytes) :
    PlainActs env cmd s₀ s (s.setNx env key value).2 := by
  unfold setNx insertNx
  split
  · exact .refl s
  · rename_i hv
    split
    · rename_i e he
      split_ifs with hx
      · exact (PlainActs.single (.forget s key (by simp [existed, he, hx])) ⟨rfl, rfl⟩).trans
          (insertAbsent_acts _ hv)
      · exact .refl s
    · exact insertAbsent_acts s hv

theorem enforceMany_acts : ∀ (pairs : List (Key × Bytes)) (s : KvEngine),
    PlainActs env cmd s₀ s (enforceMany env pairs s).2
  | [], s => .refl s
  | (k, v) :: pairs, s => by
    unfold enforceMany
    have h : PlainActs env cmd s₀ s _ := enforceForWrite_acts s k v.length
    split
    · rename_i he
      rw [he] at h
      exact h
    · rename_i he
      rw [he] at h
      exact h.trans (enforceMany_acts pairs _)

theorem validatePairs_ok : ∀ {pairs : List (Key × Bytes)}, validatePairs pairs = .ok () →
    ∀ p ∈ pairs, validatePair p.1 p.2 = .ok ()
  | [], _, _, hp => by cases hp
  | (k, v) :: pairs, h, p, hp => by
    unfold validatePairs at h
    split at h
    · cases h
    · rename_i hv
      rcases List.mem_cons.1 hp with rfl | hp
      · exact hv
      · exact validatePairs_ok h p hp

theorem appendAof_cons (s : KvEngine) (r : AofRecord) (rs : List AofRecord) :
    s.appendAof (r :: rs) = (s.appendAof [r]).appendAof rs := by
  unfold appendAof
  cases s.aof <;> simp

theorem appendAof_nil (s : KvEngine) : s.appendAof [] = s := by
  unfold appendAof
  cases h : s.aof <;> simp [← h]

/-- Logging the pairs of an `MSET` first and then inserting them is writing them one by one. -/
theorem trackInsertMany_acts : ∀ (i : ℕ) (pairs : List (Key × Bytes)) (s : KvEngine),
    (∀ p ∈ pairs, validatePair p.1 p.2 = .ok ()) →
    PlainActs env cmd s₀ s
      (trackInsertMany env i pairs (s.appendAof (pairs.map fun p => .set p.1 p.2)))
  | _, [], s, _ => by
    rw [List.map_nil, appendAof_nil]
    exact .refl s
  | i, (k, v) :: pairs, s, hv => by
    have hw : PlainActs env cmd s₀ s _ := write_acts s (env.access i) (hv (k, v) (by simp)) (.inl rfl)
    refine hw.trans ?_
    rw [List.map_cons, appendAof_cons s (.set k v) (pairs.map _)]
    exact trackInsertMany_acts (i + 1) pairs _ fun p hp => hv p (List.mem_cons_of_mem _ hp)

theorem mset_acts (s : KvEngine) (pairs : List (Key × Bytes)) :
    PlainActs env cmd s₀ s (s.mset env pairs).2 := by
  unfold mset insertMany
  split
  · exact .refl s
  · rename_i hv
    have h : PlainActs env cmd s₀ s _ := enforceMany_acts pairs s
    split
    · rename_i he
      rw [he] at h
      exact h
    · rename_i he
      rw [he] at h
      exact h.trans (trackInsertMany_acts 0 pairs _ (validatePairs_ok hv))

/-! ## Writes that keep a deadline -/

theorem readState_some {s s' : KvEngine} {key : Key} {data : Bytes} {ttl : Option ℕ}
    (h : s.readState env key = (some (data, ttl), s')) : Kept env s key ttl := by
  unfold readState at h
  split at h
  · rename_i e he
    split_ifs at h with hx
    · cases h
    · simp only [Prod.mk.injEq, Option.some.injEq] at h
      obtain ⟨⟨-, rfl⟩, -⟩ := h
      cases hd : e.expireAt with
      | none => exact .inl rfl
      | some d =>
        refine .inr ⟨e, d, he, hd, ?_, rfl⟩
        simpa [ValueEntry.isExpired, hd] using hx
  · cases h

theorem insertKeepTtl_acts (s : KvEngine) {key value : Bytes} {ttl : Option ℕ}
    (hv : validatePair key value = .ok ()) (ht : Kept env s₀ key ttl) :
    PlainActs env cmd s₀ s (s.insertKeepTtl env key value ttl).2 := by
  unfold insertKeepTtl
  have h : PlainActs env cmd s₀ s _ := enforceForWrite_acts s key value.length
  split
  · rename_i he
    rw [he] at h
    exact h
  · rename_i he
    rw [he] at h
    exact h.trans (write_acts _ (env.access 0) hv ht)

theorem incrBy_store_acts (s : KvEngine) {key : Key} (delta n : Int64) {ttl : Option ℕ}
    (hk : validateKey key = .ok ()) (ht : Kept env s₀ key ttl) :
    PlainActs env cmd s₀ s (incrBy.store env key delta s n ttl).2 := by
  unfold incrBy.store
  split
  · exact .refl s
  · rename_i newValue _
    have h : PlainActs env cmd s₀ s _ :=
      insertKeepTtl_acts s (validatePair_ok hk (validateValue_i64ToString newValue)) ht
    split <;> (rename_i he; rw [he] at h; exact h)

theorem incrBy_acts (s : KvEngine) (key : Key) (delta : Int64) :
    PlainActs env cmd s s (s.incrBy env key delta).2 := by
  unfold incrBy
  split
  · exact .refl s
  · rename_i hk
    have h : PlainActs env cmd s s _ := readState_acts s key
    split
    · rename_i data ttl s' hr
      rw [hr] at h
      split
      · exact h
      · exact h.trans (incrBy_store_acts s' delta _ hk (readState_some hr))
    · rename_i s' hr
      rw [hr] at h
      exact h.trans (incrBy_store_acts s' delta 0 hk (.inl rfl))

theorem incrByFloat_store_acts (s : KvEngine) {key : Key} (delta n : UInt64) {ttl : Option ℕ}
    (hk : validateKey key = .ok ()) (ht : Kept env s₀ key ttl) :
    PlainActs env cmd s₀ s (incrByFloat.store env key delta s n ttl).2 := by
  unfold incrByFloat.store
  simp only []
  split_ifs
  · exact .refl s
  · have h : PlainActs env cmd s₀ s _ := insertKeepTtl_acts s
      (validatePair_ok hk (validateValue_of_le (env.float.render_length (env.float.add n delta)))) ht
    split <;> (rename_i he; rw [he] at h; exact h)

theorem incrByFloat_acts (s : KvEngine) (key : Key) (delta : UInt64) :
    PlainActs env cmd s s (s.incrByFloat env key delta).2 := by
  unfold incrByFloat
  split
  · exact .refl s
  · rename_i hk
    have h : PlainActs env cmd s s _ := readState_acts s key
    split
    · rename_i data ttl s' hr
      rw [hr] at h
      split
      · exact h
      · exact h.trans (incrByFloat_store_acts s' delta _ hk (readState_some hr))
    · rename_i s' hr
      rw [hr] at h
      exact h.trans (incrByFloat_store_acts s' delta 0 hk (.inl rfl))

theorem append_store_acts (s : KvEngine) {key : Key} (value : Bytes) {ttl : Option ℕ}
    (hk : validateKey key = .ok ()) (ht : Kept env s₀ key ttl) :
    PlainActs env cmd s₀ s (append.store env key s value ttl).2 := by
  unfold append.store
  split
  · exact .refl s
  · rename_i hv
    have h : PlainActs env cmd s₀ s _ := insertKeepTtl_acts s (validatePair_ok hk hv) ht
    split <;> (rename_i he; rw [he] at h; exact h)

theorem append_acts (s : KvEngine) (key suffix : Bytes) :
    PlainActs env cmd s s (s.append env key suffix).2 := by
  unfold KvEngine.append
  split
  · exact .refl s
  · rename_i hk
    have h : PlainActs env cmd s s _ := readState_acts s key
    split
    · rename_i data ttl s' hr
      rw [hr] at h
      exact h.trans (append_store_acts s' _ hk (readState_some hr))
    · rename_i s' hr
      rw [hr] at h
      exact h.trans (append_store_acts s' _ hk (.inl rfl))

/-! ## Removals -/

theorem del_acts (s : KvEngine) (key : Key) : PlainActs env cmd s₀ s (s.del env key).2 := by
  unfold del remove
  simp only []
  split_ifs with h
  · exact .single (.remove s key (.inl (holds_of_existed h))) ⟨rfl, rfl⟩
  · exact .single (.forget s key (by simpa using h)) ⟨rfl, rfl⟩

theorem removeLoop_appendAof (rs : List AofRecord) : ∀ (keys : List Key) (s : KvEngine),
    removeLoop env keys (s.appendAof rs)
      = ((removeLoop env keys s).1, (removeLoop env keys s).2.appendAof rs)
  | [], _ => rfl
  | key :: keys, s => by
    unfold removeLoop
    have ih := removeLoop_appendAof rs keys (s.trackRemove key)
    have he : existed env (s.appendAof rs) key = existed env s key := rfl
    have ht : (s.appendAof rs).trackRemove key = (s.trackRemove key).appendAof rs := rfl
    simp only [he, ht, ih]
    split_ifs <;> rfl

/-- Logging the `DEL`s of a batch last is removing its keys one by one, each with its `DEL`. -/
theorem removeLoop_acts : ∀ (keys : List Key) (s : KvEngine),
    PlainActs env cmd s₀ s
      ((removeLoop env keys s).2.appendAof ((removeLoop env keys s).1.map .del))
  | [], s => by
    rw [removeLoop, List.map_nil, appendAof_nil]
    exact .refl s
  | key :: keys, s => by
    unfold removeLoop
    simp only []
    split_ifs with h
    · refine (PlainActs.single (.remove s key (.inl (holds_of_existed h))) ⟨rfl, rfl⟩).trans ?_
      have ih : PlainActs env cmd s₀ _ _ :=
        removeLoop_acts keys ((s.trackRemove key).appendAof [.del key])
      rw [removeLoop_appendAof] at ih
      rw [List.map_cons, appendAof_cons _ _ (List.map _ _)]
      exact ih
    · exact (PlainActs.single (.forget s key (by simpa using h)) ⟨rfl, rfl⟩).trans
        (removeLoop_acts keys (s.trackRemove key))

theorem delMany_acts (s : KvEngine) (keys : List Key) :
    PlainActs env cmd s₀ s (s.delMany env keys).2 := by
  unfold delMany
  split_ifs
  · exact .refl s
  · exact removeLoop_acts keys s

theorem sweepVictim_acts {key : Key} (hk : Holds s₀ key) (s : KvEngine) :
    PlainActs env cmd s₀ s (s.sweepVictim key) :=
  (PlainActs.single (.remove s key (.inr hk)) ⟨rfl, rfl⟩).trans
    (.single (.count _ s.hits s.misses s.evictedKeys (s.expiredKeys + 1) s.sweepCursor) ⟨rfl, rfl⟩)

theorem holds_of_mem_sweepWindow {s : KvEngine} {sample : ℕ} {e : Σ _ : Key, ValueEntry}
    (h : e ∈ s.sweepWindow env sample) : Holds s e.1 := by
  have h' := List.mem_of_mem_take h
  have hmem : e ∈ env.iter s.store := by
    rcases List.mem_append.1 h' with h' | h'
    · exact List.mem_of_mem_drop h'
    · exact List.mem_of_mem_take h'
  exact ⟨e.2, AList.mem_lookup_iff.2 ((env.iter_perm s.store).mem_iff.1 hmem)⟩

theorem sweepExpired_acts (s : KvEngine) (sample : ℕ) :
    PlainActs env cmd s s (s.sweepExpired env sample).2 := by
  unfold sweepExpired
  split_ifs
  · exact .refl s
  · refine PlainActs.trans ?_ (PlainActs.foldl _ _ fun s' key hkey => ?_)
    · by_cases hlen : 0 < (env.iter s.store).length
      · rw [if_pos hlen]
        exact .single (.count s s.hits s.misses s.evictedKeys s.expiredKeys _) ⟨rfl, rfl⟩
      · rw [if_neg hlen]
        exact .refl s
    · obtain ⟨e, he, rfl⟩ := List.mem_map.1 hkey
      exact sweepVictim_acts (holds_of_mem_sweepWindow (List.mem_of_mem_filter he)) s'

theorem expireAtMs_acts (s : KvEngine) (key : Key) (absEpochMs : Int64) :
    PlainActs env (.expireAtMs key absEpochMs) s s (s.expireAtMs env key absEpochMs).2 := by
  rcases expireAtMs_spec env s key absEpochMs with
    ⟨-, h⟩ | ⟨e, he, -, h⟩ | ⟨e, he, -, -, h⟩ | ⟨e, he, hx, hlt, h⟩ <;> rw [h]
  · exact .refl s
  · exact dropExpired_acts he
  · exact .single (.remove s key (.inl ⟨e, he⟩)) ⟨rfl, rfl⟩
  · refine .single (.deadline key absEpochMs e rfl he hx hlt) ?_
    rw [deadlined, setDeadline_of_lookup _ he]
    exact ⟨rfl, rfl⟩

theorem persist_acts (s : KvEngine) (key : Key) :
    PlainActs env (.persist key) s s (s.persist env key).2 := by
  rcases persist_spec env s key with
    ⟨-, h⟩ | ⟨e, he, -, h⟩ | ⟨e, he, -, -, h⟩ | ⟨e, he, hx, hd, h⟩ <;> rw [h]
  · exact .refl s
  · exact dropExpired_acts he
  · exact .refl s
  · refine .single (.persist key e rfl he hx hd) ?_
    rw [persisted, setDeadline_of_lookup _ he]
    exact ⟨rfl, rfl⟩

theorem memoryUsage_acts (s : KvEngine) (key : Key) :
    PlainActs env (.memoryUsage key) s s (s.memoryUsage env key).2 := by
  unfold memoryUsage memoryOf
  cases hl : s.store.lookup key with
  | none => exact .refl s
  | some e =>
    simp only []
    split_ifs with hs hx
    · exact .single (.discard key e rfl hl hs hx) ⟨rfl, rfl⟩
    · exact .refl s
    · exact .refl s

end Acts

/-- Every command but a policy change is a sequence of acts that leave the configuration alone. -/
theorem exec_plainActs (env : Env) (s : KvEngine) {cmd : Command}
    (hcmd : ∀ cfg, cmd ≠ .setEvictionConfig cfg) : PlainActs env cmd s s (exec env s cmd).2 := by
  cases cmd with
  | set key value => exact set_acts s key value
  | setNx key value => exact setNx_acts s key value
  | mset pairs => exact mset_acts s pairs
  | get key => exact get_acts s key
  | mget keys => exact mget_acts s keys
  | incrBy key delta => exact incrBy_acts s key delta
  | incrByFloat key delta => exact incrByFloat_acts s key delta
  | append key suffix => exact append_acts s key suffix
  | del key => exact del_acts s key
  | delMany keys => exact delMany_acts s keys
  | existsKey key => exact existsKey_acts s key
  | existsMany keys => exact existsMany_acts s keys
  | dbsize => exact .refl s
  | scanKeys pattern => exact .refl s
  | expireStats => exact .refl s
  | strlen key => exact strlen_acts s key
  | flushdb => exact .single (.flush s) ⟨rfl, rfl⟩
  | expireAtMs key absEpochMs => exact expireAtMs_acts s key absEpochMs
  | persist key => exact persist_acts s key
  | ttlMs key => exact ttlMs_acts s key
  | memoryUsage key => exact memoryUsage_acts s key
  | sweepExpired sample => exact sweepExpired_acts s sample
  | setEvictionConfig cfg => exact absurd rfl (hcmd cfg)

/-- Every command is a sequence of acts from the state it begins in. -/
theorem exec_acts (env : Env) (s : KvEngine) (cmd : Command) :
    Acts env cmd s s (exec env s cmd).2 := by
  by_cases hcmd : ∃ cfg, cmd = .setEvictionConfig cfg
  · obtain ⟨cfg, rfl⟩ := hcmd
    exact Relation.ReflTransGen.single (.config s cfg)
  · exact (exec_plainActs env s fun cfg he => hcmd ⟨cfg, he⟩).acts

end FerrumKv
