import FerrumKv.Commands
import FerrumKv.Proofs.Entry
import FerrumKv.Proofs.Victim

/-!
# What the operations on one entry do

The outcomes of `EXPIRE` and `PERSIST` case by case (`expireAtMs_spec`, `persist_spec`), what a
write does where no ceiling is set, the one state every lazily expiring read leaves (`lapsed`), and
the fields the other operations leave alone.
-/

namespace FerrumKv

open KvEngine

/-! ## Size checks -/

theorem validatePair_ok {key value : Bytes} (hk : validateKey key = .ok ())
    (hv : validateValue value = .ok ()) : validatePair key value = .ok () := by
  simp [validatePair, hk, hv]

theorem validateValue_of_le {value : Bytes} (h : value.length ≤ valueMaxBytes) :
    validateValue value = .ok () := by
  simp [validateValue, h]

theorem validateValue_i64ToString (n : Int64) : validateValue (i64ToString n) = .ok () := by
  refine validateValue_of_le ((length_i64ToString_le n).trans ?_)
  decide

theorem validateKey_of_validatePair {key value : Bytes} (h : validatePair key value = .ok ()) :
    validateKey key = .ok () := by
  unfold validatePair at h
  split at h
  · cases h
  · assumption

theorem length_of_validateKey {key : Bytes} (h : validateKey key = .ok ()) :
    key.length ≤ 65536 := by
  unfold validateKey at h
  split_ifs at h with h₁ h₂
  exact not_lt.1 h₂

theorem length_of_validateValue {value : Bytes} (h : validateValue value = .ok ()) :
    value.length ≤ 16777216 := by
  unfold validateValue at h
  split_ifs at h with h₁
  exact not_lt.1 h₁

theorem validateValue_of_validatePair {key value : Bytes} (h : validatePair key value = .ok ()) :
    validateValue value = .ok () := by
  unfold validatePair at h
  split at h
  · cases h
  · exact h

theorem lengths_of_validatePair {key value : Bytes} (h : validatePair key value = .ok ()) :
    key.length ≤ 65536 ∧ value.length ≤ 16777216 :=
  ⟨length_of_validateKey (validateKey_of_validatePair h),
    length_of_validateValue (validateValue_of_validatePair h)⟩

/-! ## Stored keys -/

def Holds (s : KvEngine) (key : Key) : Prop := ∃ e, s.store.lookup key = some e

theorem holds_of_existed {env : Env} {s : KvEngine} {key : Key} (h : existed env s key = true) :
    Holds s key := by
  unfold existed at h
  split at h
  · rename_i e he
    exact ⟨e, he⟩
  · cases h

theorem setEvictionConfig_store (env : Env) (s : KvEngine) (cfg : EvictionConfig) :
    (s.setEvictionConfig env cfg).store = s.store := by
  unfold setEvictionConfig
  simp only []
  split_ifs <;> rfl

theorem setEvictionConfig_aof (env : Env) (s : KvEngine) (cfg : EvictionConfig) :
    (s.setEvictionConfig env cfg).aof = s.aof := by
  unfold setEvictionConfig
  simp only []
  split_ifs <;> rfl

theorem setEvictionConfig_hits (env : Env) (s : KvEngine) (cfg : EvictionConfig) :
    (s.setEvictionConfig env cfg).hits = s.hits := by
  unfold setEvictionConfig
  simp only []
  split_ifs <;> rfl

theorem setEvictionConfig_misses (env : Env) (s : KvEngine) (cfg : EvictionConfig) :
    (s.setEvictionConfig env cfg).misses = s.misses := by
  unfold setEvictionConfig
  simp only []
  split_ifs <;> rfl

theorem setDeadline_of_lookup {s : KvEngine} {key : Key} {e : ValueEntry} (d : Option ℕ)
    (h : s.store.lookup key = some e) :
    s.setDeadline key d = { s with store := s.store.insert key { e with expireAt := d } } := by
  simp [setDeadline, h]

/-- The state after `EXPIRE` gave a stored key a deadline in the future. -/
def deadlined (env : Env) (s : KvEngine) (key : Key) (absEpochMs : Int64) : KvEngine :=
  (((s.setDeadline key (some (env.now + (absEpochMs.toInt - env.nowMs.toInt).toNat))
    ).sieveNotifyInsert key true).acNotifyInsert key true).appendAof [.pexpireat key absEpochMs]

def persisted (s : KvEngine) (key : Key) : KvEngine :=
  (((s.setDeadline key none).sieveNotifyRemove key).acNotifyRemove key).appendAof [.persist key]

/-- The state after `MEMORY USAGE` met an expired entry. -/
def discarded (s : KvEngine) (key : Key) (e : ValueEntry) : KvEngine :=
  (({ s with store := s.store.erase key }).untrack key e).logExpireDrop key

theorem expireAtMs_spec (env : Env) (s : KvEngine) (key : Key) (absEpochMs : Int64) :
    (s.store.lookup key = none ∧ s.expireAtMs env key absEpochMs = (false, s))
    ∨ (∃ e, s.store.lookup key = some e ∧ e.isExpired env.now = true
      ∧ s.expireAtMs env key absEpochMs = (false, s.dropExpired key))
    ∨ (∃ e, s.store.lookup key = some e ∧ e.isExpired env.now = false
      ∧ absEpochMs.toInt ≤ env.nowMs.toInt
      ∧ s.expireAtMs env key absEpochMs = (true, (s.trackRemove key).appendAof [.del key]))
    ∨ (∃ e, s.store.lookup key = some e ∧ e.isExpired env.now = false
      ∧ env.nowMs.toInt < absEpochMs.toInt
      ∧ s.expireAtMs env key absEpochMs = (true, deadlined env s key absEpochMs)) := by
  unfold expireAtMs KvEngine.expireAt
  cases he : s.store.lookup key with
  | none => exact .inl ⟨rfl, by simp [he]⟩
  | some e =>
    by_cases hx : e.isExpired env.now = true
    · have hl : (s.dropExpired key).store.lookup key = none := AList.lookup_erase _ _
      exact .inr (.inl ⟨e, rfl, hx, by simp [hx, hl]⟩)
    · rw [Bool.not_eq_true] at hx
      by_cases hle : absEpochMs.toInt ≤ env.nowMs.toInt
      · exact .inr (.inr (.inl ⟨e, rfl, hx, hle, by simp [hx, hle, he]⟩))
      · exact .inr (.inr (.inr ⟨e, rfl, hx, by omega, by simp [hx, hle, he, deadlined]⟩))

theorem persist_spec (env : Env) (s : KvEngine) (key : Key) :
    (s.store.lookup key = none ∧ s.persist env key = (false, s))
    ∨ (∃ e, s.store.lookup key = some e ∧ e.isExpired env.now = true
      ∧ s.persist env key = (false, s.dropExpired key))
    ∨ (∃ e, s.store.lookup key = some e ∧ e.isExpired env.now = false ∧ e.expireAt = none
      ∧ s.persist env key = (false, s))
    ∨ (∃ e, s.store.lookup key = some e ∧ e.isExpired env.now = false ∧ e.expireAt ≠ none
      ∧ s.persist env key = (true, persisted s key)) := by
  unfold KvEngine.persist
  cases he : s.store.lookup key with
  | none => exact .inl ⟨rfl, rfl⟩
  | some e =>
    by_cases hx : e.isExpired env.now = true
    · exact .inr (.inl ⟨e, rfl, hx, by simp [hx]⟩)
    · rw [Bool.not_eq_true] at hx
      by_cases hd : e.expireAt = none
      · exact .inr (.inr (.inl ⟨e, rfl, hx, hd, by simp [hx, hd]⟩))
      · exact .inr (.inr (.inr ⟨e, rfl, hx, hd, by simp [hx, hd, persisted]⟩))

section Lapse

variable (env : Env)

/-- The state after an entry that has expired at the guard's clock was removed. -/
def lapsed (env : Env) (s : KvEngine) (key : Key) : KvEngine :=
  match s.store.lookup key with
  | some entry => if entry.isExpired env.now then s.dropExpired key else s
  | none => s

theorem readState_snd (s : KvEngine) (key : Key) :
    (s.readState env key).2 = lapsed env s key := by
  unfold readState lapsed
  rcases s.store.lookup key with _ | e
  · rfl
  · simp only []
    split_ifs <;> rfl

theorem strlenOf_snd (s : KvEngine) (key : Key) : (s.strlenOf env key).2 = lapsed env s key := by
  unfold strlenOf lapsed
  rcases s.store.lookup key with _ | e
  · rfl
  · simp only []
    split_ifs <;> rfl

theorem ttlOf_snd (s : KvEngine) (key : Key) : (s.ttlOf env key).2 = lapsed env s key := by
  unfold ttlOf lapsed
  rcases s.store.lookup key with _ | e
  · rfl
  · simp only []
    split_ifs <;> rfl

end Lapse

section Write

variable {env : Env}

theorem enforceForWrite_of_zero {s : KvEngine} (h : s.eviction.maxMemory = 0) (key : Key) (n : ℕ) :
    s.enforceForWrite env key n = (.ok (), s) := by
  simp [enforceForWrite, enforceMemoryLimit, h]

theorem set_of_zero {s : KvEngine} (h : s.eviction.maxMemory = 0) {key value : Bytes}
    (hv : validatePair key value = .ok ()) :
    s.set env key value
      = (.ok ((s.store.lookup key).bind (livePayload env.payloadNow)),
        (s.appendAof [.set key value]).trackInsert key (.new (env.access 0) value)) := by
  unfold KvEngine.set KvEngine.insert
  simp only [hv, enforceForWrite_of_zero h]

theorem del_eq (env : Env) (s : KvEngine) (key : Key) :
    (s.del env key).2 = s.trackRemove key
      ∨ (s.del env key).2 = (s.trackRemove key).appendAof [.del key] := by
  unfold del remove
  simp only []
  split_ifs
  · exact .inr rfl
  · exact .inl rfl

theorem del_store (env : Env) (s : KvEngine) (key : Key) :
    (s.del env key).2.store = s.store.erase key := by
  rcases del_eq env s key with h | h <;> rw [h] <;> rfl

end Write

end FerrumKv
