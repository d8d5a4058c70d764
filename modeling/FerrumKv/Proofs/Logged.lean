import FerrumKv.Proofs.Acts
import FerrumKv.View

/-!
# The log says what the keyspace shows

`Logged T s s'` relates two states of a run: the log grew by records whose action, at clock `T`,
takes what `s` shows at `T` to what `s'` shows at `T`. Every command is `Logged` at the clock it
runs at, and at every later clock `T` unless it replaces a deadline that has passed by `T` with a
later one or with none (`StepSafe`, `exec_logged`). Keys, values and deadlines in the store are
within their limits (`WellFormed`), so every record can be read back, and a deadline that is kept is
logged exactly.
-/

namespace FerrumKv

open KvEngine

variable {e : ValueEntry} {key : Key} {store : Store} {T : ℕ}

/-! ## Views of changed stores -/

theorem live_of_lookup {k : Key} (h : store.lookup k = some e) : live T store k = e.shown T := by
  simp [live, h]

theorem live_of_lookup_none {k : Key} (h : store.lookup k = none) : live T store k = none := by
  simp [live, h]

theorem live_insert (T : ℕ) (store : Store) (key : Key) (e : ValueEntry) (k : Key) :
    live T (store.insert key e) k = if k = key then e.shown T else live T store k := by
  unfold live
  split_ifs with h
  · subst h
    rw [AList.lookup_insert]
    rfl
  · rw [AList.lookup_insert_ne h]

theorem live_erase (T : ℕ) (store : Store) (key k : Key) :
    live T (store.erase key) k = if k = key then none else live T store k := by
  unfold live
  split_ifs with h
  · subst h
    rw [AList.lookup_erase]
    rfl
  · rw [AList.lookup_erase_ne h]

/-- Removing a key that is not live changes nothing that is. -/
theorem live_erase_of_none (h : live T store key = none) (k : Key) :
    live T (store.erase key) k = live T store k := by
  rw [live_erase]
  split_ifs with hk
  · rw [hk, h]
  · rfl

theorem shown_of_expired (h : e.isExpired T = true) :
    e.shown T = none := by
  simp [ValueEntry.shown, h]

theorem shown_of_not_expired (h : e.isExpired T = false) :
    e.shown T = some (e.data, e.expireAt) := by
  simp [ValueEntry.shown, h]

theorem shown_of_deadline {d : ℕ} (T : ℕ) (h : e.expireAt = some d) :
    e.shown T = if d ≤ T then none else some (e.data, some d) := by
  simp [ValueEntry.shown, ValueEntry.isExpired, h]

theorem shown_of_no_deadline (T : ℕ) (h : e.expireAt = none) :
    e.shown T = some (e.data, none) := by
  simp [ValueEntry.shown, ValueEntry.isExpired, h]

theorem clip_shown {t T : ℕ} (hT : t ≤ T) (e : ValueEntry) : clip T (e.shown t) = e.shown T := by
  cases h : e.expireAt with
  | none => rw [shown_of_no_deadline t h, shown_of_no_deadline T h]; rfl
  | some d =>
    rw [shown_of_deadline t h, shown_of_deadline T h]
    by_cases ht : d ≤ t
    · rw [if_pos ht, if_pos (ht.trans hT)]; rfl
    · rw [if_neg ht]; rfl

/-- What a store shows at a later clock is what is left of what it shows now. -/
theorem live_clip {t T : ℕ} (hT : t ≤ T) (store : Store) (k : Key) :
    live T store k = clip T (live t store k) := by
  unfold live
  cases store.lookup k with
  | none => rfl
  | some e => exact (clip_shown hT e).symm

/-! ## The relation -/

/-- An entry that passed the size checks and whose deadline is an `i64`. -/
def EntryOk (k : Key) (e : ValueEntry) : Prop :=
  validatePair k e.data = .ok () ∧ ∀ d, e.expireAt = some d → d < 2 ^ 63

def WellFormed (store : Store) : Prop := ∀ k e, store.lookup k = some e → EntryOk k e

/-- What holds of every entry holds after a write of an entry of which it holds. -/
theorem forall_lookup_insert {Q : Key → ValueEntry → Prop}
    (h : ∀ k e, store.lookup k = some e → Q k e) (he : Q key e) :
    ∀ k e', (store.insert key e).lookup k = some e' → Q k e' := by
  intro k e' hl
  by_cases hk : k = key
  · subst hk
    rw [AList.lookup_insert, Option.some.injEq] at hl
    exact hl ▸ he
  · rw [AList.lookup_insert_ne hk] at hl
    exact h k e' hl

theorem forall_lookup_erase {Q : Key → ValueEntry → Prop}
    (h : ∀ k e, store.lookup k = some e → Q k e) (key : Key) :
    ∀ k e, (store.erase key).lookup k = some e → Q k e := by
  intro k e' hl
  by_cases hk : k = key
  · subst hk
    rw [AList.lookup_erase] at hl
    cases hl
  · rw [AList.lookup_erase_ne hk] at hl
    exact h k e' hl

theorem WellFormed.insert (h : WellFormed store)
    (he : EntryOk key e) : WellFormed (store.insert key e) :=
  forall_lookup_insert h he

theorem WellFormed.erase (h : WellFormed store) (key : Key) :
    WellFormed (store.erase key) :=
  forall_lookup_erase h key

theorem WellFormed.validateKey {s : KvEngine} (h : WellFormed s.store)
    (hk : Holds s key) : FerrumKv.validateKey key = .ok () := by
  obtain ⟨e, he⟩ := hk
  exact validateKey_of_validatePair (h key e he).1

/-- The log grew by records whose action at `T` takes the one view to the other. -/
def Logged (T : ℕ) (s s' : KvEngine) : Prop :=
  WellFormed s.store → WellFormed s'.store ∧
    ∃ rs, s'.aof = s.aof.map (· ++ rs) ∧ (∀ r ∈ rs, r.Valid)
      ∧ ∀ k, live T s'.store k = actAll T rs (live T s.store) k

section Logged

variable {T : ℕ} {s s' s'' : KvEngine}

theorem Logged.silent (hb : WellFormed s.store → WellFormed s'.store) (ha : s'.aof = s.aof)
    (hl : ∀ k, live T s'.store k = live T s.store k) : Logged T s s' := by
  intro h
  refine ⟨hb h, [], ?_, by simp, hl⟩
  rw [ha]
  cases s.aof <;> simp

theorem Logged.of_eq (hs : s'.store = s.store) (ha : s'.aof = s.aof) : Logged T s s' :=
  .silent (fun h => hs ▸ h) ha fun k => by rw [hs]

theorem Logged.refl (T : ℕ) (s : KvEngine) : Logged T s s := .of_eq rfl rfl

theorem actAll_append (T : ℕ) (rs rs' : List AofRecord) (v : View) (k : Key) :
    actAll T (rs ++ rs') v k = actAll T rs' (actAll T rs v) k := by
  simp [actAll, List.foldl_append]

theorem actAll_congr (rs : List AofRecord) {v w : View} {k : Key} (h : v k = w k) :
    actAll T rs v k = actAll T rs w k := by
  simp [actAll, h]

theorem Logged.trans (h : Logged T s s') (h' : Logged T s' s'') : Logged T s s'' := by
  intro hb
  obtain ⟨hb', rs, ha, hv, hl⟩ := h hb
  obtain ⟨hb'', rs', ha', hv', hl'⟩ := h' hb'
  refine ⟨hb'', rs ++ rs', ?_, ?_, fun k => ?_⟩
  · rw [ha', ha, Option.map_map]
    congr 1
    funext l
    simp [List.append_assoc]
  · intro r hr
    rcases List.mem_append.1 hr with hr | hr
    · exact hv r hr
    · exact hv' r hr
  · rw [hl' k, actAll_append]
    exact actAll_congr _ (hl k)

theorem Logged.remove (hk : WellFormed s.store → validateKey key = .ok ())
    (hs : s'.store = s.store.erase key)
    (ha : s'.aof = s.aof.map (· ++ [.del key])) : Logged T s s' := by
  intro hb
  rw [hs]
  refine ⟨hb.erase key, [.del key], ha, by simpa [AofRecord.Valid] using hk hb, fun k => ?_⟩
  rw [live_erase]
  rfl

theorem Logged.drop (hs : s'.store = s.store.erase key) (ha : s'.aof = s.aof)
    (hk : live T s.store key = none) : Logged T s s' := by
  refine .silent (fun hb => hs ▸ hb.erase key) ha fun k => ?_
  rw [hs, live_erase_of_none hk]

theorem Logged.write {rs : List AofRecord} (hs : s'.store = s.store.insert key e)
    (ha : s'.aof = s.aof.map (· ++ .set key e.data :: rs))
    (hv : KvEngine.validatePair key e.data = .ok ())
    (hrs : e.expireAt = none ∧ rs = []
      ∨ ∃ absMs : Int64, e.expireAt = some absMs.toInt.toNat ∧ rs = [.pexpireat key absMs]) :
    Logged T s s' := by
  intro hb
  rw [hs]
  rcases hrs with ⟨hn, rfl⟩ | ⟨absMs, hd, rfl⟩
  · refine ⟨hb.insert ⟨hv, by simp [hn]⟩, _, ha, ?_, fun k => ?_⟩
    · intro r hr
      rw [List.mem_singleton] at hr
      subst hr
      exact hv
    · rw [live_insert]
      simp only [actAll, List.foldl_cons, List.foldl_nil, AofRecord.actAt]
      rw [shown_of_no_deadline T hn]
  · have hlt := absMs.toInt_lt
    refine ⟨hb.insert ⟨hv, fun d hd' => ?_⟩, _, ha, ?_, fun k => ?_⟩
    · rw [hd, Option.some.injEq] at hd'
      omega
    · intro r hr
      simp only [List.mem_cons, List.not_mem_nil, or_false] at hr
      rcases hr with rfl | rfl
      · exact hv
      · exact validateKey_of_validatePair hv
    · rw [live_insert]
      simp only [actAll, List.foldl_cons, List.foldl_nil, AofRecord.actAt]
      rw [shown_of_deadline T hd]
      have hle : absMs.toInt.toNat ≤ T ↔ absMs.toInt ≤ T := by omega
      by_cases hk : k = key
      · simp only [hk, if_true, Option.bind_some, hle]
      · simp only [hk, if_false]

/-- A removal of a key that is not live at the clock of the command. -/
theorem Logged.forget {env : Env} (hT : env.now ≤ T)
    (hx : existed env s key = false) (hs : s'.store = s.store.erase key) (ha : s'.aof = s.aof) :
    Logged T s s' := by
  refine .drop hs ha ?_
  unfold existed at hx
  split at hx
  · rename_i e he
    rw [live_of_lookup he]
    exact shown_of_expired (isExpired_mono hT (by simpa using hx))
  · rename_i he
    exact live_of_lookup_none he

end Logged

section Act

variable {T t : ℕ} {env : Env} {cmd : Command} {s₀ : KvEngine}

theorem touchAccess_logged (s : KvEngine) (r : AccessReading) (key : Key) :
    Logged T s (s.touchAccess r key) := by
  unfold touchAccess
  split
  · rename_i e he
    refine .silent (fun hb => hb.insert (hb key e he)) rfl fun k => ?_
    refine (live_insert T s.store key (e.touch r) k).trans ?_
    split_ifs with hk
    · subst hk
      exact (live_of_lookup he).symm
    · rfl
  · exact .refl T s

theorem write_logged (h : env.At t) (hb : WellFormed s₀.store) (s : KvEngine) {key value : Bytes}
    {ttl : Option ℕ} (r : AccessReading) (hv : validatePair key value = .ok ())
    (ht : Kept env s₀ key ttl) :
    Logged T s ((s.appendAof (.set key value :: keepTtlRecords env key ttl)).trackInsert key
      (.newWith r value ttl)) := by
  refine .write rfl rfl hv ?_
  rcases ht with rfl | ⟨e, d, hl, hd, hlt, rfl⟩
  · exact .inl ⟨rfl, rfl⟩
  · have he : env.epochMs.toInt = env.now := by rw [h.epochMs, h.now]
    obtain ⟨absMs, h1, h2⟩ := deadlineToEpochMs_eq he hlt ((hb key e hl).2 d hd)
    refine .inr ⟨absMs, ?_, ?_⟩
    · rw [h2]
      rfl
    · simp [keepTtlRecords, h1]

theorem clear_logged (s : KvEngine) : Logged T s s.clear := by
  intro _
  refine ⟨?_, [.flushdb], rfl, by simp [AofRecord.Valid], fun k => rfl⟩
  intro k e hl
  cases hl

theorem deadline_logged (h : env.At t) (hT : t ≤ T) {s : KvEngine} {absEpochMs : Int64}
    (hk : s.store.lookup key = some e) (he : e.isExpired env.now = false)
    (hlt : env.nowMs.toInt < absEpochMs.toInt)
    (hsafe : StepSafe T t s.store (.expireAtMs key absEpochMs)) :
    Logged T s (deadlined env s key absEpochMs) := by
  have hd : env.now + (absEpochMs.toInt - env.nowMs.toInt).toNat = absEpochMs.toInt.toNat := by
    have h1 := h.now
    have h2 := h.nowMs
    omega
  rw [deadlined, hd, setDeadline_of_lookup _ hk]
  intro hb
  have hlt63 := absEpochMs.toInt_lt
  refine ⟨hb.insert ⟨(hb key e hk).1, fun d hd => ?_⟩, [.pexpireat key absEpochMs], rfl,
    by simpa [AofRecord.Valid] using hb.validateKey ⟨e, hk⟩, fun k => ?_⟩
  · rw [Option.some.injEq] at hd
    omega
  · refine (live_insert T s.store key { e with expireAt := some absEpochMs.toInt.toNat } k).trans ?_
    simp only [actAll, List.foldl_cons, List.foldl_nil, AofRecord.actAt]
    by_cases hkk : k = key
    · subst hkk
      rw [if_pos rfl, if_pos rfl, shown_of_deadline T rfl, live_of_lookup hk]
      have hle : absEpochMs.toInt.toNat ≤ T ↔ absEpochMs.toInt ≤ T := by omega
      by_cases hx : e.isExpired T = true
      · obtain ⟨d, hd, hdT⟩ := isExpired_iff.1 hx
        rw [h.now] at he
        have hlive : live t s.store k = some (e.data, some d) := by
          rw [live_of_lookup hk, shown_of_not_expired he, hd]
        rw [if_pos (hle.2 (hsafe _ _ hlive hdT)), shown_of_expired hx, Option.bind_none]
      · rw [shown_of_not_expired (by simpa using hx), Option.bind_some]
        simp only [hle]
    · rw [if_neg hkk, if_neg hkk]

theorem persist_logged (h : env.At t) {s : KvEngine}
    (hk : s.store.lookup key = some e) (he : e.isExpired env.now = false)
    (hsafe : StepSafe T t s.store (.persist key)) :
    Logged T s (persisted s key) := by
  rw [persisted, setDeadline_of_lookup _ hk]
  intro hb
  refine ⟨hb.insert ⟨(hb key e hk).1, by simp⟩, [.persist key], rfl,
    by simpa [AofRecord.Valid] using hb.validateKey ⟨e, hk⟩, fun k => ?_⟩
  refine (live_insert T s.store key { e with expireAt := none } k).trans ?_
  simp only [actAll, List.foldl_cons, List.foldl_nil, AofRecord.actAt]
  split_ifs with hkk
  · subst hkk
    rw [shown_of_no_deadline T rfl, live_of_lookup hk]
    have hx : e.isExpired T = false := by
      by_contra hx
      obtain ⟨d, hd, hdT⟩ := isExpired_iff.1 (by simpa using hx)
      rw [h.now] at he
      have hlive : live t s.store k = some (e.data, some d) := by
        rw [live_of_lookup hk, shown_of_not_expired he, hd]
      have := hsafe _ _ hlive
      omega
    rw [shown_of_not_expired hx, Option.map_some]
  · rfl

theorem Act.logged (h : env.At t) (hT : t ≤ T) (hb : WellFormed s₀.store)
    (hsafe : StepSafe T t s₀.store cmd) {a b : KvEngine} (hact : Act env cmd s₀ a b) :
    Logged T a b := by
  cases hact with
  | count => exact .of_eq rfl rfl
  | touch _ r key => exact touchAccess_logged a r key
  | remove _ key hk =>
    refine .remove (fun ha => ?_) rfl rfl
    rcases hk with hk | hk
    · exact ha.validateKey hk
    · exact hb.validateKey hk
  | forget _ key hx => exact .forget (h.now ▸ hT) hx rfl rfl
  | evict _ victim hv =>
    obtain ⟨e, he, -⟩ := selectVictim_spec hv
    refine .trans (.of_eq (selectVictim_store env a) (selectVictim_aof env a)) ?_
    refine .remove (fun ha => ha.validateKey ⟨e, ?_⟩) rfl rfl
    rw [selectVictim_store]
    exact he
  | noVictim _ hv => exact .of_eq (selectVictim_store env a) (selectVictim_aof env a)
  | write _ key value ttl r hv ht => exact write_logged h hb a r hv ht
  | flush => exact clear_logged a
  | config _ cfg => exact .of_eq (setEvictionConfig_store env a cfg) (setEvictionConfig_aof env a cfg)
  | deadline key absEpochMs e hc hk he hlt =>
    subst hc
    exact deadline_logged h hT hk he hlt hsafe
  | persist key e hc hk he hd =>
    subst hc
    exact persist_logged h hk he hsafe
  | discard key e hc hk hs he => exact .remove (fun ha => ha.validateKey ⟨e, hk⟩) rfl rfl

/-- Every command is logged at the clocks at which it is safe. -/
theorem exec_logged (h : env.At t) (hT : t ≤ T) (s : KvEngine)
    (hsafe : StepSafe T t s.store cmd) : Logged T s (exec env s cmd).2 := by
  intro hb
  have hlog : Logged T s (exec env s cmd).2 :=
    (exec_acts env s cmd).preserves (P := fun s' => Logged T s s')
      (fun _ _ hact hs => hs.trans (hact.logged h hT hb hsafe)) (.refl T s)
  exact hlog hb

/-- At its own clock every command is safe. -/
theorem stepSafe_self (t : ℕ) (store : Store) (cmd : Command) : StepSafe t t store cmd := by
  have hlt : ∀ {key : Key} {v : Bytes} {d : ℕ}, live t store key = some (v, some d) → t < d := by
    intro key v d hl
    obtain ⟨e, he, hs⟩ := Option.bind_eq_some_iff.1 hl
    by_cases hx : e.isExpired t = true
    · rw [shown_of_expired hx] at hs
      cases hs
    · rw [shown_of_not_expired (by simpa using hx), Option.some.injEq, Prod.mk.injEq] at hs
      by_contra hle
      exact hx (isExpired_iff.2 ⟨d, hs.2, by omega⟩)
  cases cmd with
  | expireAtMs key absEpochMs =>
    intro v d hl hle
    have := hlt hl
    omega
  | persist key => exact fun v d hl => hlt hl
  | _ => trivial

end Act

end FerrumKv
