import FerrumKv.Proofs.Acts
import FerrumKv.Proofs.Panics

/-!
# The engine's methods do not panic

Every engine method of a command runs without a panic from an engine within bounds, and leaves one
within the bounds its keys allow: one lemma `…_quietly` for each, up to `mset_quietly` and
`expireAtMs_quietly`.
-/

namespace FerrumKv

open KvEngine
open Partial (Op Safe maxAllocation IsI64)

variable {key : Key} {ttl : Option ℕ} {s : KvEngine}

section Functions

variable {horizon origin : ℕ} (env : Env)

/-! ## Lazy expiry -/

theorem dropExpired_quietly {ex : Bool} {e : ValueEntry} (he : s.store.lookup key = some e) :
    Quietly horizon 0 (s.sites ex (s.dropExpiredOps key)) s (s.dropExpired key) :=
  .of_safe (fun _ _ h => h.safe_dropExpiredOps he) fun _ h => h.dropExpired key

theorem lapse_quietly (s : KvEngine) (key : Key) :
    Quietly horizon 0 (s.lapseSites env key) s (lapsed env s key) := by
  unfold lapseSites lapsed
  rcases he : s.store.lookup key with _ | e
  · exact .refl s
  · simp only []
    split_ifs
    · exact dropExpired_quietly he
    · exact .refl s

theorem append_quietly {rs : List AofRecord} (h : ∀ r ∈ rs, r.Short) :
    Quietly horizon 0 (s.sites true (s.appendOps rs)) s (s.appendAof rs) :=
  .of_safe (fun _ _ _ => safe_appendOps h) fun _ hf => hf.appendAof rs

theorem touch_quietly (ex : Bool) (s : KvEngine) (r : AccessReading) (key : Key) :
    Quietly horizon 1 (s.sites ex (s.touchAccessOps r key)) s ((s.touchAccess r key).recordHit) :=
  .of_safe (fun _ _ _ => Fit.safe_touchAccessOps s r key) fun _ h => (h.touchAccess r key).recordHit

theorem recordMiss_quietly (s : KvEngine) : Quietly horizon 1 [] s s.recordMiss :=
  (Quietly.refl s).after fun _ h => h.recordMiss

theorem recordHit_quietly (s : KvEngine) : Quietly horizon 1 [] s s.recordHit :=
  (Quietly.refl s).after fun _ h => h.recordHit

theorem fetchLive_quietly (i : ℕ) (s : KvEngine) (key : Key) :
    Quietly horizon 1 (s.fetchLiveSites env i key) s (s.fetchLive env i key).2 := by
  unfold fetchLiveSites fetchLive
  rcases he : s.store.lookup key with _ | e
  · exact recordMiss_quietly s
  · simp only []
    split_ifs
    · exact (dropExpired_quietly he).after fun _ h => h.recordMiss
    · exact touch_quietly true s (env.access i) key

theorem containsLive_quietly (s : KvEngine) (key : Key) :
    Quietly horizon 1 (s.lapseSites env key) s (s.containsLive env key).2 := by
  unfold lapseSites containsLive
  rcases he : s.store.lookup key with _ | e
  · exact recordMiss_quietly s
  · simp only []
    split_ifs
    · exact (dropExpired_quietly he).after fun _ h => h.recordMiss
    · exact recordHit_quietly s

/-! ## Reads -/

theorem get_quietly (s : KvEngine) (key : Key) :
    Quietly horizon 1 (s.getSites env key) s (s.get env key).2 := by
  unfold getSites KvEngine.get
  rcases s.store.lookup key with _ | e
  · exact recordMiss_quietly s
  · simp only []
    split_ifs
    · exact fetchLive_quietly env 0 s key
    · exact touch_quietly false s (env.access 0) key

theorem strlen_quietly (s : KvEngine) (key : Key) :
    Quietly horizon 0 (s.readSites env key) s (s.strlen env key).2 := by
  unfold readSites strlen
  rcases s.store.lookup key with _ | e
  · exact .refl s
  · simp only []
    split_ifs
    · rw [strlenOf_snd env]
      exact lapse_quietly env s key
    · exact .refl s

theorem ttlMs_quietly (s : KvEngine) (key : Key) :
    Quietly horizon 0 (s.readSites env key) s (s.ttlMs env key).2 := by
  unfold readSites ttlMs
  rcases s.store.lookup key with _ | e
  · exact .refl s
  · simp only []
    split_ifs
    · rw [ttlOf_snd env]
      exact lapse_quietly env s key
    · exact .refl s

theorem memoryUsage_quietly (s : KvEngine) (key : Key) :
    Quietly horizon 0 (s.memoryUsageSites env key) s (s.memoryUsage env key).2 := by
  unfold memoryUsageSites memoryUsage memoryOfSites memoryOf
  rcases he : s.store.lookup key with _ | e
  · exact .refl s
  · have hlive : ∀ ex, Quietly horizon 0 (s.sites ex (entryBytesOps key e)) s s := fun ex =>
      .check fun _ _ h => safe_entryBytesOps (h.entries key e he).1 (h.entries key e he).2.1
    simp only []
    split_ifs
    · refine .of_safe (fun _ _ h => Partial.safe_append.2
        ⟨safe_untrackOps (h.entries key e he).1 (h.entries key e he).2.1,
          safe_appendOps_one (short_del (h.short_key he))⟩) fun n h => ?_
      exact ⟨h.entries_erase key, (length_erase_le s.store key).trans h.store, h.sieve, h.ac,
        h.counted, h.samples⟩
    · exact hlive true
    · exact hlive false

theorem mgetShared_quietly : ∀ (i : ℕ) (keys : List Key) (s : KvEngine),
    Quietly horizon keys.length (s.mgetSharedSites env i keys) s (s.mgetShared env i keys).2
  | _, [], s => .refl s
  | i, key :: keys, s => by
    unfold mgetSharedSites mgetShared
    rw [List.length_cons, Nat.add_comm]
    rcases s.store.lookup key with _ | e
    · exact (recordMiss_quietly s).trans (mgetShared_quietly (i + 1) keys _)
    · simp only []
      split_ifs
      · exact (mgetShared_quietly (i + 1) keys s).mono (Nat.le_add_left _ 1)
      · exact (touch_quietly false s (env.access i) key).trans (mgetShared_quietly (i + 1) keys _)

/-- The positions that `mget` comes back to are positions of its keys. -/
theorem mgetShared_positions : ∀ (i : ℕ) (keys : List Key) (s : KvEngine),
    (s.mgetShared env i keys).1.2.length ≤ keys.length ∧
      ∀ p ∈ (s.mgetShared env i keys).1.2, p.1 < i + keys.length
  | _, [], _ => by simp [mgetShared]
  | i, key :: keys, s => by
    unfold mgetShared
    rw [List.length_cons]
    have hstep : ∀ t : KvEngine, (t.mgetShared env (i + 1) keys).1.2.length ≤ keys.length + 1 ∧
        ∀ p ∈ (t.mgetShared env (i + 1) keys).1.2, p.1 < i + (keys.length + 1) := fun t => by
      obtain ⟨hlen, hpos⟩ := mgetShared_positions (i + 1) keys t
      refine ⟨by omega, fun p hp => ?_⟩
      have := hpos p hp
      omega
    split
    · split_ifs
      · obtain ⟨hlen, -⟩ := mgetShared_positions (i + 1) keys s
        simp only [List.length_cons, List.forall_mem_cons]
        exact ⟨by omega, by omega, (hstep s).2⟩
      · exact hstep _
    · exact hstep _

theorem mgetExclusive_quietly {m : ℕ} : ∀ (l : List (ℕ × Key)) (s : KvEngine), (∀ p ∈ l, p.1 < m) →
      Quietly horizon l.length (mgetExclusiveSites env m l s) s
        (l.foldl (fun s p => (s.fetchLive env p.1 p.2).2) s)
  | [], s, _ => .refl s
  | p :: l, s, h => by
    unfold mgetExclusiveSites
    rw [List.length_cons, Nat.add_comm, List.foldl_cons]
    have hi : Quietly horizon 0 (s.sites true [.index m p.1]) s s :=
      .check fun _ _ _ => Partial.safe_cons.2 ⟨h p List.mem_cons_self, Partial.safe_nil⟩
    have hp : Quietly horizon 1 (s.fetchLiveSites env p.1 p.2) s _ := fetchLive_quietly env p.1 s p.2
    have hf := (hi.trans hp).trans
      (mgetExclusive_quietly l _ fun q hq => h q (List.mem_cons_of_mem _ hq))
    exact hf.mono (by omega)

theorem mget_quietly (s : KvEngine) {keys : List Key}
    (hk : keys.length < Protocol.maxArrayElements) :
    Quietly horizon (2 * keys.length) (s.mgetSites env keys) s (s.mget env keys).2 := by
  obtain ⟨hlen, hpos⟩ := mgetShared_positions env 0 keys s
  simp only [Protocol.maxArrayElements] at hk
  have hcap : Quietly horizon 0 (s.sites false [.withCapacity keys.length payloadBytes]) s s := by
    refine .check fun _ _ _ => ?_
    simp only [Partial.safe_cons, Partial.safe_nil, Op.Succeeds, payloadBytes, maxAllocation,
      and_true]
    omega
  have h := (hcap.trans (mgetShared_quietly env 0 keys s)).trans
    (mgetExclusive_quietly env (m := keys.length) _ _ fun p hp => by simpa using hpos p hp)
  exact h.mono (by omega)

theorem existsShared_count : ∀ (keys : List Key) (s : KvEngine),
    (existsShared env keys s).1.1 ≤ keys.length
  | [], _ => le_refl _
  | key :: keys, s => by
    unfold existsShared
    rw [List.length_cons]
    rcases s.store.lookup key with _ | e
    · exact (existsShared_count keys _).trans (Nat.le_succ _)
    · simp only []
      split_ifs
      · exact (existsShared_count keys s).trans (Nat.le_succ _)
      · exact Nat.succ_le_succ (existsShared_count keys _)

theorem existsShared_quietly : ∀ (keys : List Key) (s : KvEngine),
    Quietly horizon keys.length [] s (existsShared env keys s).2
  | [], s => .refl s
  | key :: keys, s => by
    unfold existsShared
    rw [List.length_cons, Nat.add_comm]
    rcases s.store.lookup key with _ | e
    · exact (recordMiss_quietly s).trans (existsShared_quietly keys _)
    · simp only []
      split_ifs
      · exact (existsShared_quietly keys s).mono (Nat.le_add_left _ 1)
      · exact (recordHit_quietly s).trans (existsShared_quietly keys _)

theorem existsShared_expired (s : KvEngine) : ∀ (i : ℕ) (keys : List Key) (t : KvEngine),
    t.store = s.store →
      (existsShared env keys t).1.2 = (s.expiredPositions env i keys).map Prod.snd ∧
        (s.expiredPositions env i keys).length ≤ keys.length ∧
        ∀ p ∈ s.expiredPositions env i keys, p.1 < i + keys.length
  | _, [], _, _ => by simp [existsShared, expiredPositions]
  | i, key :: keys, t, ht => by
    have hstep : ∀ u : KvEngine, u.store = s.store →
        (existsShared env keys u).1.2 = (s.expiredPositions env (i + 1) keys).map Prod.snd ∧
          (s.expiredPositions env (i + 1) keys).length ≤ keys.length + 1 ∧
          ∀ p ∈ s.expiredPositions env (i + 1) keys, p.1 < i + (keys.length + 1) := fun u hu => by
      obtain ⟨heq, hlen, hpos⟩ := existsShared_expired s (i + 1) keys u hu
      refine ⟨heq, by omega, fun p hp => ?_⟩
      have := hpos p hp
      omega
    unfold existsShared expiredPositions
    rw [List.length_cons, ht]
    rcases s.store.lookup key with _ | e
    · exact hstep _ ht
    · simp only []
      split_ifs
      · obtain ⟨heq, hlen, hpos⟩ := existsShared_expired s (i + 1) keys t ht
        simp only [List.map_cons, heq, List.length_cons, List.forall_mem_cons]
        exact ⟨trivial, by omega, by omega, (hstep t ht).2.2⟩
      · exact hstep _ ht

theorem existsExclusive_quietly {m : ℕ} : ∀ (count : ℕ) (l : List (ℕ × Key)) (s : KvEngine),
    (∀ p ∈ l, p.1 < m) → count + l.length < 2 ^ 64 →
      Quietly horizon l.length (existsExclusiveSites env m count l s) s
        (existsExclusive env (l.map Prod.snd) s).2
  | _, [], s, _, _ => .refl s
  | count, p :: l, s, h, hc => by
    rw [List.length_cons] at hc
    have hi : Quietly horizon 0 (s.sites true [.index m p.1]) s s :=
      .check fun _ _ _ => Partial.safe_cons.2 ⟨h p List.mem_cons_self, Partial.safe_nil⟩
    have hlive : Quietly horizon 1 (s.lapseSites env p.2) s _ := containsLive_quietly env s p.2
    have hrest := fun count' hc' t => existsExclusive_quietly (m := m) count' l t
      (fun q hq => h q (List.mem_cons_of_mem _ hq)) hc'
    unfold existsExclusiveSites existsExclusive
    simp only [List.map_cons, List.length_cons]
    split_ifs
    · have hcount : Quietly horizon 0 ((s.containsLive env p.2).2.sites true [.addU64 count 1])
          (s.containsLive env p.2).2 (s.containsLive env p.2).2 :=
        .check fun _ _ _ => Partial.safe_cons.2
          ⟨show count + 1 < 2 ^ 64 by omega, Partial.safe_nil⟩
      exact (((hi.trans hlive).trans hcount).trans (hrest (count + 1) (by omega) _)).mono (by omega)
    · exact (((hi.trans hlive).trans (.refl _)).trans (hrest count (by omega) _)).mono (by omega)

theorem existsMany_quietly (s : KvEngine) {keys : List Key}
    (hk : keys.length < Protocol.maxArrayElements) :
    Quietly horizon (2 * keys.length) (s.existsManySites env keys) s (s.existsMany env keys).2 := by
  have hcount := existsShared_count env keys s
  obtain ⟨heq, hlen, hpos⟩ := existsShared_expired env s 0 keys s rfl
  simp only [Protocol.maxArrayElements] at hk
  unfold existsManySites existsMany
  split_ifs
  · exact Quietly.skip s
  · simp only [heq]
    have hadd : Quietly horizon 0 (s.sites false (countOps (existsShared env keys s).1.1)) s s :=
      .check fun _ _ _ => safe_countOps (by omega)
    have hshared := hadd.trans (existsShared_quietly env keys s)
    rw [List.append_nil] at hshared
    have h := hshared.trans (existsExclusive_quietly env (m := keys.length) _ _ _
      (fun p hp => by simpa using hpos p hp)
      (show (existsShared env keys s).1.1 + (s.expiredPositions env 0 keys).length < 2 ^ 64 by omega))
    exact h.mono (by omega)

theorem mem_of_mem_removeLoop {k : Key} : ∀ {keys : List Key} {s : KvEngine},
    k ∈ (removeLoop env keys s).1 → k ∈ keys
  | [], _, h => by simp [removeLoop] at h
  | key :: keys, s, h => by
    unfold removeLoop at h
    simp only [] at h
    split_ifs at h
    · rcases List.mem_cons.1 h with rfl | h
      · exact List.mem_cons_self
      · exact List.mem_cons_of_mem _ (mem_of_mem_removeLoop h)
    · exact List.mem_cons_of_mem _ (mem_of_mem_removeLoop h)

theorem removeLoop_quietly : ∀ (keys : List Key) (s : KvEngine),
    Quietly horizon 0 (removeLoopSites keys s) s (removeLoop env keys s).2
  | [], s => .refl s
  | key :: keys, s => by
    have hkey : Quietly horizon 0 (s.sites true (s.trackRemoveOps key)) s (s.trackRemove key) :=
      .of_safe (fun _ _ h => h.safe_trackRemoveOps key) fun _ h => h.trackRemove key
    have h := hkey.trans (removeLoop_quietly keys (s.trackRemove key))
    unfold removeLoopSites removeLoop
    simp only []
    split_ifs <;> exact h

theorem delMany_quietly (s : KvEngine) {keys : List Key}
    (hk : keys.length < Protocol.maxArrayElements) (hs : ∀ k ∈ keys, k.length ≤ Protocol.maxBulkLen)
    (hne : keys ≠ []) :
    Quietly horizon 0 (s.removeManySites env keys) s (s.delMany env keys).2 := by
  simp only [Protocol.maxArrayElements] at hk
  have hcap : Quietly horizon 0 (s.sites true [.withCapacity keys.length sliceBytes]) s s := by
    refine .check fun _ _ _ => ?_
    simp only [Partial.safe_cons, Partial.safe_nil, Op.Succeeds, sliceBytes, maxAllocation, and_true]
    omega
  have hshort : ∀ r ∈ (removeLoop env keys s).1.map AofRecord.del, r.Short := fun r hr => by
    obtain ⟨k, hk, rfl⟩ := List.mem_map.1 hr
    exact short_del (hs k (mem_of_mem_removeLoop env hk))
  unfold delMany removeManySites
  rw [if_neg hne]
  exact (hcap.trans (removeLoop_quietly env keys s)).trans (append_quietly hshort)

/-- The wall clock is past the first second of the epoch, and neither clock is near the end of its
range. A deadline is then at most `2^63 - 1000` milliseconds away. -/
structure Env.InRange (env : Env) : Prop where
  nowMs : 999 ≤ env.nowMs.toInt
  now : env.now < 998 * 2 ^ 63

theorem Fit.deadlined {n : ℕ} (h : Fit horizon n s) {e : ValueEntry}
    (he : s.store.lookup key = some e) {absEpochMs : Int64}
    (hd : env.now + (absEpochMs.toInt - env.nowMs.toInt).toNat ≤ horizon) :
    Fit horizon (n + 1) (deadlined env s key absEpochMs) := by
  unfold FerrumKv.deadlined
  rw [setDeadline_of_lookup _ he]
  obtain ⟨hk, hv, -⟩ := h.entries key e he
  exact {
    entries := h.entries_insert hk hv fun d hd' => by
      rw [Option.some.injEq] at hd'
      exact hd' ▸ hd
    store := (length_insert_of_lookup he _).le.trans (h.store.trans (Nat.le_succ n))
    sieve := h.sieveNotifyInsert_le key true
    ac := h.acNotifyInsert_le key true
    counted := h.counted.trans (Nat.le_succ n)
    samples := h.samples }

theorem Fit.persisted {n : ℕ} (h : Fit horizon n s) {e : ValueEntry}
    (he : s.store.lookup key = some e) : Fit horizon n (persisted s key) := by
  unfold FerrumKv.persisted
  rw [setDeadline_of_lookup _ he]
  obtain ⟨hk, hv, -⟩ := h.entries key e he
  exact {
    entries := h.entries_insert hk hv fun d hd => by cases hd
    store := (length_insert_of_lookup he _).le.trans h.store
    sieve := h.sieveNotifyRemove_le key
    ac := h.acNotifyRemove_le key
    counted := h.counted
    samples := h.samples }

theorem expireAtMs_quietly (hr : env.InRange) (hh : env.now + (2 ^ 63 - 1000) ≤ horizon)
    (s : KvEngine) (key : Key) (absEpochMs : Int64) :
    Quietly horizon 1 (s.expireAtSites env key absEpochMs) s
      (s.expireAtMs env key absEpochMs).2 := by
  have hms := hr.nowMs
  have hnow := hr.now
  have habs := absEpochMs.toInt_lt
  have hlow := absEpochMs.le_toInt
  have hmax := env.nowMs.toInt_lt
  rcases expireAtMs_spec env s key absEpochMs with
    ⟨he, h⟩ | ⟨e, he, hx, h⟩ | ⟨e, he, hx, hle, h⟩ | ⟨e, he, hx, hlt, h⟩ <;> rw [h]
  · simp only [expireAtSites, lapseSites, he, List.append_nil]
    exact Quietly.skip s
  · simp only [expireAtSites, lapseSites, he, hx, if_true, List.append_nil]
    exact (dropExpired_quietly he).mono (Nat.zero_le 1)
  · simp only [expireAtSites, lapseSites, he, hx, hle, if_true, Bool.false_eq_true, if_false]
    exact (dropExpired_quietly he).mono (Nat.zero_le 1)
  · simp only [expireAtSites, lapseSites, he, hx, not_le.2 hlt, Bool.false_eq_true, if_false,
      List.nil_append]
    refine .of_safe (fun n hn hf => ?_) fun n hf => hf.deadlined env he (by omega)
    simp only [List.cons_append, Partial.safe_cons, Partial.safe_append, Op.Succeeds, IsI64]
    exact ⟨by omega, by omega, hf.safe_acInsertOps hn key true,
      safe_appendOps_one (short_pexpireat (hf.short_key he) absEpochMs)⟩

theorem persist_quietly (s : KvEngine) (key : Key) :
    Quietly horizon 0 (s.persistSites env key) s (s.persist env key).2 := by
  rcases persist_spec env s key with
    ⟨he, h⟩ | ⟨e, he, hx, h⟩ | ⟨e, he, hx, hd, h⟩ | ⟨e, he, hx, hd, h⟩ <;> rw [h]
  · simp only [persistSites, he]
    exact .refl s
  · simp only [persistSites, he, hx, if_true]
    exact dropExpired_quietly he
  · simp only [persistSites, he, hx, hd, if_true, Bool.false_eq_true, if_false]
    exact .refl s
  · simp only [persistSites, he, hx, hd, Bool.false_eq_true, if_false]
    exact .of_safe (fun _ _ hf => Partial.safe_append.2 ⟨Fit.safe_acRemoveOps s key,
      safe_appendOps_one (short_persist (hf.short_key he))⟩) fun _ hf => hf.persisted he

/-! ## Writes -/

theorem short_keepTtlRecords (hk : key.length ≤ Protocol.maxBulkLen)
    (ttl : Option ℕ) : ∀ r ∈ keepTtlRecords env key ttl, r.Short := by
  unfold keepTtlRecords
  split
  · simp
  · split
    · simp only [List.forall_mem_cons]
      exact ⟨short_pexpireat hk _, by simp⟩
    · simp

theorem write_quietly (s : KvEngine) {key value : Bytes}
    (hv : validatePair key value = .ok ()) (ht : ∀ d, ttl = some d → d ≤ horizon) :
    Quietly horizon 1 (s.writeSites env key value ttl) s
      ((s.appendAof (.set key value :: keepTtlRecords env key ttl)).trackInsert key
        (.newWith (env.access 0) value ttl)) := by
  obtain ⟨hk, hl⟩ := lengths_of_validatePair hv
  have hshort := hk.trans keyMaxBytes_le
  refine .of_safe (fun n hn h => Partial.safe_append.2 ⟨safe_appendOps ?_, ?_⟩) fun n h => ?_
  · exact List.forall_mem_cons.2 ⟨short_set hshort (hl.trans valueMaxBytes_le),
      short_keepTtlRecords env hshort ttl⟩
  · exact h.safe_trackInsertOps hn hk hl
  · exact (h.appendAof _).trackInsert hk hl ht

theorem trackInsertMany_quietly : ∀ (i : ℕ) (pairs : List (Key × Bytes)) (s : KvEngine),
    (∀ p ∈ pairs, validatePair p.1 p.2 = .ok ()) →
      Quietly horizon pairs.length (trackInsertManySites env i pairs s) s
        (trackInsertMany env i pairs s)
  | _, [], s, _ => .refl s
  | i, (key, value) :: pairs, s, hv => by
    obtain ⟨hk, hl⟩ := lengths_of_validatePair (hv (key, value) List.mem_cons_self)
    have hins : Quietly horizon 1
        (s.sites true (s.trackInsertOps key (.new (env.access i) value))) s
        (s.trackInsert key (.new (env.access i) value)) :=
      .of_safe (fun n hn h => h.safe_trackInsertOps hn hk hl)
        fun n h => h.trackInsert hk hl fun d hd => by cases hd
    unfold trackInsertManySites trackInsertMany
    rw [List.length_cons, Nat.add_comm]
    exact hins.trans (trackInsertMany_quietly (i + 1) pairs _
      fun p hp => hv p (List.mem_cons_of_mem _ hp))

/-- A command that reads a stored value and its deadline, both within bounds, and goes on. -/
theorem update_quietly {s s' : KvEngine} {k : ℕ}
    {after : Option (Bytes × Option ℕ) → KvEngine → List Site} (hk : validateKey key = .ok ())
    (h : ∀ state t, s.readState env key = (state, t) →
      (∀ data ttl, state = some (data, ttl) →
        data.length ≤ valueMaxBytes ∧ ∀ d, ttl = some d → d ≤ horizon) →
      Quietly horizon k (after state t) t s') :
    Quietly horizon k (s.updateSites env key after) s s' := by
  intro n hn hf
  have hread : ∀ data ttl, (s.readState env key).1 = some (data, ttl) →
      data.length ≤ valueMaxBytes ∧ ∀ d, ttl = some d → d ≤ horizon := by
    intro data ttl hr
    unfold readState at hr
    rcases he : s.store.lookup key with _ | e <;> simp only [he] at hr
    · cases hr
    · split_ifs at hr
      · simp only [Option.some.injEq, Prod.mk.injEq] at hr
        obtain ⟨rfl, rfl⟩ := hr
        exact (hf.entries key e he).2
  unfold updateSites
  simp only [hk]
  have hlapse : Quietly horizon 0 (s.lapseSites env key) s (s.readState env key).2 := by
    rw [readState_snd]
    exact lapse_quietly env s key
  exact (hlapse.trans (h _ _ rfl hread)).mono (by omega) n hn hf

section Admission

variable (ho : origin < 998 * 2 ^ 63)

include ho

theorem set_quietly (s : KvEngine) (key value : Bytes) :
    Quietly horizon 1 (s.insertSites origin env key value) s (s.set env key value).2 := by
  unfold insertSites KvEngine.set KvEngine.insert
  rcases hv : validatePair key value with e | _
  · exact Quietly.skip s
  · refine admitted_quietly ho hv (fun e t h => ?_) fun t h => ?_
    · simp only [h]
    · simp only [h]
      exact write_quietly env t hv fun d hd => by cases hd

theorem insertAbsent_quietly (s : KvEngine) {key value : Bytes}
    (hv : validatePair key value = .ok ()) :
    Quietly horizon 1
      (s.admitted origin env key value fun s => s.writeSites env key value none) s
      (insertNx.insertAbsent env key value s).2 := by
  unfold insertNx.insertAbsent
  refine admitted_quietly ho hv (fun e t h => ?_) fun t h => ?_
  · simp only [h]
  · simp only [h]
    exact write_quietly env t hv fun d hd => by cases hd

theorem setNx_quietly (s : KvEngine) (key value : Bytes) :
    Quietly horizon 1 (s.insertNxSites origin env key value) s (s.setNx env key value).2 := by
  unfold insertNxSites setNx insertNx
  rcases hv : validatePair key value with e | _
  · exact Quietly.skip s
  · simp only []
    rcases s.store.lookup key with _ | e
    · exact insertAbsent_quietly env ho s hv
    · simp only []
      split_ifs
      · have hrem : Quietly horizon 0 (s.sites true (s.trackRemoveOps key)) s (s.trackRemove key) :=
          .of_safe (fun _ _ h => h.safe_trackRemoveOps key) fun _ h => h.trackRemove key
        exact hrem.trans (insertAbsent_quietly env ho _ hv)
      · exact Quietly.skip s

theorem enforceMany_quietly {k : ℕ} {after : KvEngine → List Site}
    {s' : KvEngine} : ∀ (pairs : List (Key × Bytes)) (s : KvEngine),
      (∀ p ∈ pairs, validatePair p.1 p.2 = .ok ()) →
      (∀ e t, enforceMany env pairs s = (.error e, t) → s' = t) →
      (∀ t, enforceMany env pairs s = (.ok (), t) → Quietly horizon k (after t) t s') →
        Quietly horizon k (enforceManySites origin env pairs after s) s s'
  | [], s, _, _, hok => hok s rfl
  | (key, value) :: pairs, s, hv, herr, hok => by
    refine admitted_quietly ho (hv (key, value) List.mem_cons_self) (fun e t h => ?_) fun t h => ?_
    · exact herr e t (by simp only [enforceMany, h])
    · refine enforceMany_quietly pairs t (fun p hp => hv p (List.mem_cons_of_mem _ hp))
        (fun e u hu => herr e u ?_) fun u hu => hok u ?_
      · simp only [enforceMany, h, hu]
      · simp only [enforceMany, h, hu]

theorem mset_quietly (s : KvEngine) (pairs : List (Key × Bytes)) :
    Quietly horizon pairs.length (s.insertManySites origin env pairs) s (s.mset env pairs).2 := by
  unfold insertManySites mset insertMany
  rcases hv : validatePairs pairs with e | _
  · exact Quietly.skip s
  · have hvalid := validatePairs_ok hv
    have hshort : ∀ r ∈ pairs.map fun p => AofRecord.set p.1 p.2, r.Short := fun r hr => by
      obtain ⟨p, hp, rfl⟩ := List.mem_map.1 hr
      obtain ⟨hk, hl⟩ := lengths_of_validatePair (hvalid p hp)
      exact short_set (hk.trans keyMaxBytes_le) (hl.trans valueMaxBytes_le)
    refine enforceMany_quietly env ho pairs s hvalid (fun e t h => ?_) fun t h => ?_
    · simp only [h]
    · simp only [h]
      exact ((append_quietly hshort).trans (trackInsertMany_quietly env 0 pairs _ hvalid)).mono
        (by omega)

theorem insertKeepTtl_quietly (s : KvEngine) {key value : Bytes}
    (hv : validatePair key value = .ok ())
    (ht : ∀ d, ttl = some d → d ≤ horizon) :
    Quietly horizon 1 (s.insertKeepTtlSites origin env key value ttl) s
      (s.insertKeepTtl env key value ttl).2 := by
  unfold insertKeepTtlSites insertKeepTtl
  refine admitted_quietly ho hv (fun e t h => ?_) fun t h => ?_
  · simp only [h]
  · simp only [h]
    exact write_quietly env t hv ht

theorem incrBy_store_quietly (s : KvEngine) (delta n : Int64) (hk : validateKey key = .ok ())
    (ht : ∀ d, ttl = some d → d ≤ horizon) :
    Quietly horizon 1
      ((checkedAdd n delta).elim [] fun v => s.insertKeepTtlSites origin env key (i64ToString v) ttl)
      s (incrBy.store env key delta s n ttl).2 := by
  unfold incrBy.store
  rcases checkedAdd n delta with _ | v
  · exact Quietly.skip s
  · have h : Quietly horizon 1 _ s (s.insertKeepTtl env key (i64ToString v) ttl).2 :=
      insertKeepTtl_quietly env ho s (validatePair_ok hk (validateValue_i64ToString v)) ht
    simp only []
    split <;> (rename_i hi; rw [hi] at h; exact h)

theorem incrBy_quietly (s : KvEngine) (key : Key) (delta : Int64) :
    Quietly horizon 1 (s.incrBySites origin env key delta) s (s.incrBy env key delta).2 := by
  unfold incrBySites incrBy
  rcases hk : validateKey key with e | _
  · simp only [updateSites, hk]
    exact Quietly.skip s
  · refine update_quietly env hk fun state t hr hb => ?_
    rcases state with _ | ⟨data, ttl⟩ <;> simp only [hr]
    · exact incrBy_store_quietly env ho t delta 0 hk fun d hd => by cases hd
    · rcases parseI64 data with _ | n
      · exact Quietly.skip t
      · exact incrBy_store_quietly env ho t delta n hk (hb data ttl rfl).2

theorem incrByFloat_store_quietly (s : KvEngine) (delta n : UInt64) (hk : validateKey key = .ok ())
    (ht : ∀ d, ttl = some d → d ≤ horizon) :
    Quietly horizon 1
      (if env.float.isFinite (env.float.add n delta) = false then []
        else s.insertKeepTtlSites origin env key (env.float.render (env.float.add n delta)) ttl)
      s (incrByFloat.store env key delta s n ttl).2 := by
  unfold incrByFloat.store
  simp only []
  split_ifs
  · exact Quietly.skip s
  · have h : Quietly horizon 1 _ s
        (s.insertKeepTtl env key (env.float.render (env.float.add n delta)) ttl).2 :=
      insertKeepTtl_quietly env ho s
        (validatePair_ok hk (validateValue_of_le (env.float.render_length _))) ht
    split <;> (rename_i hi; rw [hi] at h; exact h)

theorem incrByFloat_quietly (s : KvEngine) (key : Key) (delta : UInt64) :
    Quietly horizon 1 (s.incrByFloatSites origin env key delta) s
      (s.incrByFloat env key delta).2 := by
  unfold incrByFloatSites incrByFloat
  rcases hk : validateKey key with e | _
  · simp only [updateSites, hk]
    exact Quietly.skip s
  · refine update_quietly env hk fun state t hr hb => ?_
    rcases state with _ | ⟨data, ttl⟩ <;> simp only [hr]
    · exact incrByFloat_store_quietly env ho t delta 0 hk fun d hd => by cases hd
    · rcases env.float.parse data with _ | n
      · exact Quietly.skip t
      · exact incrByFloat_store_quietly env ho t delta n hk (hb data ttl rfl).2

theorem append_store_quietly (s : KvEngine) (value : Bytes) (hk : validateKey key = .ok ())
    (ht : ∀ d, ttl = some d → d ≤ horizon) :
    Quietly horizon 1
      (match validateValue value with
        | .error _ => []
        | .ok () => s.insertKeepTtlSites origin env key value ttl)
      s (append.store env key s value ttl).2 := by
  unfold append.store
  rcases hv : validateValue value with e | _
  · exact Quietly.skip s
  · have h : Quietly horizon 1 _ s (s.insertKeepTtl env key value ttl).2 :=
      insertKeepTtl_quietly env ho s (validatePair_ok hk hv) ht
    simp only []
    split <;> (rename_i hi; rw [hi] at h; exact h)

theorem appendValue_quietly (s : KvEngine) (key : Key) {suffix : Bytes}
    (hs : suffix.length ≤ Protocol.maxBulkLen) :
    Quietly horizon 1 (s.appendSites origin env key suffix) s (s.append env key suffix).2 := by
  unfold appendSites KvEngine.append
  rcases hk : validateKey key with e | _
  · simp only [updateSites, hk]
    exact Quietly.skip s
  · refine update_quietly env hk fun state t hr hb => ?_
    rcases state with _ | ⟨data, ttl⟩ <;> simp only [hr]
    · exact append_store_quietly env ho t suffix hk fun d hd => by cases hd
    · obtain ⟨hdata, ht⟩ := hb data ttl rfl
      simp only [valueMaxBytes, Protocol.maxBulkLen] at hdata hs
      have hbuf : Quietly horizon 0 (t.sites true [.addU64 data.length suffix.length,
          .withCapacity (data.length + suffix.length) 1]) t t := by
        refine .check fun _ _ _ => ?_
        simp only [Partial.safe_cons, Partial.safe_nil, Op.Succeeds, maxAllocation, and_true]
        omega
      exact (hbuf.trans (append_store_quietly env ho t (data ++ suffix) hk ht)).mono (by omega)

end Admission

theorem flushdb_quietly (s : KvEngine) :
    Quietly horizon 0 (s.sites true (s.appendOps [.flushdb])) s s.flushdb :=
  .of_safe (fun _ _ _ => safe_appendOps_one short_flushdb) fun _ h => h.clear

theorem setEvictionConfig_quietly (s : KvEngine) {cfg : EvictionConfig}
    (hc : cfg.samples * candidateBytes ≤ maxAllocation) :
    Quietly horizon 0 (s.setEvictionConfigSites env cfg) s (s.setEvictionConfig env cfg) := by
  have hstate : ∀ n, Fit horizon n s → Fit horizon n (s.setEvictionConfig env cfg) := by
    intro n h
    refine ⟨by rw [setEvictionConfig_store]; exact h.entries,
      by rw [setEvictionConfig_store]; exact h.store, ?_, ?_, ?_, hc⟩
    · unfold setEvictionConfig
      simp only []
      split_ifs
      · exact (length_le_of_inScope fun _ => SieveState.mem_keys_rebuild.1).trans h.store
      · exact Nat.zero_le _
      · exact Nat.zero_le _
      · exact h.sieve
    · unfold setEvictionConfig
      simp only []
      split_ifs
      · exact Nat.zero_le _
      · exact (length_le_of_inScope fun _ => AdaptiveClimbState.mem_keys_rebuild.1).trans h.store
      · exact Nat.zero_le _
      · exact h.ac
    · rw [setEvictionConfig_hits, setEvictionConfig_misses]
      exact h.counted
  unfold setEvictionConfigSites
  split_ifs
  · exact .of_safe (fun _ _ _ => AdaptiveClimbState.safe_rebuildOps _ _ _) hstate
  · exact fun n _ h => ⟨quiet_nil, hstate n h⟩

end Functions

end FerrumKv
