import FerrumKv.Panics
import FerrumKv.Proofs.Indexes
import FerrumKv.Proofs.Parser
import FerrumKv.Proofs.WriteGuard

/-!
# Commands that do not panic

An engine is `Fit` when its entries, its indexes and its counters are within bounds under which no
operation of a command fails. Every function keeps it so up to the number of keys it is given, and
none of its operations fails (`Quietly`); functions that run one after the other compose.
-/

namespace FerrumKv

open KvEngine
open Partial (Op Safe maxAllocation IsI64)

variable {s : KvEngine} {key : Key} {e : ValueEntry} {n : ℕ}

/-! ## Operations on bounded data -/

theorem safe_sumOps : ∀ {acc : ℕ} {ns : List ℕ}, acc + ns.sum < 2 ^ 64 → Safe (sumOps acc ns)
  | _, [], _ => Partial.safe_nil
  | acc, n :: ns, h => by
    rw [List.sum_cons] at h
    refine Partial.safe_cons.2 ⟨?_, safe_sumOps (by omega)⟩
    show acc + n < 2 ^ 64
    omega

theorem safe_countOps (h : n < 2 ^ 64) : Safe (countOps n) := by
  refine Partial.safe_map fun i hi => ?_
  show i + 1 < 2 ^ 64
  have := List.mem_range.1 hi
  omega

theorem safe_entryBytesOps (hk : key.length ≤ keyMaxBytes)
    (hv : e.data.length ≤ valueMaxBytes) : Safe (entryBytesOps key e) := by
  simp only [keyMaxBytes, valueMaxBytes] at hk hv
  simp only [entryBytesOps, perEntryOverhead, Partial.safe_cons, Partial.safe_nil, Op.Succeeds,
    and_true]
  omega

theorem safe_touchOps (e : ValueEntry) (r : AccessReading) : Safe (e.touchOps r) := by
  unfold ValueEntry.touchOps
  simp only []
  generalize decayedCounter e.lfuCounter e.lfuMinute r.minute lfuDecayMinutes = c
  split_ifs with h
  · simp only [Partial.safe_cons, Partial.safe_nil, Op.Succeeds, and_true]
    have hlt := c.toNat_lt
    have hne : c.toNat ≠ 255 := fun hc => h.1 (UInt8.toNat_inj.1 hc)
    omega
  · exact Partial.safe_nil

/-- The parts of a record are no longer than what a client can send. -/
def AofRecord.Short (r : AofRecord) : Prop := ∀ p ∈ r.parts, p.length ≤ Protocol.maxBulkLen

theorem keyMaxBytes_le : keyMaxBytes ≤ Protocol.maxBulkLen := by decide

theorem valueMaxBytes_le : valueMaxBytes ≤ Protocol.maxBulkLen := by decide

theorem short_i64 (n : Int64) : (i64ToString n).length ≤ Protocol.maxBulkLen :=
  (length_i64ToString_le n).trans (by decide)

theorem short_set {key value : Bytes} (hk : key.length ≤ Protocol.maxBulkLen)
    (hv : value.length ≤ Protocol.maxBulkLen) : (AofRecord.set key value).Short := by
  simp only [AofRecord.Short, AofRecord.parts, List.forall_mem_cons]
  exact ⟨by decide, hk, hv, by simp⟩

theorem short_del (hk : key.length ≤ Protocol.maxBulkLen) :
    (AofRecord.del key).Short := by
  simp only [AofRecord.Short, AofRecord.parts, List.forall_mem_cons]
  exact ⟨by decide, hk, by simp⟩

theorem short_pexpireat (hk : key.length ≤ Protocol.maxBulkLen) (n : Int64) :
    (AofRecord.pexpireat key n).Short := by
  simp only [AofRecord.Short, AofRecord.parts, List.forall_mem_cons]
  exact ⟨by decide, hk, short_i64 n, by simp⟩

theorem short_persist (hk : key.length ≤ Protocol.maxBulkLen) :
    (AofRecord.persist key).Short := by
  simp only [AofRecord.Short, AofRecord.parts, List.forall_mem_cons]
  exact ⟨by decide, hk, by simp⟩

theorem short_flushdb : AofRecord.flushdb.Short := by
  simp only [AofRecord.Short, AofRecord.parts, List.forall_mem_cons]
  exact ⟨by decide, by simp⟩

theorem length_parts_le (r : AofRecord) : r.parts.length ≤ 3 := by
  cases r <;> simp [AofRecord.parts]

theorem safe_encodeCommandOps {r : AofRecord} (h : r.Short) : Safe (encodeCommandOps r.parts) := by
  have hlen := length_parts_le r
  have hsum : (r.parts.map List.length).sum ≤ r.parts.length * Protocol.maxBulkLen := by
    have := List.sum_le_card_nsmul (r.parts.map List.length) Protocol.maxBulkLen
      (by simpa [AofRecord.Short] using h)
    simpa using this
  have hmul : r.parts.length * Protocol.maxBulkLen ≤ 3 * Protocol.maxBulkLen :=
    Nat.mul_le_mul_right _ hlen
  simp only [Protocol.maxBulkLen] at hsum hmul
  unfold encodeCommandOps
  simp only [Partial.safe_append, Partial.safe_cons, Partial.safe_nil, Op.Succeeds, and_true,
    maxAllocation]
  refine ⟨safe_sumOps (by omega), ?_⟩
  omega

theorem safe_appendOps {rs : List AofRecord} (h : ∀ r ∈ rs, r.Short) :
    Safe (s.appendOps rs) := by
  unfold appendOps
  split_ifs
  · exact Partial.safe_nil
  · intro op ho
    obtain ⟨r, hr, ho⟩ := List.mem_flatMap.1 ho
    exact safe_encodeCommandOps (h r hr) op ho

theorem safe_appendOps_one {r : AofRecord} (h : r.Short) :
    Safe (s.appendOps [r]) :=
  safe_appendOps fun r' hr' => by rwa [List.mem_singleton.1 hr']

namespace AdaptiveClimbState

theorem safe_clampOps (s : AdaptiveClimbState) : Safe s.clampOps := by
  unfold clampOps
  split_ifs with h
  · exact Partial.safe_nil
  · simp only [Partial.safe_cons, Partial.safe_nil, Op.Succeeds, and_true]
    omega

theorem length_shiftRemove_le (s : AdaptiveClimbState) (key : Key) :
    (s.queue.shiftRemove key).length ≤ s.queue.length :=
  IndexMap.length_le_of_keys fun _ hx => ((IndexMap.mem_keys_shiftRemove _ _).1 hx).2

theorem safe_insertOps (s : AdaptiveClimbState) (key : Key) (hasTtl : Bool)
    (h : s.queue.length < 2 ^ 64) : Safe (s.insertOps key hasTtl) := by
  have hlen := length_shiftRemove_le s key
  unfold insertOps
  split_ifs
  · exact safe_clampOps _
  · simp only [Partial.safe_append, Partial.safe_cons, Partial.safe_nil, Op.Succeeds, and_true]
    refine ⟨⟨safe_clampOps _, ?_⟩, Nat.min_le_right _ _⟩
    split_ifs with hj
    · simp only [Partial.safe_cons, Partial.safe_nil, Op.Succeeds, and_true]
      omega
    · exact Partial.safe_nil

theorem indexOf?_lt {q : IndexMap Key Unit} {key : Key} {p : ℕ} (h : q.indexOf? key = some p) :
    p < q.length := by
  have hp := (List.findIdx?_eq_some_iff_findIdx_eq.1 h).1
  rwa [IndexMap.length_keys] at hp

theorem safe_accessOps (s : AdaptiveClimbState) (key : Key) : Safe (s.accessOps key) := by
  unfold accessOps
  split
  · exact Partial.safe_nil
  · rename_i p hp
    have hlt := indexOf?_lt hp
    simp only [Partial.safe_append]
    constructor
    · split_ifs
      · simp only [Partial.safe_cons, Partial.safe_nil, Op.Succeeds, and_true]
        omega
      · exact Partial.safe_nil
    · split_ifs <;> simp only [Partial.safe_cons, Partial.safe_nil, Op.Succeeds, and_true] <;> omega

theorem safe_rebuildOps (scope : EvictionScope) :
    ∀ (entries : List (Σ _ : Key, ValueEntry)) (q : IndexMap Key Unit),
      Safe (rebuildOps scope q entries)
  | [], _ => Partial.safe_nil
  | e :: entries, q => by
    unfold rebuildOps
    split_ifs
    · exact Partial.safe_cons.2 ⟨le_refl q.length, safe_rebuildOps scope entries _⟩
    · exact safe_rebuildOps scope entries q

end AdaptiveClimbState

theorem SieveState.safe_evictOps {store : Store} {scope : EvictionScope} {ttlAware : Bool}
    {demote : ValueEntry → Bool} (hn : n + 1 < 2 ^ 64) :
    ∀ (looks : ℕ) (s : SieveState), s.queue.length ≤ n →
      Safe (evictOps store scope ttlAware demote n looks s)
  | 0, _, _ => Partial.safe_cons.2 ⟨hn, Partial.safe_nil⟩
  | looks + 1, s, hs => by
    unfold evictOps
    simp only []
    have hq : (if s.queue.length ≤ s.hand then { s with hand := 0 } else s).queue = s.queue := by
      split_ifs <;> rfl
    generalize (if s.queue.length ≤ s.hand then { s with hand := 0 } else s) = s' at hq
    rw [← hq] at hs
    refine Partial.safe_cons.2 ⟨hn, ?_⟩
    split
    · exact Partial.safe_nil
    · rename_i key visited hget
      have hhand : s'.hand < s'.queue.length := (List.getElem?_eq_some_iff.1 hget).1
      have hshift : (s'.queue.shiftRemove key).length ≤ n :=
        (IndexMap.length_le_of_keys fun _ hx =>
          ((IndexMap.mem_keys_shiftRemove _ _).1 hx).2).trans hs
      have hmod : (s'.queue.modify key fun _ => false).length ≤ n :=
        (IndexMap.length_le_of_keys fun _ hx => by rwa [IndexMap.keys_modify] at hx).trans hs
      by_cases he : eligible store scope key = false
      · rw [if_pos he]
        refine Partial.safe_cons.2 ⟨?_, safe_evictOps hn looks _ hshift⟩
        show n - looks + 1 < 2 ^ 64
        omega
      · rw [if_neg he]
        obtain ⟨e, hl, -⟩ := eligible_iff.1 (Bool.not_eq_false _ ▸ he)
        simp only [hget, hl, Option.isSome_some, Partial.safe_append, Partial.safe_cons, Op.Succeeds,
          true_and]
        refine ⟨by split_ifs <;> simp [Op.Succeeds], ?_⟩
        split_ifs
        · exact Partial.safe_nil
        · simp only [Partial.safe_cons, Op.Succeeds, true_and]
          exact ⟨by omega, by omega, safe_evictOps hn looks _ hmod⟩

/-! ## The lengths of the indexes -/

theorem length_le_of_inScope {β : Type} {q : IndexMap Key β} {store : Store}
    {scope : EvictionScope} (h : ∀ x ∈ q.keys, InScope store scope x) :
    q.length ≤ store.entries.length := by
  have hsub : q.keys ⊆ store.entries.map Sigma.fst := fun x hx => by
    obtain ⟨e, he, -⟩ := h x hx
    exact List.mem_map.2 ⟨⟨x, e⟩, AList.mem_lookup_iff.1 he, rfl⟩
  have hle := (List.subperm_of_subset q.nodup hsub).length_le
  rwa [List.length_map, List.length_map] at hle

namespace SieveState

variable (s : SieveState) (key : Key)

theorem length_observeRemove_le : (s.observeRemove key).queue.length ≤ s.queue.length :=
  IndexMap.length_le_of_keys fun _ hx => ((mem_keys_observeRemove s key).1 hx).2

theorem length_observeInsert_le (hasTtl : Bool) :
    (s.observeInsert key hasTtl).queue.length ≤ s.queue.length + 1 :=
  IndexMap.length_le_succ_of_keys (a := key) fun _ hx =>
    ((mem_keys_observeInsert s key hasTtl).1 hx).imp And.left And.right

theorem length_observeAccess_le : (s.observeAccess key).queue.length ≤ s.queue.length :=
  IndexMap.length_le_of_keys fun _ hx => by rwa [keys_observeAccess] at hx

theorem length_evictOne_le {store : Store} {scope : EvictionScope} {demote : ValueEntry → Bool} :
    (s.evictOne store scope demote).2.queue.length ≤ s.queue.length :=
  IndexMap.length_le_of_keys fun _ hx => (evictOne_keys s).subset hx

end SieveState

namespace AdaptiveClimbState

variable (s : AdaptiveClimbState) (key : Key)

theorem length_observeRemove_le : (s.observeRemove key).queue.length ≤ s.queue.length :=
  IndexMap.length_le_of_keys fun _ hx => ((mem_keys_observeRemove s key).1 hx).2

theorem length_observeInsert_le (hasTtl : Bool) :
    (s.observeInsert key hasTtl).queue.length ≤ s.queue.length + 1 :=
  IndexMap.length_le_succ_of_keys (a := key) fun _ hx =>
    ((mem_keys_observeInsert s key hasTtl).1 hx).imp And.left And.right

theorem length_observeAccess_le : (s.observeAccess key).queue.length ≤ s.queue.length :=
  IndexMap.length_le_of_keys fun _ hx => (mem_keys_observeAccess s key).1 hx

theorem length_evictOne_le {store : Store} {scope : EvictionScope} :
    (s.evictOne store scope).2.queue.length ≤ s.queue.length :=
  IndexMap.length_le_of_keys fun _ hx => ((mem_keys_evictOne s).1 hx).2

end AdaptiveClimbState

/-! ## Engines within bounds -/

/-- The entries are of valid sizes with deadlines up to `horizon`, the store and the indexes hold at
most `n` keys, at most `n` lookups were counted, and a sample can be allocated. -/
structure Fit (horizon n : ℕ) (s : KvEngine) : Prop where
  entries : ∀ k e, s.store.lookup k = some e → k.length ≤ keyMaxBytes ∧
    e.data.length ≤ valueMaxBytes ∧ ∀ d, e.expireAt = some d → d ≤ horizon
  store : s.store.entries.length ≤ n
  sieve : s.sieve.queue.length ≤ n
  ac : s.ac.queue.length ≤ n
  counted : s.hits + s.misses ≤ n
  samples : s.eviction.samples * candidateBytes ≤ maxAllocation

theorem length_insert_le (store : Store) (key : Key) (e : ValueEntry) :
    (store.insert key e).entries.length ≤ store.entries.length + 1 := by
  have h := AList.weight_insert (fun _ _ => 1) store key e
  simp only [AList.weight, List.map_const', List.sum_replicate, smul_eq_mul, mul_one] at h
  omega

theorem length_insert_of_lookup {store : Store} (h : store.lookup key = some e) (e' : ValueEntry) :
    (store.insert key e').entries.length = store.entries.length := by
  have h : (store.insert key e').weight (fun _ _ => 1) = store.weight fun _ _ => 1 :=
    AList.weight_insert_of_eq _ store h rfl
  simpa only [AList.weight, List.map_const', List.sum_replicate, smul_eq_mul, mul_one] using h

theorem length_erase_le (store : Store) (key : Key) :
    (store.erase key).entries.length ≤ store.entries.length := by
  have h := AList.weight_erase (fun _ _ => 1) store key
  simp only [AList.weight, List.map_const', List.sum_replicate, smul_eq_mul, mul_one] at h
  omega

namespace Fit

variable {horizon n : ℕ} {s : KvEngine}

theorem mono {m : ℕ} (h : Fit horizon n s) (hm : n ≤ m) : Fit horizon m s :=
  ⟨h.entries, h.store.trans hm, h.sieve.trans hm, h.ac.trans hm, h.counted.trans hm, h.samples⟩

theorem extend {later : ℕ} (h : Fit horizon n s) (hl : horizon ≤ later) : Fit later n s where
  entries k e he := ⟨(h.entries k e he).1, (h.entries k e he).2.1,
    fun d hd => ((h.entries k e he).2.2 d hd).trans hl⟩
  store := h.store
  sieve := h.sieve
  ac := h.ac
  counted := h.counted
  samples := h.samples

theorem start (aof : Option (List AofRecord)) : Fit horizon n (KvEngine.startWith aof) where
  entries _ _ h := by cases h
  store := Nat.zero_le _
  sieve := Nat.zero_le _
  ac := Nat.zero_le _
  counted := Nat.zero_le _
  samples := by
    show 5 * candidateBytes ≤ maxAllocation
    decide

theorem appendAof (h : Fit horizon n s) (rs : List AofRecord) : Fit horizon n (s.appendAof rs) :=
  ⟨h.entries, h.store, h.sieve, h.ac, h.counted, h.samples⟩

theorem recordHit (h : Fit horizon n s) : Fit horizon (n + 1) s.recordHit where
  entries := h.entries
  store := h.store.trans (Nat.le_succ n)
  sieve := h.sieve.trans (Nat.le_succ n)
  ac := h.ac.trans (Nat.le_succ n)
  counted := by
    have := h.counted
    show s.hits + 1 + s.misses ≤ n + 1
    omega
  samples := h.samples

theorem recordMiss (h : Fit horizon n s) : Fit horizon (n + 1) s.recordMiss where
  entries := h.entries
  store := h.store.trans (Nat.le_succ n)
  sieve := h.sieve.trans (Nat.le_succ n)
  ac := h.ac.trans (Nat.le_succ n)
  counted := Nat.succ_le_succ h.counted
  samples := h.samples

theorem sieveNotifyInsert_le (h : Fit horizon n s) (key : Key) (hasTtl : Bool) :
    (s.sieveNotifyInsert key hasTtl).sieve.queue.length ≤ n + 1 := by
  have hs := h.sieve
  have hi := s.sieve.length_observeInsert_le key hasTtl
  unfold sieveNotifyInsert
  simp only []
  split_ifs <;> omega

theorem acNotifyInsert_le (h : Fit horizon n s) (key : Key) (hasTtl : Bool) :
    (s.acNotifyInsert key hasTtl).ac.queue.length ≤ n + 1 := by
  have hs := h.ac
  have hi := s.ac.length_observeInsert_le key hasTtl
  unfold acNotifyInsert
  simp only []
  split_ifs <;> omega

theorem sieveNotifyRemove_le (h : Fit horizon n s) (key : Key) :
    (s.sieveNotifyRemove key).sieve.queue.length ≤ n := by
  unfold sieveNotifyRemove
  simp only []
  split_ifs
  · exact (s.sieve.length_observeRemove_le key).trans h.sieve
  · exact h.sieve

theorem acNotifyRemove_le (h : Fit horizon n s) (key : Key) :
    (s.acNotifyRemove key).ac.queue.length ≤ n := by
  unfold acNotifyRemove
  simp only []
  split_ifs
  · exact (s.ac.length_observeRemove_le key).trans h.ac
  · exact h.ac

theorem entries_insert (h : Fit horizon n s) {key : Key} {entry : ValueEntry}
    (hk : key.length ≤ keyMaxBytes) (hv : entry.data.length ≤ valueMaxBytes)
    (hd : ∀ d, entry.expireAt = some d → d ≤ horizon) :
    ∀ k e, (s.store.insert key entry).lookup k = some e → k.length ≤ keyMaxBytes ∧
      e.data.length ≤ valueMaxBytes ∧ ∀ d, e.expireAt = some d → d ≤ horizon := by
  intro k e he
  by_cases hkey : k = key
  · subst hkey
    rw [AList.lookup_insert, Option.some.injEq] at he
    exact he ▸ ⟨hk, hv, hd⟩
  · rw [AList.lookup_insert_ne hkey] at he
    exact h.entries k e he

theorem entries_erase (h : Fit horizon n s) (key : Key) :
    ∀ k e, (s.store.erase key).lookup k = some e → k.length ≤ keyMaxBytes ∧
      e.data.length ≤ valueMaxBytes ∧ ∀ d, e.expireAt = some d → d ≤ horizon := by
  intro k e he
  by_cases hkey : k = key
  · subst hkey
    rw [AList.lookup_erase] at he
    cases he
  · rw [AList.lookup_erase_ne hkey] at he
    exact h.entries k e he

theorem trackInsert (h : Fit horizon n s) {key : Key} {entry : ValueEntry}
    (hk : key.length ≤ keyMaxBytes) (hv : entry.data.length ≤ valueMaxBytes)
    (hd : ∀ d, entry.expireAt = some d → d ≤ horizon) :
    Fit horizon (n + 1) (s.trackInsert key entry) where
  entries := h.entries_insert hk hv hd
  store := (length_insert_le s.store key entry).trans (Nat.succ_le_succ h.store)
  sieve := h.sieveNotifyInsert_le key _
  ac := h.acNotifyInsert_le key _
  counted := h.counted.trans (Nat.le_succ n)
  samples := h.samples

theorem trackRemove (h : Fit horizon n s) (key : Key) : Fit horizon n (s.trackRemove key) where
  entries := h.entries_erase key
  store := (length_erase_le s.store key).trans h.store
  sieve := h.sieveNotifyRemove_le key
  ac := h.acNotifyRemove_le key
  counted := h.counted
  samples := h.samples

theorem dropExpired (h : Fit horizon n s) (key : Key) : Fit horizon n (s.dropExpired key) :=
  (h.trackRemove key).appendAof _

theorem touchAccess (h : Fit horizon n s) (r : AccessReading) (key : Key) :
    Fit horizon n (s.touchAccess r key) := by
  unfold KvEngine.touchAccess
  split
  · rename_i e he
    obtain ⟨hk, hv, hd⟩ := h.entries key e he
    exact {
      entries := h.entries_insert hk hv hd
      store := (length_insert_of_lookup he _).le.trans h.store
      sieve := by
        simp only [acNotifyAccess, sieveNotifyAccess]
        split_ifs
        · exact (s.sieve.length_observeAccess_le key).trans h.sieve
        · exact h.sieve
      ac := by
        simp only [acNotifyAccess, sieveNotifyAccess]
        split_ifs
        · exact (s.ac.length_observeAccess_le key).trans h.ac
        · exact h.ac
      counted := h.counted
      samples := h.samples }
  · exact h

theorem clear (h : Fit horizon n s) : Fit horizon n s.clear where
  entries _ _ he := by cases he
  store := Nat.zero_le _
  sieve := Nat.zero_le _
  ac := Nat.zero_le _
  counted := h.counted
  samples := h.samples

theorem selectVictim (h : Fit horizon n s) (env : Env) : Fit horizon n (s.selectVictim env).2 := by
  have hsieve : (s.selectVictim env).2.sieve.queue.length ≤ n := by
    unfold KvEngine.selectVictim
    simp only []
    split
    all_goals first
      | exact h.sieve
      | exact (s.sieve.length_evictOne_le).trans h.sieve
  have hac : (s.selectVictim env).2.ac.queue.length ≤ n := by
    unfold KvEngine.selectVictim
    simp only []
    split
    all_goals first
      | exact h.ac
      | exact (s.ac.length_evictOne_le).trans h.ac
  rw [selectVictim_frame]
  exact ⟨h.entries, h.store, hsieve, hac, h.counted, h.samples⟩

theorem evictVictim (h : Fit horizon n s) (victim : Key) : Fit horizon n (s.evictVictim victim) :=
  have h' := h.trackRemove victim
  ⟨h'.entries, h'.store, h'.sieve, h'.ac, h'.counted, h'.samples⟩

end Fit

/-! ## Steps without a panic -/

/-- The number of keys and lookups up to which no counter overflows. -/
def keyLimit : ℕ := 2 ^ 58

def Quiet (l : List Site) : Prop := ∀ x ∈ l, x.op.Succeeds

theorem quiet_nil : Quiet [] := by simp [Quiet]

theorem quiet_append {l l' : List Site} : Quiet (l ++ l') ↔ Quiet l ∧ Quiet l' := by
  simp only [Quiet, List.mem_append]
  exact ⟨fun h => ⟨fun x hx => h x (.inl hx), fun x hx => h x (.inr hx)⟩,
    fun h x hx => hx.elim (h.1 x) (h.2 x)⟩

theorem quiet_sites {b : Bool} {ops : List Op} :
    Quiet (s.sites b ops) ↔ Safe ops := by
  simp [Quiet, KvEngine.sites, Safe]

/-- A step from `s` to `s'` whose sites are `l`: if `s` is within bounds, no operation fails, and
`s'` is within the bounds that `k` more keys allow. -/
def Quietly (horizon k : ℕ) (l : List Site) (s s' : KvEngine) : Prop :=
  ∀ n, n + k ≤ keyLimit → Fit horizon n s → Quiet l ∧ Fit horizon (n + k) s'

namespace Quietly

variable {horizon k k' : ℕ} {l l' : List Site} {a b c : KvEngine}

theorem refl (s : KvEngine) : Quietly horizon 0 [] s s := fun _ _ h => ⟨quiet_nil, h⟩

theorem trans (h : Quietly horizon k l a b) (h' : Quietly horizon k' l' b c) :
    Quietly horizon (k + k') (l ++ l') a c := by
  intro n hn hf
  obtain ⟨hl, hb⟩ := h n (by omega) hf
  obtain ⟨hl', hc⟩ := h' (n + k) (by omega) hb
  exact ⟨quiet_append.2 ⟨hl, hl'⟩, by rwa [← Nat.add_assoc]⟩

theorem mono (h : Quietly horizon k l a b) (hk : k ≤ k') : Quietly horizon k' l a b := by
  intro n hn hf
  obtain ⟨hl, hb⟩ := h n (by omega) hf
  exact ⟨hl, hb.mono (by omega)⟩

theorem skip (s : KvEngine) : Quietly horizon k [] s s := (refl s).mono (Nat.zero_le k)

theorem of_safe {ex : Bool} {ops : List Op} (hs : ∀ n, n ≤ keyLimit → Fit horizon n a → Safe ops)
    (hf : ∀ n, Fit horizon n a → Fit horizon (n + k) b) :
    Quietly horizon k (a.sites ex ops) a b :=
  fun n hn h => ⟨quiet_sites.2 (hs n (by omega) h), hf n h⟩

theorem check {ex : Bool} {ops : List Op} (hs : ∀ n, n ≤ keyLimit → Fit horizon n a → Safe ops) :
    Quietly horizon 0 (a.sites ex ops) a a :=
  of_safe hs fun _ h => h

theorem after (hf : ∀ n, Fit horizon n b → Fit horizon (n + k') c) (h : Quietly horizon k l a b) :
    Quietly horizon (k + k') l a c := by
  intro n hn h'
  obtain ⟨hl, hb⟩ := h n (by omega) h'
  exact ⟨hl, by rw [← Nat.add_assoc]; exact hf _ hb⟩

end Quietly

/-! ## Tracked changes -/

theorem entryBytes_le (hk : key.length ≤ keyMaxBytes)
    (hv : e.data.length ≤ valueMaxBytes) : entryBytes key e ≤ 2 ^ 32 := by
  simp only [keyMaxBytes, valueMaxBytes] at hk hv
  simp only [entryBytes, perEntryOverhead]
  omega

theorem safe_applyDeltaOps {delta : ℤ} (h : -2 ^ 32 ≤ delta) (h' : delta ≤ 2 ^ 32) :
    Safe (applyDeltaOps delta) := by
  unfold applyDeltaOps
  split_ifs
  · simp only [Partial.safe_cons, Partial.safe_nil, Op.Succeeds, IsI64, and_true]
    omega
  · exact Partial.safe_nil

theorem safe_untrackOps (hk : key.length ≤ keyMaxBytes)
    (hv : e.data.length ≤ valueMaxBytes) : Safe (untrackOps key e) := by
  have hle := entryBytes_le hk hv
  unfold untrackOps
  simp only [Partial.safe_append, Partial.safe_cons, Partial.safe_nil, Op.Succeeds, IsI64, and_true]
  exact ⟨⟨safe_entryBytesOps hk hv, by omega⟩, safe_applyDeltaOps (by omega) (by omega)⟩

namespace Fit

variable {horizon n : ℕ} {s : KvEngine}

theorem weightAt_le (h : Fit horizon n s) (key : Key) :
    s.store.weightAt entryBytes key ≤ 2 ^ 32 := by
  cases he : s.store.lookup key with
  | none => simp [AList.weightAt_of_lookup_none _ _ he]
  | some e =>
    rw [AList.weightAt_of_lookup _ _ he]
    exact entryBytes_le (h.entries key e he).1 (h.entries key e he).2.1

theorem safe_stored (h : Fit horizon n s) (key : Key) :
    Safe ((s.store.lookup key).elim [] (entryBytesOps key)) := by
  cases he : s.store.lookup key with
  | none => exact Partial.safe_nil
  | some e => exact safe_entryBytesOps (h.entries key e he).1 (h.entries key e he).2.1

theorem safe_acRemoveOps (s : KvEngine) (key : Key) : Safe (s.acRemoveOps key) := by
  unfold acRemoveOps
  split_ifs
  · exact AdaptiveClimbState.safe_clampOps _
  · exact Partial.safe_nil

theorem safe_acInsertOps (h : Fit horizon n s) (hn : n ≤ keyLimit) (key : Key) (hasTtl : Bool) :
    Safe (s.acInsertOps key hasTtl) := by
  unfold acInsertOps
  split_ifs
  · have := h.ac
    simp only [keyLimit] at hn
    exact s.ac.safe_insertOps key hasTtl (by omega)
  · exact Partial.safe_nil

theorem safe_trackInsertOps (h : Fit horizon n s) (hn : n ≤ keyLimit) {key : Key}
    {entry : ValueEntry} (hk : key.length ≤ keyMaxBytes)
    (hv : entry.data.length ≤ valueMaxBytes) : Safe (s.trackInsertOps key entry) := by
  have hw := h.weightAt_le key
  have hle := entryBytes_le hk hv
  unfold trackInsertOps
  simp only [Partial.safe_append, Partial.safe_cons, Partial.safe_nil, Op.Succeeds, IsI64, and_true]
  exact ⟨⟨⟨⟨safe_entryBytesOps hk hv, h.safe_stored key⟩, by omega⟩,
    safe_applyDeltaOps (by omega) (by omega)⟩, h.safe_acInsertOps hn key _⟩

theorem safe_trackRemoveOps (h : Fit horizon n s) (key : Key) : Safe (s.trackRemoveOps key) := by
  unfold trackRemoveOps
  refine Partial.safe_append.2 ⟨?_, safe_acRemoveOps s key⟩
  cases he : s.store.lookup key with
  | none => exact Partial.safe_nil
  | some e => exact safe_untrackOps (h.entries key e he).1 (h.entries key e he).2.1

theorem safe_touchAccessOps (s : KvEngine) (r : AccessReading) (key : Key) :
    Safe (s.touchAccessOps r key) := by
  unfold touchAccessOps acAccessOps
  cases s.store.lookup key with
  | none => exact Partial.safe_nil
  | some e =>
    refine Partial.safe_append.2 ⟨safe_touchOps e r, ?_⟩
    split_ifs
    · exact s.ac.safe_accessOps key
    · exact Partial.safe_nil

theorem short_key (h : Fit horizon n s) {key : Key} {e : ValueEntry}
    (he : s.store.lookup key = some e) : key.length ≤ Protocol.maxBulkLen :=
  (h.entries key e he).1.trans keyMaxBytes_le

theorem safe_dropExpiredOps (h : Fit horizon n s) {key : Key} {e : ValueEntry}
    (he : s.store.lookup key = some e) : Safe (s.dropExpiredOps key) :=
  Partial.safe_append.2 ⟨h.safe_trackRemoveOps key, safe_appendOps_one (short_del (h.short_key he))⟩

end Fit

section Functions

variable {horizon origin : ℕ} {env : Env}

theorem safe_soonestOps (s : KvEngine) : Safe (s.soonestOps env) :=
  Partial.safe_map fun _ hc => (List.mem_filter.1 hc).2

theorem safe_evictSieveOps (hn : n ≤ keyLimit) (h : Fit horizon n s) :
    Safe (s.evictSieveOps env) := by
  have hs := h.sieve
  simp only [keyLimit] at hn
  unfold evictSieveOps
  simp only []
  split_ifs
  · exact Partial.safe_nil
  · exact SieveState.safe_evictOps (by omega) _ s.sieve (le_refl _)

theorem observe_quietly (s : KvEngine) (evicted : ℕ) :
    Quietly horizon 0 (s.sites true (s.observeOps evicted)) s s := by
  refine .check fun n hn h => ?_
  have := h.counted
  simp only [keyLimit] at hn
  unfold observeOps
  split_ifs
  · simp only [Partial.safe_cons, Partial.safe_nil, Op.Succeeds, and_true]
    omega
  · exact Partial.safe_nil

theorem evictVictim_quietly {s s' : KvEngine} {victim : Key} {evicted : ℕ}
    (h : s.selectVictim env = (some victim, s')) (he : evicted < 2 ^ 63) :
    Quietly horizon 0
      (s'.sites true (s'.trackRemoveOps victim ++ .addU64 evicted 1 :: s'.appendOps [.del victim]))
      s' (s'.evictVictim victim) := by
  have hs : s'.store = s.store := by
    have := selectVictim_store env s
    rwa [h] at this
  have hv : (s.selectVictim env).1 = some victim := by rw [h]
  obtain ⟨e, hl, -⟩ := selectVictim_spec hv
  rw [← hs] at hl
  refine .of_safe (fun n hn hf => ?_) fun _ hf => hf.evictVictim victim
  refine Partial.safe_append.2 ⟨hf.safe_trackRemoveOps victim, Partial.safe_cons.2 ⟨?_, ?_⟩⟩
  · show evicted + 1 < 2 ^ 64
    omega
  · exact safe_appendOps_one (short_del (hf.short_key hl))

section Victims

variable (ho : origin < 998 * 2 ^ 63)

include ho

theorem safe_sampleOps (h : Fit horizon n s) :
    Safe (s.sampleOps origin env) := by
  refine Partial.safe_cons.2 ⟨h.samples, Partial.safe_map fun c _ => ?_⟩
  have hle : min c.lastAccess (2 ^ 64 - 1) / 1000000 ≤ 2 ^ 64 := by omega
  show (origin + min c.lastAccess (2 ^ 64 - 1) / 1000000) / 1000 < 2 ^ 63
  omega

theorem safe_selectVictimOps (hn : n ≤ keyLimit)
    (h : Fit horizon n s) : Safe (s.selectVictimOps origin env) := by
  unfold selectVictimOps
  split
  all_goals first
    | exact safe_evictSieveOps hn h
    | exact Partial.safe_nil
    | exact Partial.safe_append.2 ⟨safe_sampleOps ho h, safe_soonestOps s⟩
    | exact safe_sampleOps ho h

theorem evictLoop_quietly (incoming : ℕ) :
    ∀ (rounds evicted : ℕ) (s : KvEngine), evicted + rounds < 2 ^ 63 →
      Quietly horizon 0 (evictLoopSites origin env incoming rounds evicted s) s
        (evictLoop env incoming rounds s).2
  | 0, evicted, s, _ => observe_quietly s evicted
  | rounds + 1, evicted, s, hr => by
    unfold evictLoopSites evictLoop
    split_ifs
    · exact observe_quietly s evicted
    · exact .refl s
    · have hsel : Quietly horizon 0 (s.sites true (s.selectVictimOps origin env)) s _ :=
        .of_safe (fun n hn h => safe_selectVictimOps ho hn h) fun _ h => h.selectVictim env
      rcases h : s.selectVictim env with ⟨_ | victim, s'⟩ <;> rw [h] at hsel
      · exact hsel.trans (.refl s')
      · exact hsel.trans ((evictVictim_quietly h (by omega)).trans
          (evictLoop_quietly incoming rounds (evicted + 1) _ (by omega)))

theorem enforceMemoryLimit_quietly (s : KvEngine) (incoming : ℕ) :
    Quietly horizon 0 (s.enforceMemoryLimitSites origin env incoming) s
      (s.enforceMemoryLimit env incoming).2 := by
  intro n hn hf
  have hs := hf.store
  simp only [keyLimit] at hn
  have hstate : s.eviction.maxMemory ≠ 0 → (s.enforceMemoryLimit env incoming).2
      = (evictLoop env incoming (max s.store.entries.length 1 + 16) s).2 := by
    intro hmax
    unfold enforceMemoryLimit
    rw [if_neg hmax]
    split
    · rename_i h
      rw [h]
    · rename_i h
      rw [h]
      split_ifs <;> rfl
  unfold enforceMemoryLimitSites
  split_ifs with hmax
  · unfold enforceMemoryLimit
    rw [if_pos hmax]
    exact ⟨quiet_nil, hf⟩
  · rw [hstate hmax]
    have hbound : max s.store.entries.length 1 + 16 < 2 ^ 63 := by omega
    refine Quietly.trans (.check fun _ _ _ => ?_)
      (evictLoop_quietly ho incoming _ 0 s (by omega)) n hn hf
    refine Partial.safe_cons.2 ⟨?_, Partial.safe_nil⟩
    show max s.store.entries.length 1 + 16 < 2 ^ 64
    omega

theorem enforceForWrite_quietly (s : KvEngine) {key value : Bytes}
    (hv : validatePair key value = .ok ()) :
    Quietly horizon 0 (s.enforceForWriteSites origin env key value.length) s
      (s.enforceForWrite env key value.length).2 := by
  obtain ⟨hk, hl⟩ := lengths_of_validatePair hv
  refine Quietly.trans (.check fun n _ hf => ?_)
    (enforceMemoryLimit_quietly ho s _)
  simp only [Partial.safe_cons, Op.Succeeds, perEntryOverhead]
  exact ⟨by omega, by omega, hf.safe_stored key⟩

theorem admitted_quietly {s s' : KvEngine} {key value : Bytes} {k : ℕ}
    {after : KvEngine → List Site} (hv : validatePair key value = .ok ())
    (herr : ∀ e t, s.enforceForWrite env key value.length = (.error e, t) → s' = t)
    (hok : ∀ t, s.enforceForWrite env key value.length = (.ok (), t) →
      Quietly horizon k (after t) t s') :
    Quietly horizon k (s.admitted origin env key value after) s s' := by
  have h : Quietly horizon 0 _ s (s.enforceForWrite env key value.length).2 :=
    enforceForWrite_quietly ho s hv
  unfold admitted
  rcases ht : s.enforceForWrite env key value.length with ⟨e | _, t⟩ <;> rw [ht] at h
  · rw [herr e t ht]
    exact (h.trans (.refl t)).mono (Nat.zero_le k)
  · exact (h.trans (hok t ht)).mono (by omega)

end Victims

end Functions

end FerrumKv
