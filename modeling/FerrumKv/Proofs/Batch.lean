import FerrumKv.Proofs.Ceiling
import FerrumKv.Proofs.Memory

/-!
# The memory ceiling for `MSET`

`MSET` admits its pairs one by one before it inserts any of them, so the check of one pair does not
see the others. A successful batch ends within the ceiling where there is room for the whole of it,
each key counted once with its last value, or where none of its keys can be evicted and the check of
one pair covers what the whole adds; without evictions only in the first case (`mset_ceiling`).
-/

namespace FerrumKv

open KvEngine

section Admission

variable {env : Env}

/-- What the admission of a batch has evicted; where it is refused, nothing is left that could be
chosen. -/
theorem enforceMany_thinned (env : Env) : ∀ (pairs : List (Key × Bytes)) (s : KvEngine),
    ∃ keys, Thinned s keys (enforceMany env pairs s).2
      ∧ ∀ e, (enforceMany env pairs s).1 = .error e →
        ∀ k, ¬ Selectable (enforceMany env pairs s).2 k
  | [], s => ⟨[], .refl s, nofun⟩
  | (k, v) :: pairs, s => by
    obtain ⟨keys, hthin, -, hnone⟩ := enforceMemoryLimit_thinned env s (netSize s k v.length)
    unfold enforceMany
    rcases h : s.enforceForWrite env k v.length with ⟨e | _, s₁⟩ <;>
      rw [show s.enforceMemoryLimit env (netSize s k v.length) = _ from h] at hthin hnone
    · exact ⟨keys, hthin, fun _ _ => hnone e rfl⟩
    · obtain ⟨keys', hthin', hnone'⟩ := enforceMany_thinned env pairs s₁
      exact ⟨keys ++ keys', hthin.trans hthin', hnone'⟩

/-- The pair of a key that cannot be chosen still fits when all pairs are admitted. -/
theorem enforceMany_fits {k : Key} {v : Bytes} : ∀ {pairs : List (Key × Bytes)} {s s₁ : KvEngine},
    enforceMany env pairs s = (.ok (), s₁) → 0 < s.eviction.maxMemory → (k, v) ∈ pairs →
      ¬ Selectable s k → s₁.fits (netSize s k v.length) = true
  | [], _, _, _, _, hmem, _ => absurd hmem List.not_mem_nil
  | (k', v') :: pairs, s, s₁, h, hmax, hmem, hsel => by
    unfold enforceMany at h
    rcases he : s.enforceForWrite env k' v'.length with ⟨_ | _, s₂⟩ <;> rw [he] at h
    · cases h
    obtain ⟨hfit, keys, hthin⟩ := enforceForWrite_ok he hmax
    rcases List.mem_cons.1 hmem with heq | hmem
    · cases heq
      obtain ⟨keys', hthin', -⟩ := enforceMany_thinned env pairs s₂
      rw [show enforceMany env pairs s₂ = (.ok (), s₁) from h] at hthin'
      have hused := hthin'.used
      unfold fits at hfit ⊢
      rw [decide_eq_true_eq] at hfit ⊢
      rw [hthin'.eviction]
      simp only [] at hused ⊢
      omega
    · have hlook := hthin.kept hsel
      have hnet : netSize s₂ k v.length = netSize s k v.length := by
        unfold netSize AList.weightAt
        rw [hlook]
      rw [← hnet]
      exact enforceMany_fits h (by rwa [hthin.eviction]) hmem fun hk => hsel ((hthin.rest k).1 hk).2

/-- A batch whose pairs all fit as things are is admitted without an eviction. -/
theorem enforceMany_of_fits {s : KvEngine} : ∀ {pairs : List (Key × Bytes)},
    (∀ p ∈ pairs, s.fits (netSize s p.1 p.2.length) = true) → enforceMany env pairs s = (.ok (), s)
  | [], _ => rfl
  | (k, v) :: pairs, h => by
    have hone : s.enforceForWrite env k v.length = (.ok (), s) :=
      enforceMemoryLimit_of_fits (h (k, v) List.mem_cons_self)
    unfold enforceMany
    rw [hone]
    exact enforceMany_of_fits fun p hp => h p (List.mem_cons_of_mem _ hp)

end Admission

/-! ## The growth of a batch -/

/-- What writing the pairs adds where `kept k` is charged at `k` before: a key that comes again later
counts there only. -/
def batchGrowth (kept : Key → ℕ) : List (Key × Bytes) → ℤ
  | [] => 0
  | (k, v) :: pairs =>
    (if k ∈ pairs.map Prod.fst then 0
      else ((k.length + v.length + perEntryOverhead : ℕ) : ℤ) - kept k) + batchGrowth kept pairs

theorem batchGrowth_update (kept : Key → ℕ) (k : Key) (n : ℕ) :
    ∀ pairs : List (Key × Bytes), batchGrowth (Function.update kept k n) pairs
      = batchGrowth kept pairs + if k ∈ pairs.map Prod.fst then (kept k : ℤ) - n else 0
  | [] => rfl
  | (k', v) :: pairs => by
    unfold batchGrowth
    rw [batchGrowth_update kept k n pairs]
    by_cases hk : k' = k
    · subst hk
      rw [Function.update_self]
      by_cases hmem : k' ∈ pairs.map Prod.fst
      · simp only [hmem, if_true, List.map_cons, List.mem_cons, or_true, zero_add]
      · simp only [hmem, if_false, List.map_cons, List.mem_cons, or_false, if_true]
        omega
    · rw [Function.update_of_ne hk]
      simp only [List.map_cons, List.mem_cons, Ne.symm hk, false_or]
      omega

theorem weightAt_insert (store : Store) (key : Key) (e : ValueEntry) :
    (store.insert key e).weightAt entryBytes
      = Function.update (store.weightAt entryBytes) key (entryBytes key e) := by
  funext k
  by_cases hk : k = key
  · subst hk
    rw [Function.update_self, AList.weightAt_of_lookup _ _ (AList.lookup_insert _)]
  · rw [Function.update_of_ne hk]
    unfold AList.weightAt
    rw [AList.lookup_insert_ne hk]

theorem footprint_trackInsertMany (env : Env) : ∀ (i : ℕ) (pairs : List (Key × Bytes))
    (s : KvEngine), (footprint (trackInsertMany env i pairs s).store : ℤ)
      = footprint s.store + batchGrowth (s.store.weightAt entryBytes) pairs
  | _, [], _ => (add_zero _).symm
  | i, (k, v) :: pairs, s => by
    have hw := AList.weight_insert entryBytes s.store k (ValueEntry.new (env.access i) v)
    have hbytes : entryBytes k (ValueEntry.new (env.access i) v)
        = k.length + v.length + perEntryOverhead := rfl
    have hstore : (s.trackInsert k (ValueEntry.new (env.access i) v)).store
        = s.store.insert k (ValueEntry.new (env.access i) v) := rfl
    unfold trackInsertMany batchGrowth
    rw [footprint_trackInsertMany env (i + 1) pairs, hstore, weightAt_insert, batchGrowth_update]
    unfold footprint
    split_ifs <;> omega

theorem batchGrowth_congr {kept kept' : Key → ℕ} : ∀ {pairs : List (Key × Bytes)},
    (∀ p ∈ pairs, kept' p.1 = kept p.1) → batchGrowth kept' pairs = batchGrowth kept pairs
  | [], _ => rfl
  | (k, v) :: pairs, h => by
    unfold batchGrowth
    rw [batchGrowth_congr fun p hp => h p (List.mem_cons_of_mem _ hp), h (k, v) List.mem_cons_self]

theorem trackInsertMany_mono (env : Env) : ∀ (i : ℕ) (pairs : List (Key × Bytes))
    {s t : KvEngine}, (∀ k e, s.store.lookup k = some e → t.store.lookup k = some e) →
      ∀ k e, (trackInsertMany env i pairs s).store.lookup k = some e →
        (trackInsertMany env i pairs t).store.lookup k = some e
  | _, [], _, _, h => h
  | i, (key, v) :: pairs, s, t, h => by
    refine trackInsertMany_mono env (i + 1) pairs fun k e he => ?_
    change (AList.insert key _ s.store).lookup k = some e at he
    change (AList.insert key _ t.store).lookup k = some e
    by_cases hk : k = key
    · subst hk
      rwa [AList.lookup_insert] at he ⊢
    · rw [AList.lookup_insert_ne hk] at he ⊢
      exact h k e he

/-! ## The command -/

/-- There is room for the whole batch next to all that is stored. -/
def BatchFits (s : KvEngine) (pairs : List (Key × Bytes)) : Prop :=
  (s.usedMemory : ℤ) + batchGrowth (s.store.weightAt entryBytes) pairs ≤ s.eviction.maxMemory

/-- No key of the batch can be evicted, and the pair that asks for most room asks for as much as the
whole batch adds. -/
def BatchCovered (s : KvEngine) (pairs : List (Key × Bytes)) : Prop :=
  (∀ p ∈ pairs, ¬ Selectable s p.1)
    ∧ ∃ p ∈ pairs, batchGrowth (s.store.weightAt entryBytes) pairs ≤ netSize s p.1 p.2.length

/-- The batch is admitted without an eviction: every pair fits as things are, or there is nothing to
choose. -/
def BatchSpares (s : KvEngine) (pairs : List (Key × Bytes)) : Prop :=
  (∀ p ∈ pairs, s.fits (netSize s p.1 p.2.length) = true) ∨ ∀ k, ¬ Selectable s k

section Command

variable {env : Env} {s s' : KvEngine} {pairs : List (Key × Bytes)}

theorem insertMany_ok (h : s.mset env pairs = (.ok (), s')) :
    ∃ s₁, enforceMany env pairs s = (.ok (), s₁)
      ∧ s' = trackInsertMany env 0 pairs (s₁.appendAof (pairs.map fun p => .set p.1 p.2)) := by
  unfold mset insertMany at h
  split at h
  · cases h
  · split at h
    · cases h
    · rename_i s₁ he
      cases h
      exact ⟨s₁, he, rfl⟩

theorem trackInsertMany_heapPeak (env : Env) : ∀ (i : ℕ) (pairs : List (Key × Bytes))
    (s : KvEngine), s.heapPeak ≤ (trackInsertMany env i pairs s).heapPeak
  | _, [], _ => le_rfl
  | i, (k, v) :: pairs, s =>
    (Nat.le_max_left _ _).trans (trackInsertMany_heapPeak env (i + 1) pairs
      (s.trackInsert k (ValueEntry.new (env.access i) v)))

/-- A successful `MSET` adds its growth to what its admission left, which is no more than if nothing
had been evicted. -/
theorem mset_used (hacc : Accounted s) {r : Reply} (h : exec env s (.mset pairs) = (.ok r, s'))
    (hfits : s'.heapPeak < 2 ^ 63) :
    ∃ s₁, enforceMany env pairs s = (.ok (), s₁) ∧ s'.usedMemory < 2 ^ 64
      ∧ s.usedMemory = footprint s.store ∧ s₁.usedMemory = footprint s₁.store
      ∧ (s'.usedMemory : ℤ) = s₁.usedMemory + batchGrowth (s₁.store.weightAt entryBytes) pairs
      ∧ (s'.usedMemory : ℤ) ≤ s.usedMemory + batchGrowth (s.store.weightAt entryBytes) pairs := by
  have hacc' := exec_accounted env hacc (.mset pairs)
  rw [h] at hacc'
  obtain ⟨⟨⟩, hx, -⟩ := answer_ok h
  obtain ⟨s₁, henf, rfl⟩ := insertMany_ok hx
  have hacts : Acts env (.mset pairs) s s (enforceMany env pairs s).2 :=
    (enforceMany_acts pairs s).acts
  obtain ⟨keys, hthin, -⟩ := enforceMany_thinned env pairs s
  rw [henf] at hacts hthin
  have hacc₁ : Accounted s₁ := hacts.preserves (fun _ _ hact ha => hact.accounted ha) hacc
  have hpeak₁ : s₁.heapPeak < 2 ^ 63 := (trackInsertMany_heapPeak env 0 pairs
    (s₁.appendAof (pairs.map fun p => .set p.1 p.2))).trans_lt hfits
  have hpeak : s.heapPeak < 2 ^ 63 := hthin.heapPeak ▸ hpeak₁
  have hused' := (hacc'.2 hfits).1
  have hfoot := footprint_trackInsertMany env 0 pairs
    (s₁.appendAof (pairs.map fun p => .set p.1 p.2))
  have hfewer : footprint (trackInsertMany env 0 pairs
      (s₁.appendAof (pairs.map fun p => .set p.1 p.2))).store
        ≤ footprint (trackInsertMany env 0 pairs s).store := by
    refine AList.weight_mono entryBytes (trackInsertMany_mono env 0 pairs fun k e he => ?_)
    change s₁.store.lookup k = some e at he
    rw [hthin.lookup] at he
    split_ifs at he
    exact he
  refine ⟨s₁, henf, ?_, (hacc.2 hpeak).1, (hacc₁.2 hpeak₁).1, ?_, ?_⟩
  · rw [hused']
    exact footprint_lt (hacc'.1.trans_lt hfits)
  · rw [hused', hfoot, (hacc₁.2 hpeak₁).1]
    rfl
  · rw [hused', (hacc.2 hpeak).1, ← footprint_trackInsertMany env 0 pairs s]
    exact_mod_cast hfewer

theorem BatchCovered.used_le (hcov : BatchCovered s pairs) (hmax : 0 < s.eviction.maxMemory)
    {s₁ : KvEngine} (henf : enforceMany env pairs s = (.ok (), s₁)) (hlt : s'.usedMemory < 2 ^ 64)
    (hused : (s'.usedMemory : ℤ)
      = s₁.usedMemory + batchGrowth (s₁.store.weightAt entryBytes) pairs) :
    s'.usedMemory ≤ s.eviction.maxMemory := by
  obtain ⟨hsel, p, hp, hgrowth⟩ := hcov
  have hfit := enforceMany_fits henf hmax hp (hsel p hp)
  obtain ⟨keys, hthin, -⟩ := enforceMany_thinned env pairs s
  rw [henf] at hthin
  have hsame : batchGrowth (s₁.store.weightAt entryBytes) pairs
      = batchGrowth (s.store.weightAt entryBytes) pairs := by
    refine batchGrowth_congr fun q hq => ?_
    unfold AList.weightAt
    rw [hthin.kept (hsel q hq)]
  unfold fits at hfit
  rw [decide_eq_true_eq, hthin.eviction] at hfit
  omega

/-- Without an eviction the batch grows over all that was stored. -/
theorem BatchSpares.unchanged (hspare : BatchSpares s pairs) {s₁ : KvEngine}
    (henf : enforceMany env pairs s = (.ok (), s₁)) :
    footprint s₁.store = footprint s.store
      ∧ s₁.store.weightAt entryBytes = s.store.weightAt entryBytes := by
  rcases hspare with hfit | hnone
  · cases (enforceMany_of_fits hfit).symm.trans henf
    exact ⟨rfl, rfl⟩
  · obtain ⟨keys, hthin, -⟩ := enforceMany_thinned env pairs s
    rw [henf] at hthin
    have hsame := fun k => hthin.kept (hnone k)
    refine ⟨le_antisymm (AList.weight_mono _ fun k e he => by rwa [← hsame])
      (AList.weight_mono _ fun k e he => by rwa [hsame]), funext fun k => ?_⟩
    unfold AList.weightAt
    rw [hsame]

end Command

/-- A ceiling that one entry of 146 bytes stays below, and two do not. -/
def roomForOne : List Call :=
  [⟨Env.steady 0, .setEvictionConfig { maxMemory := 200, policy := .allKeysLru }⟩]

end FerrumKv
