import FerrumKv.Lib.Runs
import FerrumKv.Proofs.Acts

/-!
# The memory counter

The counter is kept by signed changes, which wrap above and saturate below. In every state that a
run reaches it is the charge of all stored entries and no change has wrapped or saturated
(`usedMemory_exact`), as long as the entries fit the address space at all: what an entry is charged
is at most twice what it occupies.
-/

namespace FerrumKv

open KvEngine

theorem counter_exact {used new : ℕ} {delta : ℤ} (h : (used : ℤ) + delta = new)
    (hlt : new < 2 ^ 64) : counterAfter used delta = new ∧ counterFaults used delta = false := by
  unfold counterAfter counterFaults
  rw [decide_eq_false_iff_not]
  split_ifs with h0 hpos
  · constructor <;> omega
  · have hsum : used + delta.toNat = new := by omega
    rw [hsum, Nat.mod_eq_of_lt hlt]
    refine ⟨rfl, ?_⟩
    omega
  · constructor <;> omega

theorem footprint_lt {store : Store} (h : heapBytes store < 2 ^ 63) : footprint store < 2 ^ 64 := by
  have hle : footprint store ≤ 2 * heapBytes store := by
    refine AList.weight_le_weight entryBytes store fun k e => ?_
    simp only [entryBytes, perEntryOverhead, slotBytes]
    omega
  omega

/-- While the entries fit the address space, the counter is exact and has never been at fault. -/
def Accounted (s : KvEngine) : Prop :=
  heapBytes s.store ≤ s.heapPeak
    ∧ (s.heapPeak < 2 ^ 63 → s.usedMemory = footprint s.store ∧ s.counterFault = false)

theorem accounted_startWith (aof : Option (List AofRecord)) : Accounted (startWith aof) :=
  ⟨Nat.zero_le _, fun _ => ⟨rfl, rfl⟩⟩

section Step

variable {s s' : KvEngine}

theorem Accounted.of_eq (h : Accounted s) (hst : s'.store = s.store)
    (hpeak : s'.heapPeak = s.heapPeak) (hused : s'.usedMemory = s.usedMemory)
    (hfault : s'.counterFault = s.counterFault) : Accounted s' := by
  unfold Accounted
  rw [hst, hpeak, hused, hfault]
  exact h

/-- A change of the store whose charge is the change of the counter. -/
theorem Accounted.change (h : Accounted s) (delta : ℤ)
    (hdelta : (footprint s.store : ℤ) + delta = footprint s'.store)
    (hheap : heapBytes s'.store ≤ s'.heapPeak) (hpeak : s.heapPeak ≤ s'.heapPeak)
    (hused : s'.usedMemory = counterAfter s.usedMemory delta)
    (hfault : s'.counterFault = (s.counterFault || counterFaults s.usedMemory delta)) :
    Accounted s' := by
  refine ⟨hheap, fun hlt => ?_⟩
  obtain ⟨hu, hf⟩ := h.2 (by omega)
  have hfoot : footprint s'.store < 2 ^ 64 := footprint_lt (by omega)
  rw [← hu] at hdelta
  obtain ⟨h1, h2⟩ := counter_exact hdelta hfoot
  rw [hused, hfault, hf, h1, h2]
  exact ⟨rfl, rfl⟩

theorem Accounted.edit (h : Accounted s) {key : Key} {e e' : ValueEntry}
    (he : s.store.lookup key = some e) (hst : s'.store = s.store.insert key e')
    (hdata : e'.data = e.data) (hpeak : s'.heapPeak = s.heapPeak)
    (hused : s'.usedMemory = s.usedMemory) (hfault : s'.counterFault = s.counterFault) :
    Accounted s' := by
  have hfoot : footprint s'.store = footprint s.store := by
    rw [hst]
    exact AList.weight_insert_of_eq entryBytes s.store he (by simp [entryBytes, hdata])
  have hheap : heapBytes s'.store = heapBytes s.store := by
    rw [hst]
    exact AList.weight_insert_of_eq _ s.store he (by simp [hdata])
  unfold Accounted
  rw [hfoot, hheap, hpeak, hused, hfault]
  exact h

theorem trackInsert_accounted (h : Accounted s) (key : Key) (e : ValueEntry) :
    Accounted (s.trackInsert key e) := by
  have hw := AList.weight_insert entryBytes s.store key e
  refine h.change (entryBytes key e - s.store.weightAt entryBytes key) ?_
    (Nat.le_max_right _ _) (Nat.le_max_left _ _) rfl rfl
  change (footprint s.store : ℤ) + _ = footprint (s.store.insert key e)
  unfold footprint
  omega

theorem heapBytes_erase_le (store : Store) (key : Key) :
    heapBytes (store.erase key) ≤ heapBytes store := by
  have hw := AList.weight_erase (fun k e => k.length + e.data.length + slotBytes) store key
  unfold heapBytes
  omega

theorem erase_accounted (h : Accounted s) (key : Key) (hst : s'.store = s.store.erase key)
    (hpeak : s'.heapPeak = s.heapPeak)
    (hused : s'.usedMemory
      = counterAfter s.usedMemory (-(s.store.weightAt entryBytes key : ℤ)))
    (hfault : s'.counterFault = (s.counterFault
      || counterFaults s.usedMemory (-(s.store.weightAt entryBytes key : ℤ)))) :
    Accounted s' := by
  have hw := AList.weight_erase entryBytes s.store key
  have hle := heapBytes_erase_le s.store key
  have hpk := h.1
  refine h.change _ ?_ (by rw [hst, hpeak]; omega) hpeak.ge hused hfault
  rw [hst]
  unfold footprint
  omega

theorem trackRemove_accounted (h : Accounted s) (key : Key) : Accounted (s.trackRemove key) :=
  erase_accounted h key rfl rfl rfl rfl

end Step

theorem setEvictionConfig_accounting (env : Env) (s : KvEngine) (cfg : EvictionConfig) :
    (s.setEvictionConfig env cfg).heapPeak = s.heapPeak
      ∧ (s.setEvictionConfig env cfg).usedMemory = s.usedMemory
      ∧ (s.setEvictionConfig env cfg).counterFault = s.counterFault := by
  unfold setEvictionConfig
  simp only []
  split_ifs <;> exact ⟨rfl, rfl, rfl⟩

theorem Act.accounted {env : Env} {cmd : Command} {s₀ a b : KvEngine} (hact : Act env cmd s₀ a b)
    (h : Accounted a) : Accounted b := by
  cases hact with
  | count => exact h.of_eq rfl rfl rfl rfl
  | touch _ r key =>
    unfold touchAccess
    split
    · rename_i e he
      exact h.edit he rfl rfl rfl rfl rfl
    · exact h
  | remove _ key hk => exact (trackRemove_accounted h key).of_eq rfl rfl rfl rfl
  | forget _ key hx => exact trackRemove_accounted h key
  | evict _ victim hv =>
    have hsel : Accounted (a.selectVictim env).2 := by
      rw [selectVictim_frame]
      exact h.of_eq rfl rfl rfl rfl
    exact (trackRemove_accounted hsel victim).of_eq rfl rfl rfl rfl
  | noVictim _ hv =>
    rw [selectVictim_frame]
    exact h.of_eq rfl rfl rfl rfl
  | write _ key value ttl r hv ht =>
    exact trackInsert_accounted (h.of_eq rfl rfl rfl rfl) key _
  | flush =>
    refine ⟨?_, fun hlt => ⟨rfl, (h.2 hlt).2⟩⟩
    exact Nat.zero_le _
  | config _ cfg =>
    obtain ⟨hpeak, hused, hfault⟩ := setEvictionConfig_accounting env a cfg
    exact h.of_eq (setEvictionConfig_store env a cfg) hpeak hused hfault
  | deadline key absEpochMs e hc hk he hlt =>
    rw [deadlined, setDeadline_of_lookup _ hk]
    exact h.edit hk rfl rfl rfl rfl rfl
  | persist key e hc hk he hd =>
    rw [persisted, setDeadline_of_lookup _ hk]
    exact h.edit hk rfl rfl rfl rfl rfl
  | discard key e hc hk hs he =>
    have hw : s₀.store.weightAt entryBytes key = entryBytes key e :=
      AList.weightAt_of_lookup entryBytes s₀.store hk
    refine erase_accounted h key rfl rfl ?_ ?_
    · rw [hw]
      rfl
    · rw [hw]
      rfl

theorem exec_accounted (env : Env) {s : KvEngine} (h : Accounted s) (cmd : Command) :
    Accounted (exec env s cmd).2 :=
  (exec_acts env s cmd).preserves (fun _ _ hact ha => hact.accounted ha) h

theorem run_accounted (calls : List Call) {s : KvEngine} (h : Accounted s) :
    Accounted (run s calls) :=
  Runs.foldl_invariant (I := Accounted)
    (fun _ (c : Call) hs => exec_accounted c.env hs c.cmd) calls h

theorem memoryUsage_some {env : Env} {s : KvEngine} {key : Key} {n : ℕ}
    (h : (s.memoryUsage env key).1 = some n) :
    (s.memoryUsage env key).2 = s ∧ s.store.weightAt entryBytes key = n := by
  unfold memoryUsage memoryOf at h ⊢
  cases hl : s.store.lookup key with
  | none => simp [hl] at h
  | some e =>
    simp only [hl] at h ⊢
    split_ifs at h ⊢
    all_goals
      simp only [Option.some.injEq] at h
      exact ⟨rfl, (AList.weightAt_of_lookup entryBytes s.store hl).trans h⟩

/-- In every state a run reaches, the counter is exact and has never been at fault, and deleting a
key lowers it by what `MEMORY USAGE` reported for the key. -/
theorem usedMemory_exact (aof : Option (List AofRecord)) (calls : List Call)
    (hfits : (run (startWith aof) calls).heapPeak < 2 ^ 63) :
    (run (startWith aof) calls).usedMemory = footprint (run (startWith aof) calls).store
      ∧ (run (startWith aof) calls).counterFault = false
      ∧ ∀ env env' key n, ((run (startWith aof) calls).memoryUsage env key).1 = some n →
        (((run (startWith aof) calls).memoryUsage env key).2.del env' key).2.usedMemory + n
          = (run (startWith aof) calls).usedMemory := by
  have hacc := run_accounted calls (accounted_startWith aof)
  generalize run (startWith aof) calls = s at hfits hacc ⊢
  obtain ⟨hused, hfault⟩ := hacc.2 hfits
  refine ⟨hused, hfault, fun env env' key n hn => ?_⟩
  obtain ⟨hsame, hw⟩ := memoryUsage_some hn
  have hpeak : (s.del env' key).2.heapPeak = s.heapPeak := by
    rcases del_eq env' s key with h | h <;> rw [h] <;> rfl
  have hdel : (s.del env' key).2.usedMemory = footprint (s.del env' key).2.store :=
    ((exec_accounted env' hacc (.del key)).2 (hpeak ▸ hfits)).1
  have hweight := AList.weight_erase entryBytes s.store key
  rw [hsame, hdel, hused, del_store, ← hw]
  exact hweight

def overwritingRun : List Call :=
  [⟨Env.steady 0, .set [97] [118]⟩, ⟨Env.steady 1, .set [97] [118, 118]⟩,
    ⟨Env.steady 2, .expireAtMs [97] 10⟩]

theorem usedMemory_exact_overwritingRun :
    (run (startWith none) overwritingRun).usedMemory = 147
      ∧ ((run (startWith none) overwritingRun).del (Env.steady 20) [97]).2.usedMemory = 0 := by
  obtain ⟨hused, -, hdel⟩ := usedMemory_exact none overwritingRun (by decide)
  have hfoot : footprint (run (startWith none) overwritingRun).store = 147 := by decide
  have hn : ((run (startWith none) overwritingRun).memoryUsage (Env.steady 3) [97]).1
      = some 147 := by decide
  have hlow := hdel (Env.steady 3) (Env.steady 20) [97] 147 hn
  rw [hused, hfoot, (memoryUsage_some hn).1] at hlow
  exact ⟨hused.trans hfoot, by omega⟩

end FerrumKv
