import FerrumKv.Lib.Runs
import FerrumKv.Proofs.Effects
import FerrumKv.Recency

/-!
# The victims of the policies by recency and by deadline

Each use stamps its entry with a reading, and nothing else changes a stamp (`Trace.tracked`). So
under a clock that increases from use to use the stamps are in the order of the recency list along
every run (`run_tracked`), and with a sample of all keys an LRU policy evicts the first key of that
list that is stored and in scope; `volatile-ttl` evicts a key with the earliest deadline
(`victims_right`).
-/

namespace FerrumKv

open KvEngine

def stampOf (store : Store) (key : Key) : Option ℕ := (store.lookup key).map (·.lastAccessNs)

/-- The stamps are in the order of the recency list, and before all readings that are to come. -/
structure Tracked (order : List Key) (later : List ℕ) (s : KvEngine) : Prop where
  sorted : Recency.Sorted (stampOf s.store) order
  before : ∀ k x, stampOf s.store k = some x → ∀ r ∈ later, x < r

theorem Tracked.mono {order : List Key} {later : List ℕ} {s s' : KvEngine}
    (h : Tracked order later s)
    (hle : ∀ k x, stampOf s'.store k = some x → stampOf s.store k = some x) :
    Tracked order later s' :=
  ⟨h.sorted.mono hle, fun k x hx => h.before k x (hle k x hx)⟩

theorem stampOf_erase {store : Store} {key k : Key} {x : ℕ}
    (h : stampOf (store.erase key) k = some x) : stampOf store k = some x := by
  unfold stampOf at h ⊢
  by_cases hk : k = key
  · subst hk
    rw [AList.lookup_erase] at h
    cases h
  · rwa [AList.lookup_erase_ne hk] at h

theorem stampOf_insert_ne {store : Store} {key k : Key} {e : ValueEntry} (h : k ≠ key) :
    stampOf (store.insert key e) k = stampOf store k := by
  unfold stampOf
  rw [AList.lookup_insert_ne h]

theorem stampOf_insert {store : Store} {key : Key} {e : ValueEntry} :
    stampOf (store.insert key e) key = some e.lastAccessNs := by
  unfold stampOf
  rw [AList.lookup_insert]
  rfl

section Command

variable {env : Env} {cmd : Command} {s₀ s s' : KvEngine} {order : List Key} {later : List ℕ}

theorem Effect.Does.tracked {eff : Effect} (h : eff.Does env cmd s₀ s s')
    (hclock : (stamps env eff.used.toList ++ later).Pairwise (· < ·))
    (ht : Tracked order (stamps env eff.used.toList ++ later) s) :
    Tracked ((eff.used.toList.map (·.2)).foldl Recency.touch order) later s' := by
  have hst := h.store
  have hsame : s'.store = s.store → Tracked order later s → Tracked order later s' :=
    fun heq ht => ht.mono (fun k x hx => heq ▸ hx)
  have herase : ∀ key, s'.store = s.store.erase key → Tracked order later s →
      Tracked order later s' :=
    fun key heq ht => ht.mono (fun k x hx => stampOf_erase (heq ▸ hx))
  generalize hs' : s'.store = store at hst
  cases hst with
  | note => exact hsame hs' ht
  | configure cfg _ => exact hsame hs' ht
  | use i key e _ he =>
    obtain ⟨hr, -⟩ := List.pairwise_cons.1 hclock
    have hnew : stampOf s'.store key = some (env.access i).ns := by
      rw [hs', stampOf_insert, he]
    have hold : ∀ k, k ≠ key → stampOf s'.store k = stampOf s.store k := by
      intro k hk
      rw [hs', stampOf_insert_ne hk]
    refine ⟨ht.sorted.touch (fun k x hx => ht.before k x hx _ List.mem_cons_self) hnew hold, ?_⟩
    intro k x hx r hmem
    by_cases hk : k = key
    · subst hk
      rw [hnew, Option.some.injEq] at hx
      exact hx ▸ hr r hmem
    · rw [hold k hk] at hx
      exact ht.before k x hx r (List.mem_cons_of_mem _ hmem)
  | retime key e d _ he =>
    refine ht.mono fun k x hx => ?_
    rw [hs'] at hx
    by_cases hk : k = key
    · subst hk
      rw [stampOf_insert] at hx
      rw [stampOf, he]
      exact hx
    · rwa [stampOf_insert_ne hk] at hx
  | remove key _ _ => exact herase key hs' ht
  | lapse key _ _ _ _ => exact herase key hs' ht
  | sweep key _ _ _ _ => exact herase key hs' ht
  | evict key _ _ _ => exact herase key hs' ht
  | flush _ =>
    refine ht.mono fun k x hx => ?_
    rw [hs'] at hx
    cases hx

/-- Only the uses of a command move keys in the recency list. -/
theorem Trace.tracked {effs : List Effect} (h : Trace env cmd s₀ s effs s') :
    ∀ {order : List Key},
      (stamps env (effs.filterMap Effect.used) ++ later).Pairwise (· < ·) →
      Tracked order (stamps env (effs.filterMap Effect.used) ++ later) s →
      Tracked (((effs.filterMap Effect.used).map (·.2)).foldl Recency.touch order) later s' := by
  induction h with
  | nil s => exact fun _ ht => ht
  | @cons s t s' eff effs hd _ ih =>
    intro order hclock ht
    rw [filterMap_cons_toList, stamps, List.map_append, List.append_assoc] at hclock ht
    rw [filterMap_cons_toList, List.map_append, List.foldl_append]
    exact ih (List.pairwise_append.1 hclock).2.1 (hd.tracked hclock ht)

theorem Trace.evicted {effs : List Effect} (h : Trace env cmd s₀ s effs s') :
    s'.evictedKeys = s.evictedKeys + (effs.filterMap Effect.victim).length := by
  induction h with
  | nil s => rfl
  | @cons s t s' eff effs hd _ ih =>
    have hone : eff.victim.toList.length = eff.isEvict.toNat := by cases eff <;> rfl
    rw [ih, hd.evictedKeys, filterMap_cons_toList, List.length_append, hone, Nat.add_assoc]

theorem Trace.split {eff : Effect} {post : List Effect} :
    ∀ {pre : List Effect} {s : KvEngine}, Trace env cmd s₀ s (pre ++ eff :: post) s' →
      ∃ t t', Trace env cmd s₀ s pre t ∧ eff.Does env cmd s₀ t t'
  | [], s, .cons hd _ => ⟨s, _, .nil s, hd⟩
  | _ :: pre, _, .cons hd h => by
    obtain ⟨t, t', ht, hd'⟩ := Trace.split h
    exact ⟨t, t', .cons hd ht, hd'⟩

end Command

/-- The stamps in the store are in the order of the recency list all along a run. -/
theorem run_tracked : ∀ (calls : List Call) (n : ℕ) {s : KvEngine} {order : List Key},
    (stampsInRun s calls).Pairwise (· < ·) → Tracked order (stampsInRun s calls) s →
    ∃ later, Tracked ((usesInRun s (calls.take n)).foldl Recency.touch order) later
      (run s (calls.take n))
  | calls, 0, s, order, _, ht => ⟨_, by simpa [usesInRun, run] using ht⟩
  | [], n + 1, s, order, _, ht => ⟨_, by simpa [usesInRun, run] using ht⟩
  | c :: calls, n + 1, s, order, hclock, ht => by
    obtain ⟨effs, htrace, hused, -⟩ := exec_traced c.env s c.cmd
    rw [stampsInRun, ← hused] at hclock ht
    obtain ⟨later, hlater⟩ := run_tracked calls n (List.pairwise_append.1 hclock).2.1
      (htrace.tracked hclock ht)
    refine ⟨later, ?_⟩
    rw [List.take_succ_cons, usesInRun, List.foldl_append, ← hused]
    exact hlater

theorem tracked_of_empty {s : KvEngine} (h : s.store = ∅) (later : List ℕ) :
    Tracked [] later s := by
  have hnone : ∀ k, stampOf s.store k = none := by
    intro k
    rw [h]
    rfl
  refine ⟨⟨.nil, fun k x hx => ?_⟩, fun k x hx => ?_⟩
  · rw [hnone] at hx
    cases hx
  · rw [hnone] at hx
    cases hx

theorem PartOf.length_le {s₀ s : KvEngine} (h : PartOf s₀ s) :
    s.store.entries.length ≤ s₀.store.entries.length := by
  have hsub : s.store.keys ⊆ s₀.store.keys := by
    intro k hk
    obtain ⟨e, he⟩ := Option.isSome_iff_exists.1 (AList.lookup_isSome.2 hk)
    exact AList.lookup_isSome.1 (Option.isSome_iff_exists.2 ⟨e, h.lookup k e he⟩)
  have hlen := (s.store.keys_nodup.subperm hsub).length_le
  simpa [AList.keys, List.keys] using hlen

/-- A victim chosen from a part of a tracked store, by a sample of the whole, is the right one. -/
theorem Tracked.rightVictim {env : Env} {s₀ s : KvEngine} {order : List Key} {later : List ℕ}
    {victim : Key} (ht : Tracked order later s₀)
    (hn : s₀.store.entries.length ≤ s₀.eviction.samples) (hpart : PartOf s₀ s)
    (hv : (s.selectVictim env).1 = some victim) : RightVictim order s victim where
  lru := by
    intro hp
    have hn' : s.store.entries.length ≤ s.eviction.samples :=
      hpart.eviction ▸ hpart.length_le.trans hn
    obtain ⟨e, he, hleast⟩ := selectVictim_oldest hn' hp hv
    have hsorted : Recency.Sorted (stampOf s.store) order := by
      refine ht.sorted.mono fun k x hx => ?_
      obtain ⟨e, he, rfl⟩ := Option.map_eq_some_iff.1 hx
      rw [stampOf, hpart.lookup k e he]
      rfl
    refine hsorted.head_filter (eligible_iff.2 (selectVictim_spec hv))
      (by rw [stampOf, he]; rfl) fun k hk => ?_
    obtain ⟨e', he', ha⟩ := eligible_iff.1 hk
    exact ⟨e'.lastAccessNs, by rw [stampOf, he']; rfl, hleast k e' he' ha⟩
  ttl := by
    intro hp
    have hn' : s.store.entries.length ≤ s.eviction.samples :=
      hpart.eviction ▸ hpart.length_le.trans hn
    exact selectVictim_earliest hn' hp hv

/-- In any history of commands on an empty store, with a clock that increases from use to use, each
command that begins with no more stored keys than the policy samples evicts, key by key, what the
recency list of all uses before it or the deadlines call for. -/
theorem victims_right (s : KvEngine) (hs : s.store = ∅) (calls : List Call)
    (hclock : (stampsInRun s calls).Pairwise (· < ·)) (n : ℕ) (c : Call) (hc : calls[n]? = some c)
    (hsamples : (run s (calls.take n)).store.entries.length
      ≤ (run s (calls.take n)).eviction.samples) :
    EvictsRightly (Recency.ofUses (usesInRun s (calls.take n))) c.env c.cmd
      (run s (calls.take n)) (run s (calls.take (n + 1))) := by
  obtain ⟨later, htracked⟩ := run_tracked calls n hclock (tracked_of_empty hs _)
  obtain ⟨effs, htrace, hused, -⟩ := exec_traced c.env (run s (calls.take n)) c.cmd
  have hstep : run s (calls.take (n + 1)) = (exec c.env (run s (calls.take n)) c.cmd).2 :=
    Runs.foldl_take_succ hc
  rw [hstep]
  refine ⟨effs, htrace, hused, htrace.evicted, ?_⟩
  rintro pre victim post rfl
  obtain ⟨t, t', ht, hd⟩ := Trace.split htrace
  have hst := hd.store
  generalize t'.store = store at hst
  cases hst with
  | evict _ _ hpart hv => exact ⟨t, ht, hpart, hv, htracked.rightVictim hsamples hpart hv⟩

/-- Room for two entries; `a` is read after `b` was written. -/
def readAgain : List Call :=
  [⟨.steady 0, .setEvictionConfig ⟨300, .allKeysLru, 5⟩⟩, ⟨.steady 1, .set [97] [49]⟩,
    ⟨.steady 2, .set [98] [49]⟩, ⟨.steady 3, .get [97]⟩, ⟨.steady 4, .set [99] [49]⟩]

theorem victims_right_readAgain :
    (run .new (readAgain.take 5)).store.entries.map (·.1) = [[99], [97]]
      ∧ EvictsRightly (Recency.ofUses (usesInRun .new (readAgain.take 4))) (.steady 4)
        (.set [99] [49]) (run .new (readAgain.take 4)) (run .new (readAgain.take 5)) :=
  ⟨by decide, victims_right .new rfl readAgain (by decide) 4
    ⟨.steady 4, .set [99] [49]⟩ rfl (by decide)⟩

/-- The keys that a run uses by commands other than `INCRBYFLOAT`. -/
def usesWithoutFloat : KvEngine → List Call → List Key
  | _, [] => []
  | s, ⟨env, .incrByFloat key delta⟩ :: calls =>
    usesWithoutFloat (Call.step s ⟨env, .incrByFloat key delta⟩) calls
  | s, c :: calls => (uses c.env s c.cmd).map (·.2) ++ usesWithoutFloat (c.step s) calls

/-- The text `1` is read as 1.0, and 1.0 added to it gives 2.0, written `2`. -/
def onePlusOne : FloatOps :=
  ⟨fun data => if data = [49] then some 0x3FF0000000000000 else none,
    fun _ _ => 0x4000000000000000, fun _ => true, fun _ => [50], fun _ => Nat.le_of_ble_eq_true rfl⟩

/-- Room for two entries; `a` is incremented after `b` was written. -/
def incrementedAgain : List Call :=
  [⟨.steady 0, .setEvictionConfig ⟨300, .allKeysLru, 5⟩⟩, ⟨.steady 1, .set [97] [49]⟩,
    ⟨.steady 2, .set [98] [49]⟩,
    ⟨{ Env.steady 3 with float := onePlusOne }, .incrByFloat [97] 0x3FF0000000000000⟩,
    ⟨.steady 4, .set [99] [49]⟩]

/-- An increment by a float writes a fresh entry with a fresh stamp, so that `b` is evicted, where
the recency list without it has `a` first. -/
theorem incrementedAgain_evicts_b :
    (stampsInRun .new incrementedAgain).Pairwise (· < ·)
      ∧ (run .new (incrementedAgain.take 4)).store.entries.length
        ≤ (run .new (incrementedAgain.take 4)).eviction.samples
      ∧ leastRecent (Recency.ofUses (usesWithoutFloat .new (incrementedAgain.take 4)))
        (run .new (incrementedAgain.take 4)) = some [97]
      ∧ ((run .new (incrementedAgain.take 4)).selectVictim (.steady 4)).1 = some [98]
      ∧ (run .new (incrementedAgain.take 5)).store.entries.map (·.1) = [[99], [97]] := by
  decide

end FerrumKv
