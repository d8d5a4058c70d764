import FerrumKv.Expiry
import FerrumKv.Lib.MapFilter
import FerrumKv.Proofs.Effects

/-!
# What consecutive sweeps cover

The entries in cyclic order from the cursor are those still to be examined and then those examined
and kept, as long as no sweep removes an entry from before the place where it leaves the cursor
(`sweepRing_sweep`). Then `⌈n / sample⌉` sweeps leave no expired entry (`sweeps_cover`). Without the
condition entries move forward past the cursor and are not examined.
-/

namespace FerrumKv

open KvEngine

section Sweep

variable {env : Env} {s : KvEngine} {sample : ℕ}

/-- The entries in cyclic order from the cursor. -/
def sweepRing (env : Env) (s : KvEngine) : List (Σ _ : Key, ValueEntry) :=
  Cyclic.order (sweepStart env s) (env.iter s.store)

theorem sweepWindow_eq (env : Env) (sample : ℕ) (s : KvEngine) :
    s.sweepWindow env sample = (sweepRing env s).take sample := rfl

theorem sweepVictims_fields : ∀ (victims : List Key) (s : KvEngine),
    (victims.foldl sweepVictim s).store = victims.foldl (fun st k => st.erase k) s.store
      ∧ (victims.foldl sweepVictim s).sweepCursor = s.sweepCursor
  | [], _ => ⟨rfl, rfl⟩
  | key :: victims, s => sweepVictims_fields victims (s.sweepVictim key)

theorem sweepStart_le (env : Env) (s : KvEngine) :
    sweepStart env s ≤ (env.iter s.store).length := by
  unfold sweepStart
  split_ifs with h
  · exact Nat.zero_le _
  · exact (Nat.mod_lt _ (Nat.pos_of_ne_zero h)).le

theorem length_sweepWindow (env : Env) (sample : ℕ) (s : KvEngine) :
    (s.sweepWindow env sample).length = min sample (env.iter s.store).length := by
  rw [sweepWindow_eq, List.length_take, sweepRing, Cyclic.length_order]

theorem sweepExpired_fields (hs : 1 ≤ sample) :
    (s.sweepExpired env sample).2.store
        = (expirations env s (.sweepExpired sample)).foldl (fun st k => st.erase k) s.store
      ∧ (s.sweepExpired env sample).2.sweepCursor
        = if 0 < (env.iter s.store).length then sweepStop env sample s else s.sweepCursor := by
  unfold sweepExpired
  rw [if_neg (by omega)]
  simp only []
  have hstop : ((if (env.iter s.store).length = 0 then 0
      else s.sweepCursor % (env.iter s.store).length) + (s.sweepWindow env sample).length)
        % (env.iter s.store).length = sweepStop env sample s := by
    rw [length_sweepWindow]
    rfl
  rw [hstop]
  by_cases hlen : 0 < (env.iter s.store).length
  · rw [if_pos hlen, if_pos hlen]
    exact sweepVictims_fields _ _
  · rw [if_neg hlen, if_neg hlen]
    exact sweepVictims_fields _ _

def sweepKeeps (env : Env) (sample : ℕ) (s : KvEngine) (x : Σ _ : Key, ValueEntry) : Bool :=
  !(expirations env s (.sweepExpired sample)).contains x.1

theorem OrderKept.sweep (h : OrderKept env s.store) (hs : 1 ≤ sample) :
    OrderKept env (s.sweepExpired env sample).2.store
      ∧ env.iter (s.sweepExpired env sample).2.store
        = (env.iter s.store).filter (sweepKeeps env sample s) := by
  unfold sweepKeeps
  rw [(sweepExpired_fields hs).1]
  generalize expirations env s (.sweepExpired sample) = victims
  refine ⟨fun keys => ?_, h victims⟩
  rw [← List.foldl_append, h, h, List.filter_filter]
  refine List.filter_congr fun e _ => ?_
  simp [Bool.and_comm]

theorem sweepRing_nodup (env : Env) (s : KvEngine) : (sweepRing env s).Nodup := by
  have hperm := ((Cyclic.order_perm (sweepStart env s) (env.iter s.store)).trans
    (env.iter_perm s.store)).map Sigma.fst
  exact .of_map Sigma.fst (hperm.nodup_iff.2 s.store.nodupKeys)

theorem lookup_of_mem_sweepRing {x : Σ _ : Key, ValueEntry} (hx : x ∈ sweepRing env s) :
    s.store.lookup x.1 = some x.2 :=
  AList.mem_lookup_iff.2 ((env.iter_perm s.store).mem_iff.1 (Cyclic.mem_order.1 hx))

/-- A sweep keeps what has not expired and what is outside its window. -/
theorem sweepKeeps_iff {x : Σ _ : Key, ValueEntry} (hx : x ∈ sweepRing env s) :
    sweepKeeps env sample s x = true
      ↔ ¬ (x ∈ s.sweepWindow env sample ∧ x.2.isExpired env.now = true) := by
  rw [sweepKeeps, Bool.not_eq_true', ← Bool.not_eq_true, List.contains_iff_mem, not_iff_not]
  constructor
  · intro h
    obtain ⟨⟨k, e⟩, hy, hyx⟩ := List.mem_map.1 h
    obtain ⟨hmem, hex⟩ := List.mem_filter.1 hy
    obtain ⟨k', e'⟩ := x
    obtain rfl : k = k' := hyx
    have he := lookup_of_mem_sweepRing (List.mem_of_mem_take hmem)
    rw [lookup_of_mem_sweepRing hx] at he
    obtain rfl : e' = e := Option.some.inj he
    exact ⟨hmem, hex⟩
  · rintro ⟨hmem, hex⟩
    exact List.mem_map_of_mem (List.mem_filter.2 ⟨hmem, hex⟩)

theorem sweepRing_after (hord : OrderKept env s.store) (hs : 1 ≤ sample) :
    sweepRing env (s.sweepExpired env sample).2
      = Cyclic.order
        (sweepStop env sample s % ((env.iter s.store).filter (sweepKeeps env sample s)).length)
        ((env.iter s.store).filter (sweepKeeps env sample s)) := by
  unfold sweepRing sweepStart
  rw [(hord.sweep hs).2, (sweepExpired_fields hs).2]
  by_cases hnil : (env.iter s.store).filter (sweepKeeps env sample s) = []
  · simp [hnil, Cyclic.order]
  · have hpos : 0 < (env.iter s.store).length := by
      rw [List.length_pos_iff]
      rintro h
      rw [h] at hnil
      exact hnil rfl
    rw [if_pos hpos, if_neg (by rwa [List.length_eq_zero_iff])]

/-- After a sweep that removes nothing from before its cursor, the ring goes on with the entries it
did not examine, and ends with those it examined and kept. -/
theorem sweepRing_sweep (hord : OrderKept env s.store) (hs : 1 ≤ sample)
    (hb : NothingBehind env sample s) :
    sweepRing env (s.sweepExpired env sample).2
      = (sweepRing env s).drop sample
        ++ ((sweepRing env s).take sample).filter fun e => !e.2.isExpired env.now := by
  have hrest : ∀ x ∈ (sweepRing env s).drop sample, sweepKeeps env sample s x = true := by
    intro x hx
    refine (sweepKeeps_iff (List.mem_of_mem_drop hx)).2 fun h => ?_
    exact List.disjoint_take_drop (sweepRing_nodup env s) le_rfl h.1 hx
  have hfront : ∀ x ∈ (env.iter s.store).take (sweepStop env sample s),
      sweepKeeps env sample s x = true := by
    intro x hx
    refine (sweepKeeps_iff (Cyclic.mem_order.2 (List.mem_of_mem_take hx))).2 fun h => ?_
    rw [hb x hx h.1] at h
    exact Bool.false_ne_true h.2
  have hkept : ((sweepRing env s).take sample).filter (sweepKeeps env sample s)
      = ((sweepRing env s).take sample).filter fun e => !e.2.isExpired env.now := by
    refine List.filter_congr fun x hx => ?_
    have hx' : x ∈ s.sweepWindow env sample := hx
    rw [Bool.eq_iff_iff, sweepKeeps_iff (List.mem_of_mem_take hx)]
    simp [hx']
  rw [sweepRing_after hord hs, ← hkept]
  exact Cyclic.order_round (sweepStart_le env s) hrest hfront

/-! ## Runs of sweeps -/

/-- The ring is what is still to be examined and then entries that have not expired. -/
structure Unexamined (env : Env) (s : KvEngine) (rest : List (Σ _ : Key, ValueEntry)) : Prop where
  ring : ∃ done, sweepRing env s = rest ++ done ∧ ∀ x ∈ done, x.2.isExpired env.now = false
  order : OrderKept env s.store

theorem Unexamined.sweep {rest : List (Σ _ : Key, ValueEntry)} (h : Unexamined env s rest)
    (hs : 1 ≤ sample) (hlen : sample ≤ rest.length) (hb : NothingBehind env sample s) :
    Unexamined env (s.sweepExpired env sample).2 (rest.drop sample) := by
  obtain ⟨⟨done, hring, hdone⟩, hord⟩ := h
  refine ⟨⟨done ++ (rest.take sample).filter fun e => !e.2.isExpired env.now, ?_, ?_⟩,
    (hord.sweep hs).1⟩
  · rw [sweepRing_sweep hord hs hb, hring, List.drop_append_of_le_length hlen,
      List.take_append_of_le_length hlen, List.append_assoc]
  · intro x hx
    rcases List.mem_append.1 hx with hx | hx
    · exact hdone x hx
    · simpa using (List.mem_filter.1 hx).2

theorem Unexamined.last {rest : List (Σ _ : Key, ValueEntry)} (h : Unexamined env s rest)
    (hs : 1 ≤ sample) (hlen : rest.length ≤ sample) (k : Key) :
    expiredAt env.now (s.sweepExpired env sample).2 k = false := by
  obtain ⟨⟨done, hring, hdone⟩, hord⟩ := h
  obtain hl | ⟨e, hl⟩ :=
    Option.eq_none_or_eq_some ((s.sweepExpired env sample).2.store.lookup k)
  · exact expiredAt_of_absent hl _
  rw [expiredAt_of_lookup hl]
  have hmem : (⟨k, e⟩ : Σ _ : Key, ValueEntry) ∈ env.iter (s.sweepExpired env sample).2.store :=
    (env.iter_perm _).mem_iff.2 (AList.mem_lookup_iff.1 hl)
  rw [(hord.sweep hs).2] at hmem
  obtain ⟨hiter, hkeep⟩ := List.mem_filter.1 hmem
  have hx : (⟨k, e⟩ : Σ _ : Key, ValueEntry) ∈ sweepRing env s := Cyclic.mem_order.2 hiter
  rw [sweepKeeps_iff hx] at hkeep
  by_contra hex
  rw [Bool.not_eq_false] at hex
  refine hkeep ⟨?_, hex⟩
  rw [hring] at hx
  rcases List.mem_append.1 hx with hx | hx
  · rw [sweepWindow_eq, hring, List.take_append]
    exact List.mem_append_left _ (by rwa [List.take_of_length_le hlen])
  · have := hdone _ hx
    rw [hex] at this
    cases this

theorem run_sweeps_succ (env : Env) (sample j : ℕ) (s : KvEngine) :
    run s (sweeps env sample (j + 1))
      = ((run s (sweeps env sample j)).sweepExpired env sample).2 := by
  rw [sweeps, List.replicate_succ', run, List.foldl_append]
  rfl

theorem lt_of_succ_lt_ceil {n j : ℕ} (hs : 1 ≤ sample) (h : j + 1 < (n + sample - 1) / sample) :
    (j + 1) * sample < n := by
  have hle := Nat.div_mul_le_self (n + sample - 1) sample
  have hmul : (j + 2) * sample ≤ (n + sample - 1) / sample * sample := Nat.mul_le_mul_right _ h
  have hsplit : (j + 2) * sample = (j + 1) * sample + sample := by ring
  omega

theorem le_ceil_mul {n : ℕ} (hs : 1 ≤ sample) : n ≤ (n + sample - 1) / sample * sample := by
  have h := Nat.lt_div_mul_add (a := n + sample - 1) hs
  omega

theorem length_sweepRing (env : Env) (s : KvEngine) :
    (sweepRing env s).length = s.store.entries.length := by
  rw [sweepRing, Cyclic.length_order, (env.iter_perm s.store).length_eq]

theorem sweeps_unexamined (hs : 1 ≤ sample) (hord : OrderKept env s.store)
    (hb : ∀ j, j + 1 < (s.store.entries.length + sample - 1) / sample →
      NothingBehind env sample (run s (sweeps env sample j))) :
    ∀ j, j < (s.store.entries.length + sample - 1) / sample →
      Unexamined env (run s (sweeps env sample j)) ((sweepRing env s).drop (j * sample))
  | 0, _ => by
    refine ⟨⟨[], ?_, fun x hx => by cases hx⟩, hord⟩
    rw [Nat.zero_mul, List.drop_zero, List.append_nil]
    rfl
  | j + 1, hj => by
    have hlt := lt_of_succ_lt_ceil hs hj
    have hsplit : (j + 1) * sample = j * sample + sample := Nat.succ_mul j sample
    have hp := sweeps_unexamined hs hord hb j (by omega)
    rw [run_sweeps_succ, hsplit, ← List.drop_drop]
    refine hp.sweep hs ?_ (hb j hj)
    rw [List.length_drop, length_sweepRing]
    omega

/-- Where removed keys leave the order of the others, `⌈n / sample⌉` sweeps of a store of `n` keys
leave no expired key, from any cursor, if no sweep but the last removes a key from before the place
where it leaves the cursor. -/
theorem sweeps_cover (env : Env) (s : KvEngine) (sample : ℕ) (hs : 1 ≤ sample)
    (hord : OrderKept env s.store)
    (hb : ∀ j, j + 1 < (s.store.entries.length + sample - 1) / sample →
      NothingBehind env sample (run s (sweeps env sample j))) (k : Key) :
    expiredAt env.now
      (run s (sweeps env sample ((s.store.entries.length + sample - 1) / sample))) k = false := by
  rcases hm : (s.store.entries.length + sample - 1) / sample with _ | m
  · have hempty : s.store.entries.length = 0 := by
      have := @le_ceil_mul sample s.store.entries.length hs
      rw [hm] at this
      omega
    have hnil : s.store.entries = [] := List.length_eq_zero_iff.1 hempty
    have hl : s.store.lookup k = none := by
      rw [AList.lookup, hnil]
      rfl
    exact expiredAt_of_absent hl env.now
  · have hp := sweeps_unexamined hs hord hb m (by omega)
    have hle := @le_ceil_mul sample s.store.entries.length hs
    rw [hm, Nat.succ_mul] at hle
    rw [run_sweeps_succ]
    refine hp.last hs ?_ k
    rw [List.length_drop, length_sweepRing]
    omega

/-! ## Two runs -/

instance (env : Env) (sample : ℕ) (s : KvEngine) : Decidable (NothingBehind env sample s) :=
  inferInstanceAs (Decidable (∀ e ∈ _, e ∈ _ → _ = false))

theorem orderKept_steady (t : ℕ) (store : Store) : OrderKept (.steady t) store :=
  fun keys => (AList.entries_eraseAll keys store).trans (List.filter_congr fun e _ => by simp)

/-- Four keys in iteration order `0`, `1`, `2`, `3`; at `5` the third expires. -/
def oneDeadline : List Call :=
  [⟨.steady 0, .set [3] []⟩, ⟨.steady 0, .set [2] []⟩, ⟨.steady 0, .expireAtMs [2] 5⟩,
    ⟨.steady 0, .set [1] []⟩, ⟨.steady 0, .set [0] []⟩]

theorem sweeps_cover_oneDeadline :
    expiredAt 10 (run .new oneDeadline) [2] = true
      ∧ expiredAt 10 (run (run .new oneDeadline) (sweeps (.steady 10) 2 2)) [2] = false :=
  ⟨by decide,
    sweeps_cover (.steady 10) (run .new oneDeadline) 2 (by decide) (orderKept_steady 10 _)
      (by
        intro j hj
        obtain rfl : j = 0 := by
          have hlen : (run .new oneDeadline).store.entries.length = 4 := by decide
          rw [hlen] at hj
          omega
        decide)
      [2]⟩

def twoDeadlines : List Call := oneDeadline ++ [⟨.steady 0, .expireAtMs [0] 5⟩]

/-- The first sweep examines `0` and `1` and removes `0`, so that `2` moves forward to where the
cursor was; the second examines `3` and `1`. -/
theorem twoDeadlines_missed :
    OrderKept (.steady 10) (run .new twoDeadlines).store
      ∧ (run .new twoDeadlines).store.entries.map (·.1) = [[0], [1], [2], [3]]
      ∧ (run .new twoDeadlines).sweepCursor = 0
      ∧ expiredAt 10 (run (run .new twoDeadlines) (sweeps (.steady 10) 2 2)) [2] = true :=
  ⟨orderKept_steady 10 _, by decide⟩

end Sweep

end FerrumKv
