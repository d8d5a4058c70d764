import FerrumKv.Proofs.Compaction

/-!
# A compact log and what is appended around it

A compact log replays to what was live when it was written, with one `SET` for each key. Records that
were applied before the snapshot was taken may be replayed on it again: the compact log of any state
on the way, with all the records behind it, replays to the last state (`compaction_overlap`).
-/

namespace FerrumKv

open KvEngine

structure TimedRecord where
  t : ℕ
  env : Env
  record : AofRecord
  clock : env.At t

def TimedRecord.steady (t : ℕ) (h : t < 2 ^ 63) (record : AofRecord) : TimedRecord :=
  ⟨t, Env.steady t, record, Env.steady_at h⟩

def TimedRecord.soon (t : UInt8) (record : AofRecord) : TimedRecord :=
  .steady t.toNat (toNat_lt_epoch t) record

def applyTimed (s : KvEngine) (rs : List TimedRecord) : KvEngine :=
  rs.foldl (fun s r => (applyRecord r.env s r.record.parts).2) s

def AofRecord.sets (k : Key) : AofRecord → Bool
  | .set key _ => decide (key = k)
  | _ => false

def AofRecord.After (T : ℕ) : AofRecord → Prop
  | .pexpireat _ absEpochMs => (T : ℤ) < absEpochMs.toInt
  | _ => True

def DeadlinesAfter (T : ℕ) (store : Store) : Prop :=
  ∀ k e d, store.lookup k = some e → e.expireAt = some d → T < d

section Sets

variable {env : Env} {t : ℕ} {k : Key}

theorem countP_compactEntry (entry : Key × Bytes × Option Int64) :
    (compactEntry entry).countP (AofRecord.sets k) = if entry.1 = k then 1 else 0 := by
  obtain ⟨key, value, _ | absMs⟩ := entry <;> by_cases hk : key = k <;>
    simp [compactEntry, AofRecord.sets, hk]

theorem capture_eq (h : env.At t) (a : Key) (e : ValueEntry) :
    capture env ⟨a, e⟩ = if e.isExpired t then none
      else some (a, e.data, e.expireAt.bind fun d => deadlineToEpochMs d env.now env.epochMs) := by
  simp [capture, h.now]

theorem countP_capture (h : env.At t) : ∀ l : List (Σ _ : Key, ValueEntry), l.NodupKeys →
    (compactRecords (l.filterMap (capture env))).countP (AofRecord.sets k)
      = if ((l.dlookup k).bind (·.shown t)).isSome then 1 else 0
  | [], _ => rfl
  | ⟨a, e⟩ :: l, hnd => by
    have ih := countP_capture h l (List.nodupKeys_of_nodupKeys_cons hnd)
    have hcap := capture_eq h a e
    by_cases hk : k = a
    · subst hk
      have hnone : l.dlookup k = none :=
        List.dlookup_eq_none.2 (List.notMem_keys_of_nodupKeys_cons hnd)
      rw [hnone] at ih
      rw [List.dlookup_cons_eq, Option.bind_some]
      rcases hx : e.isExpired t <;> rw [hx] at hcap
      · rw [List.filterMap_cons_some hcap, compactRecords, List.flatMap_cons, List.countP_append,
          countP_compactEntry, if_pos rfl, shown_of_not_expired hx]
        exact congrArg (1 + ·) ih
      · rw [List.filterMap_cons_none hcap, shown_of_expired hx]
        exact ih
    · rw [List.dlookup_cons_ne l ⟨a, e⟩ hk, ← ih]
      rcases hx : e.isExpired t <;> rw [hx] at hcap
      · rw [List.filterMap_cons_some hcap, compactRecords, List.flatMap_cons, List.countP_append,
          countP_compactEntry, if_neg (Ne.symm hk), Nat.zero_add]
        rfl
      · rw [List.filterMap_cons_none hcap]

theorem countP_takeSnapshot (h : env.At t) (store : Store) (k : Key) :
    (compactRecords (takeSnapshot env store)).countP (AofRecord.sets k)
      = if (live t store k).isSome then 1 else 0 := by
  have hperm := env.iter_perm store
  have hnd : (env.iter store).NodupKeys := (List.perm_nodupKeys hperm).2 store.nodupKeys
  refine (countP_capture h _ hnd).trans ?_
  rw [List.perm_dlookup k hnd hperm]
  rfl

end Sets

section Records

variable {env : Env} {t T : ℕ} {s : KvEngine} {r : AofRecord}

theorem applyRecord_exec (env : Env) (h0 : s.eviction.maxMemory = 0) (hr : r.Valid) :
    ∃ cmd, (applyRecord env s r.parts).2 = (exec env s cmd).2 := by
  cases r with
  | set key value =>
    refine ⟨.set key value, ?_⟩
    rw [applyRecord_set h0 hr]
    simp only [exec, answer, set_of_zero h0 hr]
  | del key => exact ⟨.del key, by rw [applyRecord_del]; rfl⟩
  | flushdb => exact ⟨.flushdb, by rw [applyRecord_flushdb]; rfl⟩
  | pexpireat key absMs => exact ⟨.expireAtMs key absMs, by rw [applyRecord_pexpireat]; rfl⟩
  | persist key => exact ⟨.persist key, by rw [applyRecord_persist]; rfl⟩

theorem applyRecord_wellFormed (h : env.At t) (h0 : s.eviction.maxMemory = 0) (hr : r.Valid)
    (hw : WellFormed s.store) : WellFormed (applyRecord env s r.parts).2.store := by
  obtain ⟨cmd, hcmd⟩ := applyRecord_exec env h0 hr
  rw [hcmd]
  exact (exec_logged h le_rfl s (stepSafe_self t s.store cmd) hw).1

theorem DeadlinesAfter.live {store : Store} (hd : DeadlinesAfter T store) (ht : t ≤ T) (k : Key) :
    live T store k = live t store k := by
  rcases he : store.lookup k with _ | e
  · rw [live_of_lookup_none he, live_of_lookup_none he]
  · rw [live_of_lookup he, live_of_lookup he]
    rcases hx : e.expireAt with _ | d
    · rw [shown_of_no_deadline T hx, shown_of_no_deadline t hx]
    · have := hd k e d he hx
      rw [shown_of_deadline T hx, shown_of_deadline t hx, if_neg (by omega), if_neg (by omega)]

theorem actAt_of_after (hr : r.After T) (ht : t ≤ T) (k : Key) (p : Shown) :
    r.actAt t k p = r.actAt T k p := by
  cases r with
  | pexpireat key absMs =>
    have hT : ¬absMs.toInt ≤ T := by simpa [AofRecord.After] using hr
    have ht' : ¬absMs.toInt ≤ t := by omega
    simp only [AofRecord.actAt, if_neg hT, if_neg ht']
  | _ => rfl

theorem DeadlinesAfter.of_live {store : Store} (hf : Fresh t store)
    (h : ∀ k v d, FerrumKv.live t store k = some (v, some d) → T < d) : DeadlinesAfter T store := by
  intro k e d he hd
  refine h k e.data d ?_
  rw [live_of_lookup he, shown_of_not_expired (hf k e he), hd]

theorem DeadlinesAfter.fresh {store : Store} (hd : DeadlinesAfter T store) (ht : t ≤ T) :
    Fresh t store := by
  intro k e he
  rcases hx : e.expireAt with _ | d
  · simp [ValueEntry.isExpired, hx]
  · have := hd k e d he hx
    simp only [ValueEntry.isExpired, hx, decide_eq_false_iff_not]
    omega

theorem actAt_after (hr : r.After T) {k : Key} {p : Shown}
    (hp : ∀ v d, p = some (v, some d) → T < d) :
    ∀ v d, r.actAt T k p = some (v, some d) → T < d := by
  intro v d h
  cases r with
  | set key value =>
    simp only [AofRecord.actAt] at h
    split_ifs at h
    · simp at h
    · exact hp v d h
  | del key =>
    simp only [AofRecord.actAt] at h
    split_ifs at h
    exact hp v d h
  | flushdb => cases h
  | pexpireat key absMs =>
    simp only [AofRecord.actAt] at h
    have hafter : (T : ℤ) < absMs.toInt := hr
    simp only [if_neg (not_le.2 hafter)] at h
    split_ifs at h
    · obtain ⟨q, -, hq⟩ := Option.bind_eq_some_iff.1 h
      cases hq
      omega
    · exact hp v d h
  | persist key =>
    simp only [AofRecord.actAt] at h
    split_ifs at h
    · obtain ⟨q, -, hq⟩ := Option.map_eq_some_iff.1 h
      cases hq
    · exact hp v d h

/-- A state without a ceiling, within the limits, and with all its deadlines after `T`. -/
structure Plain (T : ℕ) (s : KvEngine) : Prop where
  unlimited : s.eviction.maxMemory = 0
  wellFormed : WellFormed s.store
  deadlines : DeadlinesAfter T s.store

/-- What a record does at a clock before every deadline. -/
theorem Plain.apply (hs : Plain T s) (h : env.At t) (ht : t ≤ T) (hr : r.Valid) (hafter : r.After T) :
    Plain T (applyRecord env s r.parts).2
      ∧ ∀ k, FerrumKv.live T (applyRecord env s r.parts).2.store k
        = r.actAt T k (FerrumKv.live T s.store k) := by
  have hlive : ∀ k, FerrumKv.live t (applyRecord env s r.parts).2.store k
      = r.actAt T k (FerrumKv.live T s.store k) := by
    intro k
    rw [live_applyRecord h hs.unlimited hr, actAt_of_after hafter ht, hs.deadlines.live ht]
  have hdeadlines : DeadlinesAfter T (applyRecord env s r.parts).2.store := by
    refine .of_live (fresh_applyRecord h hs.unlimited hr (hs.deadlines.fresh ht)) fun k v d hl => ?_
    rw [hlive k] at hl
    refine actAt_after hafter (fun v d hl => ?_) v d hl
    obtain ⟨e, he, -, -, hd⟩ := lookup_of_live hl
    exact hs.deadlines k e d he hd
  refine ⟨⟨?_, applyRecord_wellFormed h hs.unlimited hr hs.wellFormed, hdeadlines⟩, fun k => ?_⟩
  · rw [(applyRecord_ok env hs.unlimited hr).2]
    exact hs.unlimited
  · rw [hdeadlines.live ht, hlive]

end Records

/-- The record is within the limits, and is applied before its deadline and before `T`. -/
def TimedRecord.Early (T : ℕ) (r : TimedRecord) : Prop :=
  r.t ≤ T ∧ r.record.Valid ∧ r.record.After T

section Overlap

variable {T : ℕ}

theorem Plain.applyTimed : ∀ (rs : List TimedRecord) {s : KvEngine}, Plain T s →
    (∀ r ∈ rs, r.Early T) → Plain T (applyTimed s rs)
      ∧ ∀ k, live T (applyTimed s rs).store k
        = actAll T (rs.map (·.record)) (live T s.store) k
  | [], _, hs, _ => ⟨hs, fun _ => rfl⟩
  | r :: rs, s, hs, hrs => by
    rw [List.forall_mem_cons] at hrs
    obtain ⟨ht, hv, hafter⟩ := hrs.1
    obtain ⟨hs', hlive⟩ := hs.apply r.clock ht hv hafter
    obtain ⟨hend, hlive'⟩ := Plain.applyTimed rs hs' hrs.2
    refine ⟨hend, fun k => (hlive' k).trans ?_⟩
    simp only [actAll, List.map_cons, List.foldl_cons]
    rw [hlive]

/-- What the store shows when nothing in it has expired. -/
def shownBy (store : Store) (k : Key) : Shown := (store.lookup k).map fun e => (e.data, e.expireAt)

/-- (a) The compact log of a store replays to what is live, and has one `SET` for each live key. (b) The
compact log of a state on the way from `s` through the records `rs`, with all these records behind it,
replays to what the last state shows. -/
theorem compaction_overlap {envT : Env} (hT : envT.At T) :
    (∀ (t : ℕ) (env : Env) (store : Store), env.At t → t ≤ T → WellFormed store →
      (∃ r, replay envT (serialiseCompactAof (takeSnapshot env store)) KvEngine.new = .ok r
          ∧ ∀ k, shownBy r.engine.store k = live T store k)
        ∧ ∀ k, (compactRecords (takeSnapshot env store)).countP (AofRecord.sets k)
          = if (live t store k).isSome then 1 else 0)
    ∧ ∀ (t : ℕ) (env : Env) (s : KvEngine) (rs : List TimedRecord) (i : ℕ), env.At t → t ≤ T →
      Plain T s → (∀ r ∈ rs, r.Early T) →
      ∃ r, replay envT (serialiseCompactAof (takeSnapshot env (applyTimed s (rs.take i)).store)
            ++ encodeLog (rs.map (·.record))) KvEngine.new = .ok r
        ∧ ∀ k, shownBy r.engine.store k = live T (applyTimed s rs).store k := by
  constructor
  · intro t env store henv ht hw
    refine ⟨?_, countP_takeSnapshot henv store⟩
    obtain ⟨r, hr, hk⟩ := replay_valid hT (compactRecords_valid hw)
    exact ⟨r, hr, fun k => (hk k).trans (actAll_takeSnapshot henv ht hw k)⟩
  · intro t env s rs i henv ht hs hrs
    have hrs' : ∀ r ∈ rs.take i, r.Early T := fun r hr => hrs r (List.mem_of_mem_take hr)
    obtain ⟨hmid, hlive⟩ := hs.applyTimed (rs.take i) hrs'
    have hv : ∀ r ∈ compactRecords (takeSnapshot env (applyTimed s (rs.take i)).store)
        ++ rs.map (·.record), r.Valid := by
      intro r hr
      rcases List.mem_append.1 hr with hr | hr
      · exact compactRecords_valid hmid.wellFormed r hr
      · obtain ⟨r', hr', rfl⟩ := List.mem_map.1 hr
        exact (hrs r' hr').2.1
    obtain ⟨r, hr, hk⟩ := replay_valid hT hv
    refine ⟨r, ?_, fun k => (hk k).trans ?_⟩
    · rw [← hr]
      exact congrArg (replay envT · KvEngine.new) List.flatMap_append.symm
    · have habsorb := actAll_absorb T ((rs.take i).map (·.record)) ((rs.drop i).map (·.record))
        (live T s.store) k
      rw [← List.map_append, List.take_append_drop] at habsorb
      rw [actAll_append, (hs.applyTimed rs hrs).2 k, ← habsorb]
      refine actAll_congr _ ?_
      rw [actAll_takeSnapshot henv ht hmid.wellFormed k, hlive k]

/-- `SET`, a deadline and `DEL`, a new `SET` with a later deadline, and `PERSIST` of another key. -/
def overlapping : List TimedRecord :=
  [.soon 0 (.set [107] [49]), .soon 1 (.pexpireat [107] 100),
    .soon 1 (.set [108] [50]), .soon 2 (.del [107]),
    .soon 4 (.set [107] [51]), .soon 5 (.pexpireat [107] 200),
    .soon 6 (.persist [108])]

theorem plain_new (T : ℕ) : Plain T KvEngine.new :=
  ⟨rfl, fun _ _ he => (nomatch he), fun _ _ _ he => (nomatch he)⟩

theorem compaction_overlap_overlapping :
    (∃ r, replay (Env.steady 9) (serialiseCompactAof (takeSnapshot (Env.steady 3)
          (applyTimed KvEngine.new (overlapping.take 3)).store)) KvEngine.new = .ok r
        ∧ ∀ k, shownBy r.engine.store k
          = live 9 (applyTimed KvEngine.new (overlapping.take 3)).store k)
      ∧ ∃ r, replay (Env.steady 9) (serialiseCompactAof (takeSnapshot (Env.steady 3)
            (applyTimed KvEngine.new (overlapping.take 3)).store)
          ++ encodeLog (overlapping.map (·.record))) KvEngine.new = .ok r
        ∧ ∀ k, shownBy r.engine.store k = live 9 (applyTimed KvEngine.new overlapping).store k := by
  have hT : (Env.steady 9).At 9 := Env.steady_at (by decide)
  have henv : (Env.steady 3).At 3 := Env.steady_at (by decide)
  have hearly : ∀ r ∈ overlapping, r.Early 9 := by
    simp only [overlapping, List.forall_mem_cons, List.not_mem_nil, false_imp_iff, implies_true,
      and_true]
    have h₁ : ((9 : ℕ) : ℤ) < (100 : Int64).toInt := by decide
    have h₂ : ((9 : ℕ) : ℤ) < (200 : Int64).toInt := by decide
    refine ⟨⟨?_, rfl, trivial⟩, ⟨?_, rfl, h₁⟩, ⟨?_, rfl, trivial⟩, ⟨?_, rfl, trivial⟩,
      ⟨?_, rfl, trivial⟩, ⟨?_, rfl, h₂⟩, ⟨?_, rfl, trivial⟩⟩ <;> decide
  have hmid := (plain_new 9).applyTimed (overlapping.take 3) fun r hr =>
    hearly r (List.mem_of_mem_take hr)
  exact ⟨((compaction_overlap hT).1 3 _ _ henv (by decide) hmid.1.wellFormed).1,
    (compaction_overlap hT).2 3 _ KvEngine.new overlapping 3 henv (by decide) (plain_new 9) hearly⟩

end Overlap

end FerrumKv
