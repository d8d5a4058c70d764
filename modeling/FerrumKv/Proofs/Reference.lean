import FerrumKv.Lib.Runs
import FerrumKv.Proofs.Logged
import FerrumKv.Reference

/-!
# Lazy expiry is invisible

The store may hold entries that have expired, in any number; every command meets them on its own
path. Without a memory ceiling and with one clock reading per command, every reply and both
counters are those of the reference map, which drops an entry when its deadline is reached
(`exec_matches_reference`). The simulation `Sim` compares what the store shows at the clock of the
command with the lookups of the reference.
-/

namespace FerrumKv

open KvEngine

/-! ## The simulation -/

/-- The store shows at `t` what the reference map holds. -/
def Shows (t : ℕ) (store : Store) (r : Ref) : Prop := ∀ k, live t store k = r.map.lookup k

structure Sim (t : ℕ) (s : KvEngine) (r : Ref) : Prop where
  ceiling : s.eviction.maxMemory = 0
  hits : s.hits = r.hits
  misses : s.misses = r.misses
  shows : Shows t s.store r

theorem Ref.lookup_write (r : Ref) (key v : Bytes) (d : Option ℕ) (k : Key) :
    (r.write key v d).map.lookup k = if k = key then some (v, d) else r.map.lookup k := by
  unfold Ref.write
  split_ifs with hk
  · subst hk
    exact AList.lookup_insert r.map
  · exact AList.lookup_insert_ne hk

theorem Ref.lookup_remove (r : Ref) (key k : Key) :
    (r.remove key).map.lookup k = if k = key then none else r.map.lookup k := by
  unfold Ref.remove
  split_ifs with hk
  · subst hk
    exact AList.lookup_erase k r.map
  · exact AList.lookup_erase_ne hk

section Shows

variable {t : ℕ} {store : Store} {r : Ref} {key : Key} {e : ValueEntry}

theorem Shows.of_absent (h : Shows t store r) (hl : store.lookup key = none) :
    r.map.lookup key = none :=
  (h key).symm.trans (live_of_lookup_none hl)

theorem Shows.of_expired (h : Shows t store r) (hl : store.lookup key = some e)
    (hx : e.isExpired t = true) : r.map.lookup key = none :=
  (h key).symm.trans ((live_of_lookup hl).trans (shown_of_expired hx))

theorem Shows.of_live (h : Shows t store r) (hl : store.lookup key = some e)
    (hx : e.isExpired t = false) : r.map.lookup key = some (e.data, e.expireAt) :=
  (h key).symm.trans ((live_of_lookup hl).trans (shown_of_not_expired hx))

/-- An entry is missing, expired or shown. -/
theorem Shows.cases (h : Shows t store r) (key : Key) :
    store.lookup key = none ∧ r.map.lookup key = none
      ∨ (∃ e, store.lookup key = some e ∧ e.isExpired t = true ∧ r.map.lookup key = none)
      ∨ ∃ e, store.lookup key = some e ∧ e.isExpired t = false
        ∧ r.map.lookup key = some (e.data, e.expireAt) := by
  cases hl : store.lookup key with
  | none => exact .inl ⟨rfl, h.of_absent hl⟩
  | some e =>
    cases hx : e.isExpired t with
    | true => exact .inr (.inl ⟨e, rfl, hx, h.of_expired hl hx⟩)
    | false => exact .inr (.inr ⟨e, rfl, hx, h.of_live hl hx⟩)

theorem Shows.insert (h : Shows t store r) {v : Bytes} {d : Option ℕ}
    (he : e.shown t = some (v, d)) : Shows t (store.insert key e) (r.write key v d) := by
  intro k
  rw [live_insert, Ref.lookup_write, he, h k]

theorem Shows.erase (h : Shows t store r) (key : Key) :
    Shows t (store.erase key) (r.remove key) := by
  intro k
  rw [live_erase, Ref.lookup_remove, h k]

/-- Removing a key that shows nothing changes nothing that is shown. -/
theorem Shows.erase_absent (h : Shows t store r) (hr : r.map.lookup key = none) :
    Shows t (store.erase key) r := by
  intro k
  rw [live_erase_of_none ((h key).trans hr), h k]

theorem Shows.edit (h : Shows t store r) {e' : ValueEntry} (hl : store.lookup key = some e)
    (he : e'.shown t = e.shown t) : Shows t (store.insert key e') r := by
  intro k
  rw [live_insert]
  by_cases hk : k = key
  · subst hk
    rw [if_pos rfl, he, ← h k, live_of_lookup hl]
  · rw [if_neg hk, h k]

end Shows

theorem ahead_eq (now : ℕ) (v : Bytes) (d : Option ℕ) :
    clip now (some (v, d)) = if Ref.ahead now d then some (v, d) else none := by
  cases d with
  | none => rfl
  | some d =>
    simp only [clip, Ref.ahead, decide_eq_true_eq]
    by_cases h : d ≤ now
    · rw [if_pos h, if_neg (by omega)]
    · rw [if_neg h, if_pos (by omega)]

/-- Dropping what has expired brings the reference to the clock of the next command. -/
theorem Sim.expire {t t' : ℕ} {s : KvEngine} {r : Ref} (h : Sim t s r) (ht : t ≤ t') :
    Sim t' s (r.expire t') := by
  refine ⟨h.ceiling, h.hits, h.misses, fun k => ?_⟩
  rw [live_clip ht, h.shows k]
  refine Eq.trans ?_ (AList.lookup_filter (fun _ p => Ref.ahead t' p.2) r.map k).symm
  cases hl : r.map.lookup k with
  | none => rfl
  | some p =>
    obtain ⟨v, d⟩ := p
    rw [ahead_eq, Option.filter_some]

/-! ## Single lookups -/

/-- The same answer, and states in the simulation. -/
def Agrees (t : ℕ) (x : Except FerrumError Reply × KvEngine) (y : Except FerrumError Reply × Ref) :
    Prop :=
  SameAnswer x.1 y.1 ∧ Sim t x.2 y.2

/-- A command answers as the reference and leaves a state the reference simulates. -/
def Matches (env : Env) (t : ℕ) (s : KvEngine) (r : Ref) (cmd : Command) : Prop :=
  Agrees t (exec env s cmd) (r.step env.float t cmd)

section Lookup

variable {env : Env} {t : ℕ} {s : KvEngine} {r : Ref} {key : Key} {e : ValueEntry}

theorem Sim.touch (h : Sim t s r) (a : AccessReading) (key : Key) :
    Sim t (s.touchAccess a key) r := by
  unfold touchAccess
  split
  · rename_i e he
    exact ⟨h.ceiling, h.hits, h.misses, h.shows.edit he rfl⟩
  · exact h

theorem Sim.drop (h : Sim t s r) (hr : r.map.lookup key = none) : Sim t (s.dropExpired key) r :=
  ⟨h.ceiling, h.hits, h.misses, h.shows.erase_absent hr⟩

theorem Sim.hit (h : Sim t s r) (hr : r.holds key = true) : Sim t s.recordHit (r.count [key]) :=
  ⟨h.ceiling, by simp [recordHit, Ref.count, hr, h.hits], by simp [recordHit, Ref.count, hr, h.misses],
    h.shows⟩

theorem Sim.miss (h : Sim t s r) (hr : r.holds key = false) : Sim t s.recordMiss (r.count [key]) :=
  ⟨h.ceiling, by simp [recordMiss, Ref.count, hr, h.hits],
    by simp [recordMiss, Ref.count, hr, h.misses], h.shows⟩

theorem holds_of_lookup {p : Bytes × Option ℕ} (h : r.map.lookup key = some p) :
    r.holds key = true := by
  simp [Ref.holds, h]

theorem holds_of_lookup_none (h : r.map.lookup key = none) : r.holds key = false := by
  simp [Ref.holds, h]

theorem get_matches (hAt : env.At t) (h : Sim t s r) (key : Key) : Matches env t s r (.get key) := by
  simp only [Matches, exec, Ref.step, reply, KvEngine.get, fetchLive, Ref.value, hAt.shared, hAt.now]
  rcases h.shows.cases key with ⟨hl, hr⟩ | ⟨e, hl, hx, hr⟩ | ⟨e, hl, hx, hr⟩
  · simp only [hl, hr]
    exact ⟨rfl, h.miss (holds_of_lookup_none hr)⟩
  · simp only [hl, hx, if_true, hr]
    exact ⟨rfl, (h.drop hr).miss (holds_of_lookup_none hr)⟩
  · simp only [hl, hx, hr]
    exact ⟨rfl, (h.touch _ key).hit (holds_of_lookup hr)⟩

theorem existsKey_matches (hAt : env.At t) (h : Sim t s r) (key : Key) :
    Matches env t s r (.existsKey key) := by
  simp only [Matches, exec, Ref.step, reply, existsKey, containsLive, hAt.shared, hAt.now]
  rcases h.shows.cases key with ⟨hl, hr⟩ | ⟨e, hl, hx, hr⟩ | ⟨e, hl, hx, hr⟩
  · simp only [hl, holds_of_lookup_none hr]
    exact ⟨rfl, h.miss (holds_of_lookup_none hr)⟩
  · simp only [hl, hx, if_true, holds_of_lookup_none hr]
    exact ⟨rfl, (h.drop hr).miss (holds_of_lookup_none hr)⟩
  · simp only [hl, hx, holds_of_lookup hr]
    exact ⟨rfl, h.hit (holds_of_lookup hr)⟩

theorem strlen_matches (hAt : env.At t) (h : Sim t s r) (key : Key) :
    Matches env t s r (.strlen key) := by
  simp only [Matches, exec, Ref.step, reply, strlen, strlenOf, Ref.value, hAt.shared, hAt.now]
  rcases h.shows.cases key with ⟨hl, hr⟩ | ⟨e, hl, hx, hr⟩ | ⟨e, hl, hx, hr⟩
  · simp only [hl, hr]
    exact ⟨rfl, h⟩
  · simp only [hl, hx, if_true, hr]
    exact ⟨rfl, h.drop hr⟩
  · simp only [hl, hx, hr]
    exact ⟨rfl, h⟩

theorem ttlMs_matches (hAt : env.At t) (h : Sim t s r) (key : Key) :
    Matches env t s r (.ttlMs key) := by
  simp only [Matches, exec, Ref.step, reply, ttlMs, ttlOf, ttlStatus, hAt.shared, hAt.now]
  rcases h.shows.cases key with ⟨hl, hr⟩ | ⟨e, hl, hx, hr⟩ | ⟨e, hl, hx, hr⟩
  · simp only [hl, hr]
    exact ⟨rfl, h⟩
  · simp only [hl, hx, if_true, hr]
    exact ⟨rfl, h.drop hr⟩
  · simp only [hl, hx, hr]
    cases e.expireAt <;> exact ⟨rfl, h⟩

theorem memoryUsage_matches (hAt : env.At t) (h : Sim t s r) (key : Key) :
    Matches env t s r (.memoryUsage key) := by
  simp only [Matches, exec, Ref.step, reply, memoryUsage, memoryOf, Ref.value, hAt.shared, hAt.now]
  rcases h.shows.cases key with ⟨hl, hr⟩ | ⟨e, hl, hx, hr⟩ | ⟨e, hl, hx, hr⟩
  · simp only [hl, hr]
    exact ⟨rfl, h⟩
  · simp only [hl, hx, if_true, hr]
    exact ⟨rfl, h.ceiling, h.hits, h.misses, h.shows.erase_absent hr⟩
  · simp only [hl, hx, hr]
    exact ⟨rfl, h⟩

end Lookup

section Write

variable {env : Env} {t : ℕ} {s : KvEngine} {r : Ref}

theorem shown_newWith {d : Option ℕ} (a : AccessReading) (v : Bytes) (hd : Ref.ahead t d = true) :
    (ValueEntry.newWith a v d).shown t = some (v, d) := by
  cases d with
  | none => rfl
  | some d =>
    have hlt : t < d := of_decide_eq_true hd
    rw [shown_of_deadline t rfl, if_neg (by omega)]
    rfl

theorem Sim.insert (h : Sim t s r) (rs : List AofRecord) (key : Key) (a : AccessReading) (v : Bytes)
    {d : Option ℕ} (hd : Ref.ahead t d = true) :
    Sim t ((s.appendAof rs).trackInsert key (.newWith a v d)) (r.write key v d) :=
  ⟨h.ceiling, h.hits, h.misses, h.shows.insert (shown_newWith a v hd)⟩

theorem Sim.remove (h : Sim t s r) (key : Key) : Sim t (s.trackRemove key) (r.remove key) :=
  ⟨h.ceiling, h.hits, h.misses, h.shows.erase key⟩

theorem Sim.forget (h : Sim t s r) {key : Key} (hr : r.map.lookup key = none) :
    Sim t (s.trackRemove key) r :=
  ⟨h.ceiling, h.hits, h.misses, h.shows.erase_absent hr⟩

theorem Sim.log (h : Sim t s r) (rs : List AofRecord) : Sim t (s.appendAof rs) r :=
  ⟨h.ceiling, h.hits, h.misses, h.shows⟩

theorem Sim.existed (h : Sim t s r) (hAt : env.At t) (key : Key) :
    existed env s key = r.holds key := by
  unfold KvEngine.existed
  rw [hAt.now]
  rcases h.shows.cases key with ⟨hl, hr⟩ | ⟨e, hl, hx, hr⟩ | ⟨e, hl, hx, hr⟩
  · simp [hl, holds_of_lookup_none hr]
  · simp [hl, hx, holds_of_lookup_none hr]
  · simp [hl, hx, holds_of_lookup hr]

theorem Sim.livePayload (h : Sim t s r) (key : Key) :
    (s.store.lookup key).bind (livePayload t) = r.value key := by
  unfold Ref.value
  rcases h.shows.cases key with ⟨hl, hr⟩ | ⟨e, hl, hx, hr⟩ | ⟨e, hl, hx, hr⟩
  · simp [hl, hr]
  · simp [hl, hr, FerrumKv.livePayload, hx]
  · simp [hl, hr, FerrumKv.livePayload, hx]

theorem Sim.ahead (h : Sim t s r) {key : Key} {v : Bytes} {d : Option ℕ}
    (hr : r.map.lookup key = some (v, d)) : Ref.ahead t d = true := by
  have hlive := (h.shows key).trans hr
  cases d with
  | none => rfl
  | some d =>
    have hclip : clip t (some (v, some d)) = some (v, some d) := by
      rw [← hlive]
      exact (live_clip le_rfl s.store key).symm
    by_contra ha
    rw [ahead_eq, if_neg ha] at hclip
    cases hclip

theorem Sim.readState (h : Sim t s r) (hAt : env.At t) (key : Key) :
    ∃ s', s.readState env key = ((r.value key).map (·, r.deadline key), s') ∧ Sim t s' r := by
  unfold KvEngine.readState Ref.value Ref.deadline
  rw [hAt.now]
  rcases h.shows.cases key with ⟨hl, hr⟩ | ⟨e, hl, hx, hr⟩ | ⟨e, hl, hx, hr⟩
  · rw [hl, hr]
    exact ⟨s, rfl, h⟩
  · simp only [hl, hx, if_true, hr]
    exact ⟨_, rfl, h.drop hr⟩
  · simp only [hl, hx, hr]
    exact ⟨s, rfl, h⟩

theorem Sim.insertKeepTtl (h : Sim t s r) (env : Env) (key v : Bytes) {d : Option ℕ}
    (hd : Ref.ahead t d = true) :
    ∃ s', s.insertKeepTtl env key v d = (.ok (), s') ∧ Sim t s' (r.write key v d) := by
  unfold KvEngine.insertKeepTtl
  simp only [enforceForWrite_of_zero h.ceiling]
  exact ⟨_, rfl, h.insert _ key _ v hd⟩

theorem set_matches (hAt : env.At t) (h : Sim t s r) (key value : Bytes) :
    Matches env t s r (.set key value) := by
  simp only [Matches, exec, Ref.step, answer]
  cases hv : validatePair key value with
  | error e =>
    simp only [KvEngine.set, KvEngine.insert, hv]
    exact ⟨rfl, h⟩
  | ok _ =>
    simp only [set_of_zero h.ceiling hv, hAt.payloadNow, h.livePayload key]
    exact ⟨rfl, h.insert _ key _ value rfl⟩

theorem setNx_matches (hAt : env.At t) (h : Sim t s r) (key value : Bytes) :
    Matches env t s r (.setNx key value) := by
  simp only [Matches, exec, Ref.step, answer, setNx, insertNx, hAt.now]
  cases hv : validatePair key value with
  | error e => exact ⟨rfl, h⟩
  | ok _ =>
    rcases h.shows.cases key with ⟨hl, hr⟩ | ⟨e, hl, hx, hr⟩ | ⟨e, hl, hx, hr⟩
    · simp only [hl, holds_of_lookup_none hr, insertNx.insertAbsent,
        enforceForWrite_of_zero h.ceiling]
      exact ⟨rfl, h.insert _ key _ value rfl⟩
    · have hf := h.forget hr
      simp only [hl, hx, holds_of_lookup_none hr, insertNx.insertAbsent,
        enforceForWrite_of_zero hf.ceiling]
      exact ⟨rfl, hf.insert _ key _ value rfl⟩
    · simp only [hl, hx, holds_of_lookup hr]
      exact ⟨rfl, h⟩

theorem enforceMany_of_zero (h : s.eviction.maxMemory = 0) :
    ∀ pairs, enforceMany env pairs s = (.ok (), s)
  | [] => rfl
  | (k, v) :: pairs => by
    rw [enforceMany, enforceForWrite_of_zero h]
    exact enforceMany_of_zero h pairs

theorem Sim.insertMany {s : KvEngine} {r : Ref} (h : Sim t s r) :
    ∀ (i : ℕ) (pairs : List (Key × Bytes)), Sim t (trackInsertMany env i pairs s)
      (pairs.foldl (fun r p => r.write p.1 p.2 none) r)
  | _, [] => h
  | i, (k, v) :: pairs =>
    Sim.insertMany (s := s.trackInsert k (.new (env.access i) v)) (r := r.write k v none)
      ⟨h.ceiling, h.hits, h.misses, h.shows.insert rfl⟩ (i + 1) pairs

theorem mset_matches (h : Sim t s r) (pairs : List (Key × Bytes)) :
    Matches env t s r (.mset pairs) := by
  simp only [Matches, exec, Ref.step, answer, mset, KvEngine.insertMany]
  cases hv : validatePairs pairs with
  | error e => exact ⟨rfl, h⟩
  | ok _ =>
    simp only [enforceMany_of_zero h.ceiling]
    exact ⟨rfl, (h.log _).insertMany 0 pairs⟩

theorem del_matches (hAt : env.At t) (h : Sim t s r) (key : Key) :
    Matches env t s r (.del key) := by
  simp only [Matches, exec, Ref.step, reply, del, KvEngine.remove, h.existed hAt key]
  cases r.holds key with
  | true => exact ⟨rfl, (h.remove key).log _⟩
  | false => exact ⟨rfl, h.remove key⟩

theorem Sim.removeLoop (hAt : env.At t) :
    ∀ (keys : List Key) {s : KvEngine} {r : Ref}, Sim t s r →
      (removeLoop env keys s).1.length = (Ref.removeAll keys r).1
        ∧ Sim t (removeLoop env keys s).2 (Ref.removeAll keys r).2
  | [], _, _, h => ⟨rfl, h⟩
  | key :: keys, s, r, h => by
    have ih := Sim.removeLoop hAt keys (h.remove key)
    unfold KvEngine.removeLoop Ref.removeAll
    simp only [h.existed hAt key]
    cases r.holds key with
    | true => exact ⟨congrArg (· + 1) ih.1, ih.2⟩
    | false => exact ih

theorem delMany_matches (hAt : env.At t) (h : Sim t s r) (keys : List Key) :
    Matches env t s r (.delMany keys) := by
  simp only [Matches, exec, Ref.step, reply, delMany]
  split_ifs with hk
  · subst hk
    exact ⟨rfl, h⟩
  · have hl := Sim.removeLoop hAt keys h
    exact ⟨congrArg (fun n => Except.ok (Reply.count n)) hl.1, hl.2.log _⟩

theorem flushdb_matches (h : Sim t s r) : Matches env t s r .flushdb :=
  ⟨rfl, h.ceiling, h.hits, h.misses, fun _ => rfl⟩

end Write

section Computed

variable {env : Env} {t : ℕ} {s : KvEngine} {r : Ref}

theorem Sim.ahead_deadline (h : Sim t s r) (key : Key) : Ref.ahead t (r.deadline key) = true := by
  unfold Ref.deadline
  cases hr : r.map.lookup key with
  | none => rfl
  | some p => exact h.ahead hr

theorem deadline_of_value_none {key : Key} (h : r.value key = none) : r.deadline key = none := by
  unfold Ref.value at h
  simp [Ref.deadline, Option.map_eq_none_iff.1 h]

theorem incrBy_store_agrees (env : Env) (h : Sim t s r) (key : Key) (delta n : Int64) :
    Agrees t (answer .integer (incrBy.store env key delta s n (r.deadline key)))
      (match checkedAdd n delta with
        | none => (.error notAnInteger, r)
        | some n => (.ok (.integer n), r.write key (i64ToString n) (r.deadline key))) := by
  unfold incrBy.store
  cases checkedAdd n delta with
  | none => exact ⟨rfl, h⟩
  | some n =>
    obtain ⟨s', he, hs'⟩ := h.insertKeepTtl env key (i64ToString n) (h.ahead_deadline key)
    simp only [he]
    exact ⟨rfl, hs'⟩

theorem incrBy_matches (hAt : env.At t) (h : Sim t s r) (key : Key) (delta : Int64) :
    Matches env t s r (.incrBy key delta) := by
  simp only [Matches, exec, Ref.step, incrBy]
  cases validateKey key with
  | error e => exact ⟨rfl, h⟩
  | ok _ =>
    obtain ⟨s', he, hs⟩ := h.readState hAt key
    simp only [he]
    cases hv : r.value key with
    | none =>
      have hstore := incrBy_store_agrees env hs key delta 0
      rw [deadline_of_value_none hv] at hstore ⊢
      exact hstore
    | some v =>
      simp only [Option.map_some]
      cases parseI64 v with
      | none => exact ⟨rfl, hs⟩
      | some n => exact incrBy_store_agrees env hs key delta n

theorem incrByFloat_store_agrees (env : Env) (h : Sim t s r) (key : Key) (delta x : UInt64) :
    Agrees t (answer .float (incrByFloat.store env key delta s x (r.deadline key)))
      (if env.float.isFinite (env.float.add x delta) = false then (.error notFinite, r)
        else (.ok (.float (env.float.add x delta)),
          r.write key (env.float.render (env.float.add x delta)) (r.deadline key))) := by
  unfold incrByFloat.store
  simp only []
  split_ifs
  · exact ⟨rfl, h⟩
  · obtain ⟨s', he, hs'⟩ :=
      h.insertKeepTtl env key (env.float.render (env.float.add x delta)) (h.ahead_deadline key)
    simp only [he]
    exact ⟨rfl, hs'⟩

theorem incrByFloat_matches (hAt : env.At t) (h : Sim t s r) (key : Key) (delta : UInt64) :
    Matches env t s r (.incrByFloat key delta) := by
  simp only [Matches, exec, Ref.step, incrByFloat]
  cases validateKey key with
  | error e => exact ⟨rfl, h⟩
  | ok _ =>
    obtain ⟨s', he, hs⟩ := h.readState hAt key
    simp only [he]
    cases hv : r.value key with
    | none =>
      have hstore := incrByFloat_store_agrees env hs key delta 0
      rw [deadline_of_value_none hv] at hstore ⊢
      exact hstore
    | some v =>
      simp only [Option.map_some]
      cases env.float.parse v with
      | none => exact ⟨rfl, hs⟩
      | some x => exact incrByFloat_store_agrees env hs key delta x

theorem append_store_agrees (env : Env) (h : Sim t s r) (key v : Bytes) :
    Agrees t (answer .count (append.store env key s v (r.deadline key)))
      (match validateValue v with
        | .error e => (.error e, r)
        | .ok () => (.ok (.count v.length), r.write key v (r.deadline key))) := by
  unfold append.store
  cases validateValue v with
  | error e => exact ⟨rfl, h⟩
  | ok _ =>
    obtain ⟨s', he, hs'⟩ := h.insertKeepTtl env key v (h.ahead_deadline key)
    simp only [he]
    exact ⟨rfl, hs'⟩

theorem append_matches (hAt : env.At t) (h : Sim t s r) (key suffix : Bytes) :
    Matches env t s r (.append key suffix) := by
  simp only [Matches, exec, Ref.step, append]
  cases validateKey key with
  | error e => exact ⟨rfl, h⟩
  | ok _ =>
    obtain ⟨s', he, hs⟩ := h.readState hAt key
    simp only [he]
    cases hv : r.value key with
    | none =>
      have hstore := append_store_agrees env hs key suffix
      rw [deadline_of_value_none hv] at hstore ⊢
      exact hstore
    | some v => exact append_store_agrees env hs key (v ++ suffix)

theorem expireAtMs_matches (hAt : env.At t) (h : Sim t s r) (key : Key) (abs : Int64) :
    Matches env t s r (.expireAtMs key abs) := by
  simp only [Matches, exec, Ref.step, reply]
  rcases expireAtMs_spec env s key abs with
    ⟨hl, he⟩ | ⟨e, hl, hx, he⟩ | ⟨e, hl, hx, hle, he⟩ | ⟨e, hl, hx, hlt, he⟩
  · simp only [he, Ref.value, h.shows.of_absent hl, Option.map_none]
    exact ⟨rfl, h⟩
  · rw [hAt.now] at hx
    have hr := h.shows.of_expired hl hx
    simp only [he, Ref.value, hr, Option.map_none]
    exact ⟨rfl, h.drop hr⟩
  · rw [hAt.now] at hx
    rw [hAt.nowMs] at hle
    simp only [he, Ref.value, h.shows.of_live hl hx, Option.map_some, if_pos hle]
    exact ⟨rfl, (h.remove key).log _⟩
  · rw [hAt.now] at hx
    rw [hAt.nowMs] at hlt
    have hd : env.now + (abs.toInt - env.nowMs.toInt).toNat = abs.toInt.toNat := by
      rw [hAt.now, hAt.nowMs]
      omega
    simp only [he, Ref.value, h.shows.of_live hl hx, Option.map_some, if_neg hlt.not_ge]
    refine ⟨rfl, ?_⟩
    rw [deadlined, hd, setDeadline_of_lookup _ hl]
    refine ⟨h.ceiling, h.hits, h.misses, h.shows.insert ?_⟩
    rw [shown_of_deadline t rfl, if_neg (by omega)]

theorem persist_matches (hAt : env.At t) (h : Sim t s r) (key : Key) :
    Matches env t s r (.persist key) := by
  simp only [Matches, exec, Ref.step, reply]
  rcases persist_spec env s key with
    ⟨hl, he⟩ | ⟨e, hl, hx, he⟩ | ⟨e, hl, hx, hd, he⟩ | ⟨e, hl, hx, hd, he⟩
  · simp only [he, h.shows.of_absent hl]
    exact ⟨rfl, h⟩
  · rw [hAt.now] at hx
    have hr := h.shows.of_expired hl hx
    simp only [he, hr]
    exact ⟨rfl, h.drop hr⟩
  · rw [hAt.now] at hx
    simp only [he, h.shows.of_live hl hx, hd]
    exact ⟨rfl, h⟩
  · rw [hAt.now] at hx
    obtain ⟨d, hd⟩ := Option.ne_none_iff_exists'.1 hd
    simp only [he, h.shows.of_live hl hx, hd]
    refine ⟨rfl, ?_⟩
    rw [persisted, setDeadline_of_lookup _ hl]
    exact ⟨h.ceiling, h.hits, h.misses, h.shows.insert (shown_of_no_deadline t rfl)⟩

end Computed

section Batch

variable {env : Env} {t : ℕ} {s : KvEngine} {r : Ref}

/-- The reference after `h` more hits and `m` more misses. -/
def Ref.counted (r : Ref) (h m : ℕ) : Ref := { r with hits := r.hits + h, misses := r.misses + m }

/-- The pass under the shared lock has answered for `keys` and deferred the keys `d`, which show
nothing: every hit is counted, and every miss but those of `d`. -/
def Pending (t : ℕ) (r : Ref) (keys d : List Key) (s : KvEngine) : Prop :=
  (∀ k ∈ d, r.map.lookup k = none)
    ∧ ∃ m, m + d.length = keys.countP (fun k => !r.holds k)
      ∧ Sim t s (r.counted (keys.countP r.holds) m)

variable {key : Key} {keys d : List Key}

theorem Pending.nil (h : Sim t s r) : Pending t r [] [] s :=
  ⟨fun _ hk => absurd hk List.not_mem_nil, 0, rfl, h⟩

theorem Pending.miss (hr : r.map.lookup key = none) (h : Pending t (r.counted 0 1) keys d s) :
    Pending t r (key :: keys) d s := by
  obtain ⟨hd, m, hm, hs⟩ := h
  have hk := holds_of_lookup_none hr
  refine ⟨hd, m + 1, ?_, hs.ceiling, hs.hits.trans ?_, hs.misses.trans ?_, hs.shows⟩
  · rw [List.countP_cons_of_pos (by simp [hk])]
    exact (Nat.add_right_comm m 1 d.length).trans (congrArg (· + 1) hm)
  · rw [List.countP_cons_of_neg (by simp [hk])]
    rfl
  · exact (Nat.add_assoc r.misses 1 m).trans (congrArg _ (Nat.add_comm 1 m))

theorem Pending.defer (hr : r.map.lookup key = none) (h : Pending t r keys d s) :
    Pending t r (key :: keys) (key :: d) s := by
  obtain ⟨hd, m, hm, hs⟩ := h
  have hk := holds_of_lookup_none hr
  refine ⟨List.forall_mem_cons.2 ⟨hr, hd⟩, m, ?_, ?_⟩
  · rw [List.countP_cons_of_pos (by simp [hk]), List.length_cons, ← hm]
    rfl
  · rw [List.countP_cons_of_neg (by simp [hk])]
    exact hs

theorem Pending.hit (hk : r.holds key = true) (h : Pending t (r.counted 1 0) keys d s) :
    Pending t r (key :: keys) d s := by
  obtain ⟨hd, m, hm, hs⟩ := h
  refine ⟨hd, m, ?_, hs.ceiling, hs.hits.trans ?_, hs.misses, hs.shows⟩
  · rw [List.countP_cons_of_neg (by simp [hk])]
    exact hm
  · rw [List.countP_cons_of_pos hk]
    exact (Nat.add_assoc r.hits 1 _).trans (congrArg _ (Nat.add_comm 1 _))

/-- The deferred keys counted as misses complete the count. -/
theorem Pending.complete (h : Pending t r keys d s) {s' : KvEngine}
    (hs' : ∀ {r' : Ref}, (∀ k ∈ d, r'.map.lookup k = none) → Sim t s r' →
      Sim t s' (r'.counted 0 d.length)) : Sim t s' (r.count keys) := by
  obtain ⟨hd, m, hm, hs⟩ := h
  have hc : Sim t s' ((r.counted (keys.countP r.holds) m).counted 0 d.length) := hs' (by exact hd) hs
  refine ⟨hc.ceiling, hc.hits, hc.misses.trans ?_, hc.shows⟩
  exact (Nat.add_assoc r.misses m d.length).trans (congrArg (r.misses + ·) hm)

theorem Sim.countHit (h : Sim t s r) : Sim t s.recordHit (r.counted 1 0) :=
  ⟨h.ceiling, congrArg (· + 1) h.hits, h.misses, h.shows⟩

theorem Sim.countMiss (h : Sim t s r) : Sim t s.recordMiss (r.counted 0 1) :=
  ⟨h.ceiling, h.hits, congrArg (· + 1) h.misses, h.shows⟩

theorem Sim.fetchLive_absent (h : Sim t s r) (hAt : env.At t) (i : ℕ)
    (hr : r.map.lookup key = none) : Sim t (s.fetchLive env i key).2 (r.counted 0 1) := by
  unfold fetchLive
  rw [hAt.now]
  rcases h.shows.cases key with ⟨hl, -⟩ | ⟨e, hl, hx, -⟩ | ⟨e, -, -, hr'⟩
  · simp only [hl]
    exact h.countMiss
  · simp only [hl, hx, if_true]
    exact (h.drop hr).countMiss
  · cases hr.symm.trans hr'

theorem Sim.containsLive_absent (h : Sim t s r) (hAt : env.At t) (hr : r.map.lookup key = none) :
    (s.containsLive env key).1 = false ∧ Sim t (s.containsLive env key).2 (r.counted 0 1) := by
  unfold containsLive
  rw [hAt.now]
  rcases h.shows.cases key with ⟨hl, -⟩ | ⟨e, hl, hx, -⟩ | ⟨e, -, -, hr'⟩
  · simp only [hl]
    exact ⟨trivial, h.countMiss⟩
  · simp only [hl, hx, if_true]
    exact ⟨trivial, (h.drop hr).countMiss⟩
  · cases hr.symm.trans hr'

theorem counted_succ (r : Ref) (n : ℕ) : (r.counted 0 1).counted 0 n = r.counted 0 (n + 1) := by
  unfold Ref.counted
  congr 1
  exact (Nat.add_assoc r.misses 1 n).trans (congrArg _ (Nat.add_comm 1 n))

theorem Sim.fetchAll (hAt : env.At t) : ∀ (d : List (ℕ × Key)) {s : KvEngine} {r : Ref},
    (∀ k ∈ d.map (·.2), r.map.lookup k = none) → Sim t s r →
      Sim t (d.foldl (fun s p => (s.fetchLive env p.1 p.2).2) s) (r.counted 0 (d.map (·.2)).length)
  | [], _, _, _, h => h
  | (i, key) :: d, s, r, hd, h => by
    obtain ⟨hr, hd⟩ := List.forall_mem_cons.1 hd
    rw [List.map_cons, List.length_cons, ← counted_succ]
    exact Sim.fetchAll hAt d (r := r.counted 0 1) hd (h.fetchLive_absent hAt i hr)

theorem Sim.existsExclusive (hAt : env.At t) : ∀ (d : List Key) {s : KvEngine} {r : Ref},
    (∀ k ∈ d, r.map.lookup k = none) → Sim t s r →
      (existsExclusive env d s).1 = 0
        ∧ Sim t (existsExclusive env d s).2 (r.counted 0 d.length)
  | [], _, _, _, h => ⟨rfl, h⟩
  | key :: d, s, r, hd, h => by
    obtain ⟨hr, hd⟩ := List.forall_mem_cons.1 hd
    obtain ⟨hc, hs⟩ := h.containsLive_absent hAt hr
    have ih := Sim.existsExclusive hAt d (r := r.counted 0 1) hd hs
    rw [counted_succ] at ih
    unfold KvEngine.existsExclusive
    simp only [hc]
    exact ih

theorem mgetShared_pending (hAt : env.At t) :
    ∀ (i : ℕ) (keys : List Key) {s : KvEngine} {r : Ref}, Sim t s r →
      (mgetShared env i keys s).1.1 = keys.map r.value
        ∧ Pending t r keys ((mgetShared env i keys s).1.2.map (·.2)) (mgetShared env i keys s).2
  | _, [], _, _, h => ⟨rfl, .nil h⟩
  | i, key :: keys, s, r, h => by
    unfold mgetShared
    rw [hAt.shared, List.map_cons]
    rcases h.shows.cases key with ⟨hl, hr⟩ | ⟨e, hl, hx, hr⟩ | ⟨e, hl, hx, hr⟩
    · obtain ⟨hv, hp⟩ := mgetShared_pending hAt (i + 1) keys h.countMiss
      simp only [hl]
      exact ⟨congrArg₂ _ (by simp [Ref.value, hr]) hv, .miss hr hp⟩
    · obtain ⟨hv, hp⟩ := mgetShared_pending hAt (i + 1) keys h
      simp only [hl, hx, if_true]
      exact ⟨congrArg₂ _ (by simp [Ref.value, hr]) hv, .defer hr hp⟩
    · obtain ⟨hv, hp⟩ := mgetShared_pending hAt (i + 1) keys (h.touch (env.access i) key).countHit
      simp only [hl, hx]
      exact ⟨congrArg₂ _ (by simp [Ref.value, hr]) hv, .hit (holds_of_lookup hr) hp⟩

theorem existsShared_pending (hAt : env.At t) :
    ∀ (keys : List Key) {s : KvEngine} {r : Ref}, Sim t s r →
      (existsShared env keys s).1.1 = keys.countP r.holds
        ∧ Pending t r keys (existsShared env keys s).1.2 (existsShared env keys s).2
  | [], _, _, h => ⟨rfl, .nil h⟩
  | key :: keys, s, r, h => by
    unfold existsShared
    rw [hAt.shared]
    rcases h.shows.cases key with ⟨hl, hr⟩ | ⟨e, hl, hx, hr⟩ | ⟨e, hl, hx, hr⟩
    · obtain ⟨hv, hp⟩ := existsShared_pending hAt keys h.countMiss
      rw [List.countP_cons_of_neg (by simp [holds_of_lookup_none hr])]
      simp only [hl]
      exact ⟨hv, .miss hr hp⟩
    · obtain ⟨hv, hp⟩ := existsShared_pending hAt keys h
      rw [List.countP_cons_of_neg (by simp [holds_of_lookup_none hr])]
      simp only [hl, hx, if_true]
      exact ⟨hv, .defer hr hp⟩
    · obtain ⟨hv, hp⟩ := existsShared_pending hAt keys h.countHit
      rw [List.countP_cons_of_pos (holds_of_lookup hr)]
      simp only [hl, hx]
      exact ⟨congrArg (· + 1) hv, .hit (holds_of_lookup hr) hp⟩

theorem mget_matches (hAt : env.At t) (h : Sim t s r) (keys : List Key) :
    Matches env t s r (.mget keys) := by
  obtain ⟨hv, hp⟩ := mgetShared_pending hAt 0 keys h
  simp only [Matches, exec, Ref.step, reply, mget, hv]
  exact ⟨rfl, hp.complete fun hd hs => Sim.fetchAll hAt _ hd hs⟩

theorem existsMany_matches (hAt : env.At t) (h : Sim t s r) (keys : List Key) :
    Matches env t s r (.existsMany keys) := by
  obtain ⟨hv, hp⟩ := existsShared_pending hAt keys h
  simp only [Matches, exec, Ref.step, reply, existsMany]
  split_ifs with hk
  · subst hk
    exact ⟨rfl, h⟩
  · have hz : (KvEngine.existsExclusive env (existsShared env keys s).1.2
        (existsShared env keys s).2).1 = 0 := by
      obtain ⟨hd, _, _, hs⟩ := hp
      exact (Sim.existsExclusive hAt _ (r := r.counted _ _) hd hs).1
    simp only [hv, hz]
    exact ⟨rfl, hp.complete fun hd hs => (Sim.existsExclusive hAt _ hd hs).2⟩

end Batch

section Whole

variable {env : Env} {t : ℕ} {s : KvEngine} {r : Ref}

def shownEntries (t : ℕ) (l : List (Σ _ : Key, ValueEntry)) :
    List (Σ _ : Key, Bytes × Option ℕ) :=
  l.filterMap fun e => (e.2.shown t).map fun p => ⟨e.1, p⟩

theorem Sim.entries (h : Sim t s r) (env : Env) :
    (shownEntries t (env.iter s.store)).Perm r.map.entries :=
  ((env.iter_perm s.store).filterMap _).trans (AList.perm_of_lookup h.shows)

theorem shownEntries_eq (t : ℕ) : ∀ l : List (Σ _ : Key, ValueEntry),
    shownEntries t l
      = (l.filter fun e => !e.2.isExpired t).map fun e => ⟨e.1, e.2.data, e.2.expireAt⟩
  | [] => rfl
  | e :: l => by
    have ih := shownEntries_eq t l
    unfold shownEntries at ih ⊢
    cases hx : e.2.isExpired t with
    | true =>
      rw [List.filterMap_cons_none (by simp [shown_of_expired hx]),
        List.filter_cons_of_neg (by simp [hx]), ih]
    | false =>
      rw [List.filterMap_cons_some (b := ⟨e.1, e.2.data, e.2.expireAt⟩)
        (by simp [shown_of_not_expired hx]), List.filter_cons_of_pos (by simp [hx]), ih]
      rfl

theorem dbsize_matches (hAt : env.At t) (h : Sim t s r) : Matches env t s r .dbsize := by
  have hlen := (h.entries env).length_eq
  rw [shownEntries_eq, List.length_map] at hlen
  simp only [Matches, exec, Ref.step, dbsize, hAt.shared, hlen]
  exact ⟨rfl, h⟩

theorem scanKeys_matches (hAt : env.At t) (h : Sim t s r) (pattern : Bytes) :
    Matches env t s r (.scanKeys pattern) := by
  have hkeys := ((h.entries env).map (·.1)).filter (globMatch pattern)
  rw [shownEntries_eq, List.map_map, List.filter_map, List.filter_filter] at hkeys
  simp only [Matches, exec, Ref.step, scanKeys, hAt.shared]
  refine ⟨fun hle => ?_, h⟩
  have hlive : (((env.iter s.store).filter fun e =>
      !e.2.isExpired t && globMatch pattern e.1).map (·.1)).Perm
        (r.map.keys.filter (globMatch pattern)) := by
    simp only [Bool.and_comm]
    exact hkeys
  rw [List.take_of_length_le (hlive.length_eq.trans_le hle)]
  exact hlive

def shownDeadlines (t : ℕ) (l : List (Σ _ : Key, ValueEntry)) : List ℕ :=
  (shownEntries t l).filterMap (·.2.2)

theorem shownDeadlines_cons (t : ℕ) (e : Σ _ : Key, ValueEntry) (l : List (Σ _ : Key, ValueEntry)) :
    shownDeadlines t (e :: l)
      = (if e.2.isExpired t then none else e.2.expireAt).toList ++ shownDeadlines t l := by
  unfold shownDeadlines
  rw [shownEntries_eq, shownEntries_eq]
  cases hx : e.2.isExpired t with
  | true => simp [hx]
  | false =>
    rw [List.filter_cons_of_pos (by simp [hx]), List.map_cons]
    cases hd : e.2.expireAt with
    | none => rfl
    | some d => rfl

theorem expireSums_from (t : ℕ) : ∀ (l : List (Σ _ : Key, ValueEntry)) (n x : ℕ),
    l.foldl (fun acc e =>
      if e.2.isExpired t then acc
      else
        match e.2.expireAt with
        | some deadline => (acc.1 + 1, min (acc.2 + (deadline - t)) (2 ^ 64 - 1))
        | none => acc) (n, min x (2 ^ 64 - 1))
      = (n + (shownDeadlines t l).length,
        min (x + ((shownDeadlines t l).map (· - t)).sum) (2 ^ 64 - 1))
  | [], _, _ => rfl
  | e :: l, n, x => by
    rw [List.foldl_cons, shownDeadlines_cons]
    cases hx : e.2.isExpired t with
    | true => exact expireSums_from t l n x
    | false =>
      cases hd : e.2.expireAt with
      | none => exact expireSums_from t l n x
      | some d =>
        have hmin : min (min x (2 ^ 64 - 1) + (d - t)) (2 ^ 64 - 1)
            = min (x + (d - t)) (2 ^ 64 - 1) := by omega
        simp only [Bool.false_eq_true, if_false, hmin, expireSums_from t l (n + 1) (x + (d - t)),
          Option.toList_some, List.cons_append, List.nil_append, List.length_cons, List.map_cons,
          List.sum_cons]
        congr 1 <;> omega

theorem expireSums_eq (t : ℕ) (l : List (Σ _ : Key, ValueEntry)) :
    expireSums t l = ((shownDeadlines t l).length,
      min ((shownDeadlines t l).map (· - t)).sum (2 ^ 64 - 1)) := by
  have h := expireSums_from t l 0 0
  rw [Nat.zero_add, Nat.zero_add] at h
  exact h

theorem expireStats_matches (hAt : env.At t) (h : Sim t s r) :
    Matches env t s r .expireStats := by
  have hd : (shownDeadlines t (env.iter s.store)).Perm r.deadlines :=
    (h.entries env).filterMap _
  simp only [Matches, exec, Ref.step, expireStats, hAt.shared, expireSums_eq, hd.length_eq,
    (hd.map (· - t)).sum_eq]
  exact ⟨rfl, h⟩

theorem Sim.sweepVictims : ∀ (victims : List Key) {s : KvEngine},
    (∀ k ∈ victims, r.map.lookup k = none) → Sim t s r → Sim t (victims.foldl sweepVictim s) r
  | [], _, _, h => h
  | key :: victims, s, hv, h => by
    obtain ⟨hr, hv⟩ := List.forall_mem_cons.1 hv
    exact Sim.sweepVictims victims hv ⟨h.ceiling, h.hits, h.misses, h.shows.erase_absent hr⟩

theorem sweepExpired_matches (hAt : env.At t) (h : Sim t s r) (sample : ℕ) :
    Matches env t s r (.sweepExpired sample) := by
  simp only [Matches, exec, Ref.step, reply]
  refine ⟨trivial, ?_⟩
  unfold sweepExpired
  simp only []
  split_ifs
  · exact h
  all_goals
    refine Sim.sweepVictims _ ?_ ⟨h.ceiling, h.hits, h.misses, h.shows⟩
    intro k hk
    obtain ⟨e, he, rfl⟩ := List.mem_map.1 hk
    obtain ⟨hw, hx⟩ := List.mem_filter.1 he
    rw [hAt.now] at hx
    have hmem : e ∈ env.iter s.store := by
      have := List.mem_of_mem_take hw
      rw [List.mem_append] at this
      exact this.elim List.mem_of_mem_drop List.mem_of_mem_take
    exact h.shows.of_expired (AList.mem_lookup_iff.2 ((env.iter_perm s.store).mem_iff.1 hmem)) hx

theorem setEvictionConfig_matches (h : Sim t s r) {cfg : EvictionConfig} (hc : cfg.maxMemory = 0) :
    Matches env t s r (.setEvictionConfig cfg) := by
  simp only [Matches, exec, Ref.step]
  refine ⟨rfl, hc, ?_, ?_, ?_⟩
  · exact (setEvictionConfig_hits env s cfg).trans h.hits
  · exact (setEvictionConfig_misses env s cfg).trans h.misses
  · rw [setEvictionConfig_store]
    exact h.shows

end Whole

section Run

variable {env : Env} {t : ℕ} {s : KvEngine} {r : Ref}

theorem exec_matches (hAt : env.At t) (h : Sim t s r) {cmd : Command} (hc : cmd.NoCeiling) :
    Matches env t s r cmd := by
  cases cmd with
  | set key value => exact set_matches hAt h key value
  | setNx key value => exact setNx_matches hAt h key value
  | mset pairs => exact mset_matches h pairs
  | get key => exact get_matches hAt h key
  | mget keys => exact mget_matches hAt h keys
  | incrBy key delta => exact incrBy_matches hAt h key delta
  | incrByFloat key delta => exact incrByFloat_matches hAt h key delta
  | append key suffix => exact append_matches hAt h key suffix
  | del key => exact del_matches hAt h key
  | delMany keys => exact delMany_matches hAt h keys
  | existsKey key => exact existsKey_matches hAt h key
  | existsMany keys => exact existsMany_matches hAt h keys
  | dbsize => exact dbsize_matches hAt h
  | scanKeys pattern => exact scanKeys_matches hAt h pattern
  | expireStats => exact expireStats_matches hAt h
  | strlen key => exact strlen_matches hAt h key
  | flushdb => exact flushdb_matches h
  | expireAtMs key abs => exact expireAtMs_matches hAt h key abs
  | persist key => exact persist_matches hAt h key
  | ttlMs key => exact ttlMs_matches hAt h key
  | memoryUsage key => exact memoryUsage_matches hAt h key
  | sweepExpired sample => exact sweepExpired_matches hAt h sample
  | setEvictionConfig cfg => exact setEvictionConfig_matches h hc

/-- What a run has answered and counted so far is what the reference has. -/
def InStepWith (s : KvEngine) (r : Ref) (calls : List TimedCall) (n : ℕ) : Prop :=
  (∀ c, calls[n]? = some c →
      SameAnswer (exec c.env (runTimed s (calls.take n)) c.cmd).1
        (Ref.exec c.env.float c.t (r.run (calls.take n)) c.cmd).1)
    ∧ (runTimed s (calls.take n)).hits = (r.run (calls.take n)).hits
    ∧ (runTimed s (calls.take n)).misses = (r.run (calls.take n)).misses

theorem run_inStepWith : ∀ (calls : List TimedCall) {t : ℕ} {s : KvEngine} {r : Ref}, Sim t s r →
    (∀ c ∈ calls, t ≤ c.t) → InOrder calls → (∀ c ∈ calls, c.cmd.NoCeiling) →
      ∀ n, InStepWith s r calls n
  | [], _, _, _, h, _, _, _, n => by
    rw [InStepWith, List.take_nil]
    exact ⟨fun c hc => (by cases hc), h.hits, h.misses⟩
  | c :: calls, t, s, r, h, ht, hord, hcs, 0 => by
    have hm := exec_matches c.clock (h.expire (ht c List.mem_cons_self)) (hcs c List.mem_cons_self)
    refine ⟨fun c' hc' => ?_, h.hits, h.misses⟩
    cases hc'
    exact hm.1
  | c :: calls, t, s, r, h, ht, hord, hcs, n + 1 => by
    have hm := exec_matches c.clock (h.expire (ht c List.mem_cons_self)) (hcs c List.mem_cons_self)
    obtain ⟨hle, hord⟩ := List.pairwise_cons.1 hord
    exact run_inStepWith calls hm.2 (fun c' hc' => hle _ (List.mem_map_of_mem hc')) hord
      (fun c' hc' => hcs c' (List.mem_cons_of_mem _ hc')) n

/-- Along every run without a memory ceiling, with sweeps anywhere, every reply and both counters
are those of the reference. -/
theorem exec_matches_reference (aof : Option (List AofRecord)) (calls : List TimedCall)
    (hord : InOrder calls) (hcs : ∀ c ∈ calls, c.cmd.NoCeiling) (n : ℕ) :
    (∀ c, calls[n]? = some c →
        SameAnswer (exec c.env (runTimed (startWith aof) (calls.take n)) c.cmd).1
          (Ref.exec c.env.float c.t (Ref.empty.run (calls.take n)) c.cmd).1)
      ∧ (runTimed (startWith aof) (calls.take n)).hits = (Ref.empty.run (calls.take n)).hits
      ∧ (runTimed (startWith aof) (calls.take n)).misses = (Ref.empty.run (calls.take n)).misses :=
  run_inStepWith calls (t := 0) ⟨rfl, rfl, rfl, fun _ => rfl⟩ (fun _ _ => Nat.zero_le _) hord hcs n

theorem zero_inRange : 0 < 2 ^ 63 := by decide

theorem twelve_inRange : 12 < 2 ^ 63 := by decide

/-- An entry that expires at `10`, is still stored when it is asked for at `12`, and is swept. -/
def lazyRun : List TimedCall :=
  [.steady 0 zero_inRange (.set [97] [118]), .steady 0 zero_inRange (.expireAtMs [97] 10),
    .steady 12 twelve_inRange (.mget [[97], [98]]), .steady 12 twelve_inRange (.sweepExpired 5)]

theorem exec_matches_reference_lazyRun :
    (exec (Env.steady 12) (runTimed (startWith none) (lazyRun.take 2)) (.mget [[97], [98]])).1
        = .ok (.values [none, none])
      ∧ (runTimed (startWith none) lazyRun).misses = 2 := by
  have hord : InOrder lazyRun := by unfold InOrder; decide
  have hcs : ∀ c ∈ lazyRun, c.cmd.NoCeiling := by
    intro c hc
    fin_cases hc <;> trivial
  constructor
  · exact (exec_matches_reference none lazyRun hord hcs 2).1 _ rfl
  · exact (exec_matches_reference none lazyRun hord hcs 4).2.2

end Run

end FerrumKv
