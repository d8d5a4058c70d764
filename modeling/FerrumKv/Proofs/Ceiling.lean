import FerrumKv.Proofs.EvictionLoop

/-!
# The memory ceiling for writes of one key

Admission charges a write the size it adds over the entry it replaces, before any eviction. If the
eviction loop then takes that very entry, the write adds its full size. So a successful write of one
key stays within the ceiling where the loop cannot take that entry: nothing has to be evicted, or the
policy cannot choose the key (`write_ceiling`).
-/

namespace FerrumKv

open KvEngine

theorem counterAfter_lt {used : ℕ} (h : used < 2 ^ 64) (delta : ℤ) :
    counterAfter used delta < 2 ^ 64 := by
  unfold counterAfter
  split_ifs
  · exact h
  · exact Nat.mod_lt _ (by decide)
  · omega

/-! ## The charge of a write -/

/-- What admission asks room for: the size of the new entry without that of the one it replaces. -/
def netSize (s : KvEngine) (key : Key) (valueLen : ℕ) : ℕ :=
  key.length + valueLen + perEntryOverhead - s.store.weightAt entryBytes key

/-- The entry that a write replaces cannot be evicted for it: the write fits as things are, or the
policy cannot choose the key, be it because there is no entry. -/
def SparesEntry (s : KvEngine) (key : Key) (valueLen : ℕ) : Prop :=
  s.fits (netSize s key valueLen) = true ∨ ¬ Selectable s key

section Charge

variable {env : Env} {s s₁ : KvEngine} {key : Key} {n : ℕ} {e : ValueEntry} {rs : List AofRecord}

theorem enforceForWrite_ok (h : s.enforceForWrite env key n = (.ok (), s₁))
    (hmax : 0 < s.eviction.maxMemory) :
    s₁.fits (netSize s key n) = true ∧ ∃ keys, Thinned s keys s₁ := by
  obtain ⟨keys, hthin, hfit, -⟩ := enforceMemoryLimit_thinned env s (netSize s key n)
  rw [show s.enforceMemoryLimit env (netSize s key n) = _ from h] at hthin hfit
  exact ⟨hfit rfl (by omega), keys, hthin⟩

theorem SparesEntry.lookup (hspare : SparesEntry s key n)
    (h : s.enforceForWrite env key n = (.ok (), s₁)) (hmax : 0 < s.eviction.maxMemory) :
    s₁.store.lookup key = s.store.lookup key := by
  rcases hspare with hfit | hsel
  · cases (enforceMemoryLimit_of_fits hfit).symm.trans h
    rfl
  · obtain ⟨-, keys, hthin⟩ := enforceForWrite_ok h hmax
    exact hthin.kept hsel

theorem charge_le (hu : s.usedMemory < 2 ^ 64)
    (h : s.enforceForWrite env key e.data.length = (.ok (), s₁))
    (hmax : 0 < s.eviction.maxMemory) (hspare : SparesEntry s key e.data.length) :
    ((s₁.appendAof rs).trackInsert key e).usedMemory ≤ s.eviction.maxMemory := by
  obtain ⟨hfit, keys, hthin⟩ := enforceForWrite_ok h hmax
  have hu₁ : s₁.usedMemory < 2 ^ 64 := hthin.used.trans_lt hu
  have hcharge : ((s₁.appendAof rs).trackInsert key e).usedMemory
      = counterAfter s₁.usedMemory (entryBytes key e - s₁.store.weightAt entryBytes key) := rfl
  have hw : s₁.store.weightAt entryBytes key = s.store.weightAt entryBytes key :=
    congrArg (fun o => (Option.map (entryBytes key) o).getD 0) (hspare.lookup h hmax)
  have hbytes : entryBytes key e = key.length + e.data.length + perEntryOverhead := rfl
  unfold fits netSize at hfit
  rw [decide_eq_true_eq, hthin.eviction] at hfit
  rw [hcharge, hw]
  unfold counterAfter
  split_ifs <;> omega

/-- Where the only key to choose is the one that is written, one eviction took it. -/
theorem evicted_alone {incoming : ℕ} (honly : ∀ k, Selectable s k → k = key)
    (hsel : Selectable s key) (h : s.enforceMemoryLimit env incoming = (.ok (), s₁))
    (hmax : 0 < s.eviction.maxMemory) (hfit : ¬ s.fits incoming = true) :
    s₁.store.lookup key = none
      ∧ s₁.usedMemory = s.usedMemory - s.store.weightAt entryBytes key := by
  have hpol : s.eviction.policy ≠ .noEviction := by
    intro hp
    have hoff := hsel.2
    unfold Offered at hoff
    rwa [hp] at hoff
  obtain ⟨keys, s', hrun, ⟨hr, hfit'⟩ | ⟨t, hr, -⟩⟩ :=
    enforceMemoryLimit_end env incoming (by omega) hpol
  · cases hr.symm.trans h
    cases hrun with
    | done => exact absurd hfit' hfit
    | @next _ t _ victim rest _ chosen _ more =>
      obtain rfl := honly _ (selectable_of_chosen (congrArg Prod.fst chosen))
      have hnone : ∀ k, ¬ Selectable (t.evictVictim victim) k := fun k hk => by
        obtain ⟨hne, hk⟩ := (selectable_evictVictim chosen k).1 hk
        exact hne (honly k hk)
      cases more with
      | done =>
        rw [evictVictim_store chosen]
        exact ⟨AList.lookup_erase _ _, evictVictim_used chosen _⟩
      | next _ chosen' => exact absurd (selectable_of_chosen (congrArg Prod.fst chosen')) (hnone _)
  · cases hr.symm.trans h

/-- A write that grows the only entry to choose exceeds the ceiling when it does not fit as things
are. -/
theorem lt_charge (h : s.enforceForWrite env key e.data.length = (.ok (), s₁))
    (hmax : 0 < s.eviction.maxMemory) (hmax' : s.eviction.maxMemory < 2 ^ 63)
    (hv : validatePair key e.data = .ok ()) (hused : s.usedMemory ≤ s.eviction.maxMemory)
    (hcounted : s.store.weightAt entryBytes key ≤ s.usedMemory)
    (honly : ∀ k, Selectable s k → k = key) (hspare : ¬ SparesEntry s key e.data.length) :
    s.eviction.maxMemory < ((s₁.appendAof rs).trackInsert key e).usedMemory := by
  obtain ⟨hfit, hsel⟩ := not_or.1 hspare
  obtain ⟨hgone, hused₁⟩ := evicted_alone honly (not_not.1 hsel) h hmax hfit
  obtain ⟨hk, hd⟩ := lengths_of_validatePair hv
  have hcharge : ((s₁.appendAof rs).trackInsert key e).usedMemory
      = counterAfter s₁.usedMemory (entryBytes key e - s₁.store.weightAt entryBytes key) := rfl
  have hexceeds := exceeds_of_not_fits hfit
  unfold netSize at hexceeds
  have hbytes : entryBytes key e = key.length + e.data.length + perEntryOverhead := rfl
  have hover : perEntryOverhead = 144 := rfl
  rw [hcharge, AList.weightAt_of_lookup_none entryBytes s₁.store hgone, hused₁]
  unfold counterAfter
  rw [if_neg (by omega), if_pos (by omega), Nat.mod_eq_of_lt (by omega)]
  omega

end Charge

/-! ## The commands -/

/-- The key that a command writes if it is a write of one key. -/
def Command.writesKey : Command → Option Key
  | .set key _ | .setNx key _ | .incrBy key _ | .incrByFloat key _ | .append key _ => some key
  | _ => none

/-- The state in which a write of one key asks for admission: an expired entry is gone. -/
def admissionState (env : Env) (s : KvEngine) : Command → KvEngine
  | .setNx key _ =>
    match s.store.lookup key with
    | some entry => if entry.isExpired env.now then s.trackRemove key else s
    | none => s
  | .incrBy key _ | .incrByFloat key _ | .append key _ => (s.readState env key).2
  | _ => s

/-- The pairs a write asks to be admitted; one that fails its own checks asks for none. -/
def requestedPairs (env : Env) (s : KvEngine) : Command → List (Key × Bytes)
  | .set key value | .setNx key value =>
    if validatePair key value = .ok () then [(key, value)] else []
  | .mset pairs => if validatePairs pairs = .ok () then pairs else []
  | .incrBy key delta =>
    let current :=
      match (s.readState env key).1 with
      | some (data, _) => parseI64 data
      | none => some 0
    if validateKey key = .ok () then
      (current.bind (checkedAdd · delta)).toList.map fun newValue => (key, i64ToString newValue)
    else []
  | .incrByFloat key delta =>
    let current :=
      match (s.readState env key).1 with
      | some (data, _) => env.float.parse data
      | none => some 0
    if validateKey key = .ok () then
      ((current.map (env.float.add · delta)).filter env.float.isFinite).toList.map fun newValue =>
        (key, env.float.render newValue)
    else []
  | .append key suffix =>
    let newValue :=
      match (s.readState env key).1 with
      | some (data, _) => data ++ suffix
      | none => suffix
    if validatePair key newValue = .ok () then [(key, newValue)] else []
  | _ => []

/-- What became of a write of `key` in `s` that asks in `t` for `pairs` to be admitted: it failed its
own checks, before or after it looked for an expired entry, or it was denied, or it was admitted and
stored the value. -/
inductive Handled (env : Env) (s t : KvEngine) (key : Key) {α : Type} :
    List (Key × Bytes) → Except FerrumError α × KvEngine → Prop
  | invalid (e : FerrumError) : Handled env s t key [] (.error e, s)
  | failed (e : FerrumError) : Handled env s t key [] (.error e, t)
  | denied {value : Bytes} {e : FerrumError} {s₁ : KvEngine}
      (h : t.enforceForWrite env key value.length = (.error e, s₁)) :
      Handled env s t key [(key, value)] (.error e, s₁)
  | stored {value : Bytes} {a : α} {s₁ : KvEngine} (rs : List AofRecord) (entry : ValueEntry)
      (h : t.enforceForWrite env key value.length = (.ok (), s₁)) (hdata : entry.data = value)
      (hv : validatePair key value = .ok ()) :
      Handled env s t key [(key, value)] (.ok a, (s₁.appendAof rs).trackInsert key entry)

section Commands

variable {env : Env} {s s' t : KvEngine} {key value : Bytes} {pairs : List (Key × Bytes)}

theorem Handled.answer {α β : Type} {x : Except FerrumError α × KvEngine}
    (h : Handled env s t key pairs x) (f : α → β) :
    Handled env s t key pairs (x.1.map f, x.2) := by
  cases h with
  | invalid e => exact .invalid e
  | failed e => exact .failed e
  | denied h => exact .denied h
  | stored rs entry h hdata hv => exact .stored rs entry h hdata hv

theorem Handled.since {α : Type} {x : Except FerrumError α × KvEngine}
    (h : Handled env t t key pairs x) : Handled env s t key pairs x := by
  cases h with
  | invalid e | failed e => exact .failed e
  | denied h => exact .denied h
  | stored rs entry h hdata hv => exact .stored rs entry h hdata hv

theorem set_handled :
    Handled env s s key (requestedPairs env s (.set key value)) (s.set env key value) := by
  unfold KvEngine.set KvEngine.insert
  cases hv : validatePair key value with
  | error e => simpa [requestedPairs, hv] using .invalid e
  | ok u =>
    simp only [requestedPairs, hv, if_true]
    rcases he : s.enforceForWrite env key value.length with ⟨e | u, s₁⟩
    · exact .denied he
    · exact .stored _ _ he rfl hv

theorem insertAbsent_handled (hv : validatePair key value = .ok ()) :
    Handled env s s key [(key, value)] (insertNx.insertAbsent env key value s) := by
  unfold insertNx.insertAbsent
  rcases he : s.enforceForWrite env key value.length with ⟨e | u, s₁⟩
  · exact .denied he
  · exact .stored _ _ he rfl hv

theorem setNx_handled (hins : (s.setNx env key value).1 ≠ .ok false) :
    Handled env s (admissionState env s (.setNx key value)) key
      (requestedPairs env s (.setNx key value)) (s.setNx env key value) := by
  unfold setNx insertNx at hins ⊢
  cases hv : validatePair key value with
  | error e => simpa [requestedPairs, hv] using .invalid e
  | ok u =>
    simp only [requestedPairs, admissionState, hv, if_true] at hins ⊢
    cases hl : s.store.lookup key with
    | none => exact insertAbsent_handled hv
    | some entry =>
      simp only [hl] at hins ⊢
      split_ifs at hins ⊢
      · exact (insertAbsent_handled hv).since
      · exact absurd rfl hins

theorem insertKeepTtl_handled {α : Type} (env : Env) (s : KvEngine) (ttl : Option ℕ) (a : α)
    (hv : validatePair key value = .ok ()) :
    Handled env s s key [(key, value)]
      (match s.insertKeepTtl env key value ttl with
        | (.error e, s) => (.error e, s)
        | (.ok (), s) => (.ok a, s)) := by
  unfold insertKeepTtl
  rcases he : s.enforceForWrite env key value.length with ⟨e | u, s₁⟩
  · exact .denied he
  · exact .stored _ _ he rfl hv

theorem incrBy_store_handled {delta : Int64} (hk : validateKey key = .ok ()) (current : Int64)
    (ttl : Option ℕ) :
    Handled env s s key
      ((checkedAdd current delta).toList.map fun newValue => (key, i64ToString newValue))
      (incrBy.store env key delta s current ttl) := by
  unfold incrBy.store
  cases checkedAdd current delta with
  | none => exact .failed _
  | some newValue =>
    exact insertKeepTtl_handled env s ttl newValue
      (validatePair_ok hk (validateValue_i64ToString newValue))

theorem incrBy_handled {delta : Int64} :
    Handled env s (s.readState env key).2 key (requestedPairs env s (.incrBy key delta))
      (s.incrBy env key delta) := by
  unfold incrBy
  cases hk : validateKey key with
  | error e => simpa [requestedPairs, hk] using .invalid e
  | ok u =>
    simp only [requestedPairs, hk, if_true]
    rcases s.readState env key with ⟨_ | ⟨data, ttl⟩, t⟩
    · exact (incrBy_store_handled hk 0 none).since
    · cases hp : parseI64 data with
      | none => simpa [hp] using .failed _
      | some n => simpa [hp] using (incrBy_store_handled hk n ttl).since

theorem incrByFloat_store_handled {delta : UInt64} (hk : validateKey key = .ok ())
    (current : UInt64) (ttl : Option ℕ) :
    Handled env s s key
      (((some (env.float.add current delta)).filter env.float.isFinite).toList.map fun newValue =>
        (key, env.float.render newValue)) (incrByFloat.store env key delta s current ttl) := by
  unfold incrByFloat.store
  cases hfin : env.float.isFinite (env.float.add current delta) with
  | false => simpa [Option.filter_some, hfin] using .failed _
  | true =>
    simp only [Option.filter_some, hfin, if_true]
    exact insertKeepTtl_handled env s ttl _
      (validatePair_ok hk (validateValue_of_le (env.float.render_length _)))

theorem incrByFloat_handled {delta : UInt64} :
    Handled env s (s.readState env key).2 key (requestedPairs env s (.incrByFloat key delta))
      (s.incrByFloat env key delta) := by
  unfold incrByFloat
  cases hk : validateKey key with
  | error e => simpa [requestedPairs, hk] using .invalid e
  | ok u =>
    simp only [requestedPairs, hk, if_true]
    rcases s.readState env key with ⟨_ | ⟨data, ttl⟩, t⟩
    · exact (incrByFloat_store_handled hk 0 none).since
    · cases hp : env.float.parse data with
      | none => simpa [hp] using .failed _
      | some n => simpa [hp] using (incrByFloat_store_handled hk n ttl).since

theorem append_store_handled (hk : validateKey key = .ok ()) (ttl : Option ℕ) :
    Handled env s s key (if validatePair key value = .ok () then [(key, value)] else [])
      (append.store env key s value ttl) := by
  unfold append.store
  cases hv : validateValue value with
  | error e => simpa [validatePair, hk, hv] using .failed e
  | ok u =>
    rw [if_pos (validatePair_ok hk hv)]
    exact insertKeepTtl_handled env s ttl value.length (validatePair_ok hk hv)

theorem append_handled {suffix : Bytes} :
    Handled env s (s.readState env key).2 key (requestedPairs env s (.append key suffix))
      (s.append env key suffix) := by
  unfold KvEngine.append
  cases hk : validateKey key with
  | error e => simpa [requestedPairs, validatePair, hk] using .invalid e
  | ok u =>
    simp only [requestedPairs]
    rcases s.readState env key with ⟨_ | ⟨data, ttl⟩, t⟩
    · exact (append_store_handled hk none).since
    · exact (append_store_handled hk ttl).since

/-- Every write of one key is handled, unless a `SETNX` finds the key there. -/
theorem exec_handled {cmd : Command} (hkey : cmd.writesKey = some key)
    (hins : (exec env s cmd).1 ≠ .ok (.flag false)) :
    Handled env s (admissionState env s cmd) key (requestedPairs env s cmd) (exec env s cmd) := by
  cases cmd with
  | set key' value =>
    cases hkey
    exact set_handled.answer _
  | setNx key' value =>
    cases hkey
    refine (setNx_handled fun h => hins ?_).answer _
    simp only [exec, answer, h, Except.map]
  | incrBy key' delta =>
    cases hkey
    exact incrBy_handled.answer _
  | incrByFloat key' delta =>
    cases hkey
    exact incrByFloat_handled.answer _
  | append key' suffix =>
    cases hkey
    exact append_handled.answer _
  | _ => cases hkey

theorem answer_ok {α : Type} {f : α → Reply} {x : Except FerrumError α × KvEngine} {r : Reply}
    (h : answer f x = (.ok r, s')) : ∃ a, x = (.ok a, s') ∧ f a = r := by
  obtain ⟨o, t⟩ := x
  cases o with
  | error e => cases h
  | ok a =>
    simp only [answer, Except.map, Prod.mk.injEq, Except.ok.injEq] at h
    exact ⟨a, by rw [h.2], h.1⟩

/-- A write asks for admission where it began, or with an expired entry of its key removed. -/
theorem admissionState_cases (env : Env) (s : KvEngine) (cmd : Command) :
    admissionState env s cmd = s
      ∨ ∃ key e, s.store.lookup key = some e ∧ e.isExpired env.now = true
        ∧ (admissionState env s cmd = s.trackRemove key
          ∨ admissionState env s cmd = s.dropExpired key) := by
  have hread : ∀ key, (s.readState env key).2 = s
      ∨ ∃ key' e, s.store.lookup key' = some e ∧ e.isExpired env.now = true
        ∧ ((s.readState env key).2 = s.trackRemove key'
          ∨ (s.readState env key).2 = s.dropExpired key') := by
    intro key
    unfold readState
    split
    · rename_i e hl
      split_ifs with hx
      · exact .inr ⟨key, e, hl, hx, .inr rfl⟩
      · exact .inl rfl
    · exact .inl rfl
  cases cmd with
  | setNx key value =>
    simp only [admissionState]
    split
    · rename_i e hl
      split_ifs with hx
      · exact .inr ⟨key, e, hl, hx, .inl rfl⟩
      · exact .inl rfl
    · exact .inl rfl
  | incrBy key delta => exact hread key
  | incrByFloat key delta => exact hread key
  | append key suffix => exact hread key
  | _ => exact .inl rfl

theorem admissionState_frame (env : Env) (s : KvEngine) (cmd : Command) :
    (admissionState env s cmd).eviction = s.eviction
      ∧ (s.usedMemory < 2 ^ 64 → (admissionState env s cmd).usedMemory < 2 ^ 64) := by
  rcases admissionState_cases env s cmd with h | ⟨key, e, -, -, h | h⟩ <;> rw [h]
  · exact ⟨rfl, id⟩
  · exact ⟨rfl, fun hu => counterAfter_lt hu _⟩
  · exact ⟨rfl, fun hu => counterAfter_lt hu _⟩

end Commands

end FerrumKv
