import FerrumKv.Proofs.Logged

/-!
# Reading back what was appended

A record is read back from its bytes, whatever follows them (`readRecord_encodeCommand`).
Replayed at clock `t` into an engine without a memory ceiling, a valid record is accepted and acts
on the view at `t` as `actAt` says (`applyRecord_parts`); so replaying the bytes of a log of valid
records succeeds and acts as `actAll` (`replay_encodeLog`).
-/

namespace FerrumKv

open KvEngine

variable {s : KvEngine} {r : AofRecord}

namespace Reader

theorem readLine_append : ∀ (ds rest : Bytes) (c : ℕ) (acc : Bytes), 13 ∉ ds →
    readLine (ds ++ 13 :: rest) c acc = (.ok (acc ++ ds), ⟨rest, c + ds.length + 1⟩)
  | [], rest, c, acc, _ => by simp [readLine]
  | d :: ds, rest, c, acc, h => by
    rw [List.mem_cons, not_or] at h
    rw [List.cons_append, readLine, if_neg (Ne.symm h.1), readLine_append ds rest _ _ h.2]
    simp only [List.append_assoc, List.singleton_append, List.length_cons, Prod.mk.injEq,
      Reader.mk.injEq, true_and]
    omega

theorem parseI64_ofNat {n : ℕ} (h : n < 2 ^ 63) :
    parseI64 (Decimal.ofNat n) = some (Int64.ofInt n) := by
  unfold parseI64
  rw [Decimal.toInt?_ofNat, Option.bind_some, if_pos]
  omega

theorem not_mem_ofNat (n : ℕ) : (13 : UInt8) ∉ Decimal.ofNat n := by
  intro h
  have := Decimal.isDigit_of_mem_ofNat h
  simp [Decimal.isDigit] at this

theorem readInteger_ofNat {n : ℕ} (h : n < 2 ^ 63) (rest : Bytes) (c : ℕ) :
    ∃ c', (⟨Decimal.ofNat n ++ crlf ++ rest, c⟩ : Reader).readInteger = (.ok (n : ℤ), ⟨rest, c'⟩) := by
  refine ⟨c + (Decimal.ofNat n).length + 1 + 1, ?_⟩
  have hn : (Int64.ofInt n).toInt = n := Int64.toInt_ofInt_of_le (by omega) (by omega)
  unfold readInteger
  simp only [crlf, List.append_assoc, List.cons_append, List.nil_append]
  rw [readLine_append _ _ _ _ (not_mem_ofNat n)]
  simp [expectByte, parseI64_ofNat h, hn]

theorem readExact_append (part rest : Bytes) (c : ℕ) :
    (⟨part ++ rest, c⟩ : Reader).readExact part.length = (.ok part, ⟨rest, c + part.length⟩) := by
  simp [readExact]

theorem readBulk_encodeBulk {part : Bytes} (h : part.length < 2 ^ 63) (rest : Bytes) (c : ℕ) :
    ∃ c', (⟨encodeBulk part ++ rest, c⟩ : Reader).readBulk = (.ok part, ⟨rest, c'⟩) := by
  have hb : encodeBulk part ++ rest
      = 36 :: (Decimal.ofNat part.length ++ crlf ++ (part ++ (13 :: 10 :: rest))) := by
    simp [encodeBulk, crlf]
  obtain ⟨c₁, h₁⟩ := readInteger_ofNat h (part ++ (13 :: 10 :: rest)) (c + 1)
  rw [hb]
  refine ⟨c₁ + part.length + 1 + 1, ?_⟩
  unfold readBulk
  simp only [expectByte, ne_eq, not_true_eq_false, if_false, h₁]
  rw [if_neg (by omega), Int.toNat_natCast, readExact_append]
  simp

theorem readBulks_flatMap : ∀ (parts : List Bytes), (∀ p ∈ parts, p.length < 2 ^ 63) →
    ∀ (rest : Bytes) (c : ℕ), ∃ c',
      readBulks parts.length ⟨parts.flatMap encodeBulk ++ rest, c⟩ = (.ok parts, ⟨rest, c'⟩)
  | [], _, rest, c => ⟨c, rfl⟩
  | part :: parts, h, rest, c => by
    obtain ⟨c₁, h₁⟩ :=
      readBulk_encodeBulk (h part List.mem_cons_self) (parts.flatMap encodeBulk ++ rest) c
    obtain ⟨c₂, h₂⟩ :=
      readBulks_flatMap parts (fun p hp => h p (List.mem_cons_of_mem _ hp)) rest c₁
    refine ⟨c₂, ?_⟩
    rw [List.length_cons, readBulks, List.flatMap_cons, List.append_assoc, h₁]
    simp only [h₂]

end Reader

/-- A record is read back from its bytes, and what follows them is left. -/
theorem readRecord_encodeCommand {parts : List Bytes} (hlen : parts.length < 2 ^ 63)
    (hparts : ∀ p ∈ parts, p.length < 2 ^ 63) (rest : Bytes) :
    readRecord (encodeCommand parts ++ rest) = (.ok (some parts), rest) := by
  have hb : encodeCommand parts ++ rest
      = 42 :: (Decimal.ofNat parts.length ++ crlf ++ (parts.flatMap encodeBulk ++ rest)) := by
    simp [encodeCommand]
  obtain ⟨c₁, h₁⟩ := Reader.readInteger_ofNat hlen (parts.flatMap encodeBulk ++ rest) 1
  obtain ⟨c₂, h₂⟩ := Reader.readBulks_flatMap parts hparts rest c₁
  rw [hb]
  unfold readRecord
  simp only [ne_eq, not_true_eq_false, if_false, h₁]
  rw [if_neg (by omega), Int.toNat_natCast, h₂]

theorem length_of_mem_parts (h : r.Valid) : ∀ p ∈ r.parts, p.length < 2 ^ 63 := by
  cases r <;> simp only [AofRecord.parts, ascii, List.forall_mem_cons, List.not_mem_nil,
    false_imp_iff, implies_true, and_true]
  case set key value =>
    obtain ⟨hk, hv⟩ := lengths_of_validatePair h
    exact ⟨by simp, by omega, by omega⟩
  case flushdb => simp
  case pexpireat key absEpochMs =>
    have hk := length_of_validateKey h
    have hn := length_i64ToString_le absEpochMs
    exact ⟨by simp, by omega, by omega⟩
  case del key | persist key =>
    have hk := length_of_validateKey h
    exact ⟨by simp, by omega⟩

theorem length_parts_lt (r : AofRecord) : r.parts.length < 2 ^ 63 := by
  cases r <;> simp [AofRecord.parts]

/-! ## The loop over accepted records -/

def encodeAll (records : List (List Bytes)) : Bytes := records.flatMap encodeCommand

def applyParts (env : Env) (s : KvEngine) (records : List (List Bytes)) : KvEngine :=
  records.foldl (fun s parts => (applyRecord env s parts).2) s

/-- Each record is accepted by the engine that the records before it leave. -/
def Accepts (env : Env) : KvEngine → List (List Bytes) → Prop
  | _, [] => True
  | s, parts :: records =>
    (applyRecord env s parts).1 = .ok () ∧ Accepts env (applyRecord env s parts).2 records

/-- What a vector of byte vectors can hold. -/
def Representable (parts : List Bytes) : Prop :=
  parts.length < 2 ^ 63 ∧ ∀ p ∈ parts, p.length < 2 ^ 63

section Loop

variable (env : Env)

/-- The loop over the bytes of accepted records applies them and goes on with what follows. -/
theorem replayLoop_encodeAll (len fuel : ℕ) : ∀ (records : List (List Bytes)) (rest : Bytes)
    (st : ReplayState), Accepts env st.engine records → (∀ parts ∈ records, Representable parts) →
      replayLoop env len (records.length + fuel) (encodeAll records ++ rest) st
        = replayLoop env len fuel rest
          { engine := applyParts env st.engine records
            stats := { st.stats with applied := st.stats.applied + records.length }
            lastGood := if records = [] then st.lastGood else len - rest.length }
  | [], rest, st, _, _ => by simp [encodeAll, applyParts]
  | parts :: records, rest, st, hacc, hrep => by
    obtain ⟨hok, hacc⟩ := hacc
    obtain ⟨hlen, hparts⟩ := hrep parts List.mem_cons_self
    have hb : encodeAll (parts :: records) ++ rest
        = encodeCommand parts ++ (encodeAll records ++ rest) := by
      simp [encodeAll]
    have hfuel : (parts :: records).length + fuel = (records.length + fuel) + 1 := by
      rw [List.length_cons]
      omega
    have hall : applyParts env st.engine (parts :: records)
        = applyParts env (applyRecord env st.engine parts).2 records := rfl
    rw [hb, hfuel, replayLoop, readRecord_encodeCommand hlen hparts, hall]
    rcases ha : applyRecord env st.engine parts with ⟨o, s'⟩
    rw [ha] at hok hacc
    simp only [] at hok hacc
    subst hok
    simp only [ha]
    rw [replayLoop_encodeAll len fuel records rest _ hacc
      fun parts' h => hrep parts' (List.mem_cons_of_mem _ h)]
    congr 1
    simp only [ReplayState.mk.injEq, List.length_cons, true_and, reduceCtorEq, if_false]
    refine ⟨by congr 1; omega, ?_⟩
    split_ifs with hl
    · subst hl
      simp [encodeAll]
    · rfl

theorem length_le_encodeAll (records : List (List Bytes)) :
    records.length ≤ (encodeAll records).length := by
  induction records with
  | nil => simp
  | cons parts records ih =>
    simp only [encodeAll, List.flatMap_cons, List.length_append, List.length_cons] at ih ⊢
    have : 0 < (encodeCommand parts).length := by simp [encodeCommand]
    omega

/-- Replaying the bytes of accepted records succeeds, applies them all and keeps the file. -/
theorem replay_encodeAll {records : List (List Bytes)}
    (hacc : Accepts env s records) (hrep : ∀ parts ∈ records, Representable parts) :
    replay env (encodeAll records) s
      = .ok ⟨applyParts env s records, { applied := records.length }, encodeAll records⟩ := by
  have hle := length_le_encodeAll records
  obtain ⟨fuel, hf⟩ : ∃ fuel, (encodeAll records).length + 1 = records.length + (fuel + 1) :=
    ⟨(encodeAll records).length - records.length, by omega⟩
  have hloop := replayLoop_encodeAll env (encodeAll records).length (fuel + 1) records []
    { engine := s } hacc hrep
  rw [List.append_nil] at hloop
  unfold replay
  rw [hf, hloop]
  simp [replayLoop, readRecord]

end Loop

section Apply

variable {env : Env} {t : ℕ}

theorem live_expireAtMs (h : env.At t) (s : KvEngine) (key : Key) (absEpochMs : Int64) (k : Key) :
    live t (s.expireAtMs env key absEpochMs).2.store k
      = (AofRecord.pexpireat key absEpochMs).actAt t k (live t s.store k) := by
  have hnow := h.now
  have hms := h.nowMs
  by_cases hk : k = key
  · subst hk
    rw [AofRecord.actAt, if_pos rfl]
    rcases expireAtMs_spec env s k absEpochMs with
      ⟨he, h⟩ | ⟨e, he, hx, h⟩ | ⟨e, he, hx, hle, h⟩ | ⟨e, he, hx, hlt, h⟩ <;> rw [h]
    · rw [live_of_lookup_none he, Option.bind_none]
    · rw [live_of_lookup he, shown_of_expired (hnow ▸ hx), Option.bind_none]
      exact live_of_lookup_none (AList.lookup_erase _ _)
    · rw [live_of_lookup he, shown_of_not_expired (hnow ▸ hx), Option.bind_some, if_pos (by omega)]
      exact live_of_lookup_none (AList.lookup_erase _ _)
    · rw [live_of_lookup he, shown_of_not_expired (hnow ▸ hx), Option.bind_some, if_neg (by omega),
        deadlined, setDeadline_of_lookup _ he]
      refine (live_of_lookup (AList.lookup_insert _)).trans ?_
      rw [shown_of_deadline t rfl, if_neg (by omega)]
      simp only [Option.some.injEq, Prod.mk.injEq, true_and]
      omega
  · rw [AofRecord.actAt, if_neg hk]
    rcases expireAtMs_spec env s key absEpochMs with
      ⟨he, h⟩ | ⟨e, he, hx, h⟩ | ⟨e, he, hx, hle, h⟩ | ⟨e, he, hx, hlt, h⟩ <;> rw [h]
    · exact (live_erase t s.store key k).trans (if_neg hk)
    · exact (live_erase t s.store key k).trans (if_neg hk)
    · rw [deadlined, setDeadline_of_lookup _ he]
      exact (live_insert t s.store key _ k).trans (if_neg hk)

theorem live_persist (h : env.At t) (s : KvEngine) (key k : Key) :
    live t (s.persist env key).2.store k
      = (AofRecord.persist key).actAt t k (live t s.store k) := by
  have hnow := h.now
  by_cases hk : k = key
  · subst hk
    rw [AofRecord.actAt, if_pos rfl]
    rcases persist_spec env s k with
      ⟨he, h⟩ | ⟨e, he, hx, h⟩ | ⟨e, he, hx, hd, h⟩ | ⟨e, he, hx, hd, h⟩ <;> rw [h]
    · rw [live_of_lookup_none he, Option.map_none]
    · rw [live_of_lookup he, shown_of_expired (hnow ▸ hx), Option.map_none]
      exact live_of_lookup_none (AList.lookup_erase _ _)
    · rw [live_of_lookup he, shown_of_not_expired (hnow ▸ hx), Option.map_some, hd]
    · rw [live_of_lookup he, shown_of_not_expired (hnow ▸ hx), Option.map_some, persisted,
        setDeadline_of_lookup _ he]
      refine (live_of_lookup (AList.lookup_insert _)).trans ?_
      rw [shown_of_no_deadline t rfl]
  · rw [AofRecord.actAt, if_neg hk]
    rcases persist_spec env s key with
      ⟨he, h⟩ | ⟨e, he, hx, h⟩ | ⟨e, he, hx, hd, h⟩ | ⟨e, he, hx, hd, h⟩ <;> rw [h]
    · exact (live_erase t s.store key k).trans (if_neg hk)
    · rw [persisted, setDeadline_of_lookup _ he]
      exact (live_insert t s.store key _ k).trans (if_neg hk)

theorem recordName_ascii :
    recordName (ascii ['S', 'E', 'T']) = .set ∧ recordName (ascii ['D', 'E', 'L']) = .del
      ∧ recordName (ascii ['F', 'L', 'U', 'S', 'H', 'D', 'B']) = .flushdb
      ∧ recordName (ascii ['P', 'E', 'X', 'P', 'I', 'R', 'E', 'A', 'T']) = .pexpireat
      ∧ recordName (ascii ['P', 'E', 'R', 'S', 'I', 'S', 'T']) = .persist := by
  decide

theorem applyRecord_set (h0 : s.eviction.maxMemory = 0) {key value : Bytes}
    (hv : validatePair key value = .ok ()) :
    applyRecord env s (AofRecord.set key value).parts
      = (.ok (), (s.appendAof [.set key value]).trackInsert key (.new (env.access 0) value)) := by
  simp only [applyRecord, AofRecord.parts, recordName_ascii, set_of_zero h0 hv]

theorem applyRecord_del (env : Env) (s : KvEngine) (key : Key) :
    applyRecord env s (AofRecord.del key).parts = (.ok (), (s.del env key).2) := by
  simp only [applyRecord, AofRecord.parts, recordName_ascii]

theorem applyRecord_flushdb (env : Env) (s : KvEngine) :
    applyRecord env s AofRecord.flushdb.parts = (.ok (), s.flushdb) := by
  simp only [applyRecord, AofRecord.parts, recordName_ascii]

theorem applyRecord_pexpireat (env : Env) (s : KvEngine) (key : Key) (absEpochMs : Int64) :
    applyRecord env s (AofRecord.pexpireat key absEpochMs).parts
      = (.ok (), (s.expireAtMs env key absEpochMs).2) := by
  simp only [applyRecord, AofRecord.parts, recordName_ascii, parseI64_i64ToString]

theorem applyRecord_persist (env : Env) (s : KvEngine) (key : Key) :
    applyRecord env s (AofRecord.persist key).parts = (.ok (), (s.persist env key).2) := by
  simp only [applyRecord, AofRecord.parts, recordName_ascii]

theorem expireAtMs_eviction (env : Env) (s : KvEngine) (key : Key) (absEpochMs : Int64) :
    (s.expireAtMs env key absEpochMs).2.eviction = s.eviction := by
  rcases expireAtMs_spec env s key absEpochMs with
    ⟨he, h⟩ | ⟨e, he, hx, h⟩ | ⟨e, he, hx, hle, h⟩ | ⟨e, he, hx, hlt, h⟩ <;> rw [h]
  · rfl
  · rfl
  · rw [deadlined, setDeadline_of_lookup _ he]
    rfl

theorem persist_eviction (env : Env) (s : KvEngine) (key : Key) :
    (s.persist env key).2.eviction = s.eviction := by
  rcases persist_spec env s key with
    ⟨he, h⟩ | ⟨e, he, hx, h⟩ | ⟨e, he, hx, hd, h⟩ | ⟨e, he, hx, hd, h⟩ <;> rw [h]
  · rfl
  · rw [persisted, setDeadline_of_lookup _ he]
    rfl

theorem applyRecord_ok (env : Env) (h0 : s.eviction.maxMemory = 0) (hr : r.Valid) :
    (applyRecord env s r.parts).1 = .ok () ∧ (applyRecord env s r.parts).2.eviction = s.eviction := by
  cases r with
  | set key value =>
    rw [applyRecord_set h0 hr]
    exact ⟨rfl, rfl⟩
  | del key =>
    rw [applyRecord_del]
    rcases del_eq env s key with h | h <;> exact ⟨rfl, by rw [h]; rfl⟩
  | flushdb =>
    rw [applyRecord_flushdb]
    exact ⟨rfl, rfl⟩
  | pexpireat key absEpochMs =>
    rw [applyRecord_pexpireat]
    exact ⟨rfl, expireAtMs_eviction env s key absEpochMs⟩
  | persist key =>
    rw [applyRecord_persist]
    exact ⟨rfl, persist_eviction env s key⟩

/-- A valid record acts on the view at the clock it is replayed at. -/
theorem live_applyRecord (h : env.At t) (h0 : s.eviction.maxMemory = 0) (hr : r.Valid) (k : Key) :
    live t (applyRecord env s r.parts).2.store k = r.actAt t k (live t s.store k) := by
  cases r with
  | set key value =>
    rw [applyRecord_set h0 hr]
    exact live_insert t s.store key _ k
  | del key =>
    rw [applyRecord_del, del_store]
    exact live_erase t s.store key k
  | flushdb =>
    rw [applyRecord_flushdb]
    rfl
  | pexpireat key absEpochMs =>
    rw [applyRecord_pexpireat]
    exact live_expireAtMs h s key absEpochMs k
  | persist key =>
    rw [applyRecord_persist]
    exact live_persist h s key k

theorem Fresh.insert {store : Store} (hf : Fresh t store) {key : Key} {e : ValueEntry}
    (he : e.isExpired t = false) : Fresh t (store.insert key e) := by
  intro k e' hl
  by_cases hk : k = key
  · subst hk
    rw [AList.lookup_insert, Option.some.injEq] at hl
    exact hl ▸ he
  · rw [AList.lookup_insert_ne hk] at hl
    exact hf k e' hl

theorem Fresh.erase {store : Store} (hf : Fresh t store) (key : Key) :
    Fresh t (store.erase key) := by
  intro k e' hl
  by_cases hk : k = key
  · subst hk
    rw [AList.lookup_erase] at hl
    cases hl
  · rw [AList.lookup_erase_ne hk] at hl
    exact hf k e' hl

theorem fresh_applyRecord (h : env.At t) (h0 : s.eviction.maxMemory = 0)
    (hr : r.Valid) (hf : Fresh t s.store) :
    Fresh t (applyRecord env s r.parts).2.store := by
  cases r with
  | set key value =>
    rw [applyRecord_set h0 hr]
    exact hf.insert rfl
  | del key =>
    rw [applyRecord_del, del_store]
    exact hf.erase key
  | flushdb =>
    rw [applyRecord_flushdb]
    intro k e hl
    cases hl
  | pexpireat key absEpochMs =>
    rw [applyRecord_pexpireat]
    rcases expireAtMs_spec env s key absEpochMs with
      ⟨he, hs⟩ | ⟨e, he, hx, hs⟩ | ⟨e, he, hx, hle, hs⟩ | ⟨e, he, hx, hlt, hs⟩ <;> rw [hs]
    · exact hf
    · exact hf.erase key
    · exact hf.erase key
    · rw [deadlined, setDeadline_of_lookup _ he]
      refine hf.insert ?_
      have hnow := h.now
      have hms := h.nowMs
      simp only [ValueEntry.isExpired, decide_eq_false_iff_not]
      omega
  | persist key =>
    rw [applyRecord_persist]
    rcases persist_spec env s key with
      ⟨he, hs⟩ | ⟨e, he, hx, hs⟩ | ⟨e, he, hx, hd, hs⟩ | ⟨e, he, hx, hd, hs⟩ <;> rw [hs]
    · exact hf
    · exact hf.erase key
    · exact hf
    · rw [persisted, setDeadline_of_lookup _ he]
      exact hf.insert rfl

/-! ## Replaying a list of records -/

theorem applyAll_eviction (env : Env) : ∀ (rs : List AofRecord) {s : KvEngine},
    s.eviction.maxMemory = 0 → (∀ r ∈ rs, r.Valid) → (applyAll env s rs).eviction = s.eviction
  | [], _, _, _ => rfl
  | r :: rs, s, h0, hv => by
    have hr := applyRecord_ok env h0 (hv r List.mem_cons_self)
    have ih := applyAll_eviction env rs (by rw [hr.2]; exact h0)
      fun r' hr' => hv r' (List.mem_cons_of_mem _ hr')
    exact ih.trans hr.2

theorem live_applyAll (h : env.At t) : ∀ (rs : List AofRecord) {s : KvEngine},
    s.eviction.maxMemory = 0 → (∀ r ∈ rs, r.Valid) →
      ∀ k, live t (applyAll env s rs).store k = actAll t rs (live t s.store) k
  | [], _, _, _, _ => rfl
  | r :: rs, s, h0, hv, k => by
    have hr := hv r List.mem_cons_self
    have ih := live_applyAll h rs (by rw [(applyRecord_ok env h0 hr).2]; exact h0)
      (fun r' hr' => hv r' (List.mem_cons_of_mem _ hr')) k
    refine ih.trans ?_
    simp only [actAll, List.foldl_cons]
    rw [live_applyRecord h h0 hr]

theorem fresh_applyAll (h : env.At t) : ∀ (rs : List AofRecord) {s : KvEngine},
    s.eviction.maxMemory = 0 → (∀ r ∈ rs, r.Valid) → Fresh t s.store →
      Fresh t (applyAll env s rs).store
  | [], _, _, _, hf => hf
  | r :: rs, s, h0, hv, hf => by
    have hr := hv r List.mem_cons_self
    exact fresh_applyAll h rs (by rw [(applyRecord_ok env h0 hr).2]; exact h0)
      (fun r' hr' => hv r' (List.mem_cons_of_mem _ hr')) (fresh_applyRecord h h0 hr hf)

theorem encodeLog_eq (log : List AofRecord) : encodeLog log = encodeAll (log.map AofRecord.parts) := by
  simp [encodeLog, encodeAll, List.flatMap_map]

theorem applyAll_eq (env : Env) (s : KvEngine) (log : List AofRecord) :
    applyAll env s log = applyParts env s (log.map AofRecord.parts) := by
  simp [applyAll, applyParts, List.foldl_map]

/-- Without a ceiling, valid records are accepted. -/
theorem accepts_parts (env : Env) : ∀ (log : List AofRecord) {s : KvEngine},
    s.eviction.maxMemory = 0 → (∀ r ∈ log, r.Valid) → Accepts env s (log.map AofRecord.parts)
  | [], _, _, _ => trivial
  | r :: log, s, h0, hv => by
    obtain ⟨hok, hev⟩ := applyRecord_ok env h0 (hv r List.mem_cons_self)
    exact ⟨hok, accepts_parts env log (by rw [hev]; exact h0)
      fun r' hr' => hv r' (List.mem_cons_of_mem _ hr')⟩

/-- Replaying the bytes of valid records succeeds, applies them all and keeps the file. -/
theorem replay_encodeLog (env : Env) (h0 : s.eviction.maxMemory = 0)
    {log : List AofRecord} (hv : ∀ r ∈ log, r.Valid) :
    replay env (encodeLog log) s
      = .ok ⟨applyAll env s log, { applied := log.length }, encodeLog log⟩ := by
  have hrep : ∀ parts ∈ log.map AofRecord.parts, Representable parts := by
    intro parts h
    obtain ⟨r, hr, rfl⟩ := List.mem_map.1 h
    exact ⟨length_parts_lt r, length_of_mem_parts (hv r hr)⟩
  rw [encodeLog_eq, applyAll_eq, replay_encodeAll env (accepts_parts env log h0 hv) hrep,
    List.length_map]

end Apply

end FerrumKv
