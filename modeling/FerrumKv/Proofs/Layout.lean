import FerrumKv.Layout
import FerrumKv.Proofs.Decoders

/-!
# Replaying an arbitrary file

Every file has a layout (`exists_layout`): what is malformed is known from its own bytes
(`Reader.Spoils`), so the loop reads on behind it. Replaying therefore ends on every file
(`replayLoop_ends`).
-/

namespace FerrumKv

variable {parts : List Bytes} {regions : List Region} {b rest : Bytes} {taken : Bytes}

namespace Reader

/-- A reading that found its input malformed rests on the bytes it took, and counts them. -/
def Spoils {α : Type} (f : Reader → Except ReadError α × Reader) : Prop :=
  ∀ r why c r', f r = (.error (.malformed why c), r') →
    ∃ l, r.rest = l ++ r'.rest ∧ c = r.consumed + l.length ∧
      ∀ rest, f ⟨l ++ rest, r.consumed⟩ = (.error (.malformed why c), ⟨rest, c⟩)

section Spoils

variable {α β : Type} {f : Reader → Except ReadError α × Reader}
  {g : α → Reader → Except ReadError β × Reader} {L : α → Bytes → Prop}

theorem spoils_of_ne (h : ∀ r why c, (f r).1 ≠ .error (.malformed why c)) : Spoils f := by
  intro r why c r' hr
  exact absurd (congrArg Prod.fst hr) (h r why c)

theorem spoils_fault (why : Malformed) :
    Spoils fun r => ((.error (.malformed why r.consumed) : Except ReadError α), r) := by
  intro r why' c r' h
  cases h
  exact ⟨[], rfl, rfl, fun _ => rfl⟩

theorem Spoils.ite {p : Prop} [Decidable p] {f' : Reader → Except ReadError α × Reader}
    (hf : Spoils f) (hf' : Spoils f') : Spoils fun r => if p then f r else f' r := by
  by_cases hp : p
  · simpa only [hp, if_true] using hf
  · simpa only [hp, if_false] using hf'

theorem Spoils.andThen (hL : Reads f L) (hf : Spoils f) (hg : ∀ a, Spoils (g a)) :
    Spoils (Reader.andThen f g) := by
  intro r why c r' h
  rcases hr : f r with ⟨e | a, mid⟩
  · rw [andThen_error hr] at h
    cases h
    obtain ⟨l, hrest, hc, hmore⟩ := hf r why c r' hr
    exact ⟨l, hrest, hc, fun rest => andThen_error (hmore rest)⟩
  · rw [andThen_ok hr] at h
    obtain ⟨l₁, hl₁, hrest₁, hcount⟩ := (hL r a mid).1 hr
    obtain ⟨l₂, hrest₂, hc, hmore⟩ := hg a mid why c r' h
    refine ⟨l₁ ++ l₂, ?_, ?_, fun rest => ?_⟩
    · rw [hrest₁, hrest₂, List.append_assoc]
    · rw [hc, hcount, List.length_append, Nat.add_assoc]
    · have hfirst := (hL ⟨l₁ ++ l₂ ++ rest, r.consumed⟩ a ⟨l₂ ++ rest, mid.consumed⟩).2
        ⟨l₁, hl₁, List.append_assoc _ _ _, hcount⟩
      rw [andThen_ok hfirst]
      exact hmore rest

end Spoils

theorem spoils_expectByte : Spoils expectByte := by
  refine spoils_of_ne fun r why c h => ?_
  unfold expectByte at h
  rcases hr : r.rest with _ | ⟨b, rest⟩ <;> rw [hr] at h <;> cases h

theorem spoils_readExact (len : ℕ) : Spoils fun r => r.readExact len := by
  refine spoils_of_ne fun r why c h => ?_
  simp only [readExact] at h
  split_ifs at h
  cases h

theorem readLine_ne_malformed : ∀ (rest : Bytes) (n : ℕ) (acc : Bytes) (why : Malformed) (c : ℕ),
    (readLine rest n acc).1 ≠ .error (.malformed why c)
  | [], n, acc, why, c => nofun
  | b :: rest, n, acc, why, c => by
    rw [readLine]
    split_ifs
    · intro h
      cases h
    · exact readLine_ne_malformed rest _ _ why c

theorem spoils_readInteger : Spoils readInteger := by
  rw [readInteger_eq]
  refine .andThen reads_readLine (spoils_of_ne fun r => readLine_ne_malformed r.rest r.consumed [])
    fun number => .andThen reads_expectByte spoils_expectByte fun lf => .ite (spoils_fault _) ?_
  rcases parseI64 number with _ | v
  · exact spoils_fault _
  · exact spoils_of_ne fun r => nofun

theorem spoils_readBulk : Spoils readBulk := by
  rw [readBulk_eq]
  refine .andThen reads_expectByte spoils_expectByte fun marker => .ite (spoils_fault _) ?_
  refine .andThen reads_readInteger spoils_readInteger fun len => .ite (spoils_fault _) ?_
  refine .andThen (reads_readExact _) (spoils_readExact _) fun buf => ?_
  refine .andThen reads_expectByte spoils_expectByte fun cr => ?_
  exact .andThen reads_expectByte spoils_expectByte fun lf =>
    .ite (spoils_fault _) (spoils_of_ne fun r => nofun)

theorem spoils_readBulks : ∀ n, Spoils (readBulks n)
  | 0 => spoils_of_ne fun r => nofun
  | n + 1 => by
    rw [readBulks_succ]
    exact .andThen reads_readBulk spoils_readBulk fun part =>
      .andThen (reads_readBulks n) (spoils_readBulks n) fun parts => spoils_of_ne fun r => nofun

theorem spoils_readBody (first : UInt8) : Spoils (readBody first) := by
  refine .ite (spoils_fault _) ?_
  refine .andThen reads_readInteger spoils_readInteger fun len => .ite (spoils_fault _) ?_
  exact .andThen (reads_readBulks _) (spoils_readBulks _) fun parts => spoils_of_ne fun r => nofun

end Reader

/-- What was found malformed is so by the bytes that were taken. -/
theorem isDamage_of_readRecord {why : Malformed} {c : ℕ}
    (h : readRecord b = (.error (.malformed why c), rest)) :
    ∃ taken, b = taken ++ rest ∧ taken.length = c ∧ taken ≠ [] ∧
      ∀ rest, readRecord (taken ++ rest) = (.error (.malformed why c), rest) := by
  rcases b with _ | ⟨first, b⟩
  · cases h
  rw [readRecord_cons] at h
  rcases hr : Reader.readBody first ⟨b, 1⟩ with ⟨res, r'⟩
  rw [hr] at h
  simp only [Prod.mk.injEq] at h
  obtain ⟨rfl, rfl⟩ := h
  obtain ⟨l, hrest, hc, hmore⟩ := Reader.spoils_readBody first _ why c r' hr
  refine ⟨first :: l, by rw [List.cons_append, ← hrest], ?_, List.cons_ne_nil _ _, fun rest => ?_⟩
  · simp only [List.length_cons, hc]
    omega
  · rw [List.cons_append, readRecord_cons, hmore]

theorem isRecord_of_readRecord (h : readRecord b = (.ok (some parts), rest)) :
    ∃ taken, b = taken ++ rest ∧ taken ≠ [] ∧ IsRecord parts taken := by
  obtain ⟨l, hframe, hb⟩ := readRecord_iff.1 h
  refine ⟨l, hb, ?_, fun rest => readRecord_iff.2 ⟨l, hframe, rfl⟩⟩
  obtain ⟨v, line, elements, -, -, -, rfl⟩ := hframe
  exact List.cons_ne_nil _ _

theorem readRecord_end (h : readRecord b = (.ok none, rest)) : b = [] := by
  rcases b with _ | ⟨first, b⟩
  · rfl
  rw [readRecord_cons] at h
  rcases hr : Reader.readBody first ⟨b, 1⟩ with ⟨res, r'⟩
  rw [hr] at h
  simp only [Prod.mk.injEq] at h
  obtain ⟨rfl, -⟩ := h
  obtain ⟨l, ⟨-, parts, hparts, -⟩, -⟩ := (Reader.reads_readBody first _ _ _).1 hr
  cases hparts

theorem pos_of_unexpectedEof {c : ℕ}
    (h : readRecord b = (.error (.unexpectedEof c), rest)) : 0 < c := by
  rcases b with _ | ⟨first, b⟩
  · cases h
  rw [readRecord_cons] at h
  exact (Reader.readBody_streams first).eof ⟨b, 1⟩ c (congrArg Prod.fst h)

/-! ## Layouts -/

theorem dropWhile_skipped {skipped : Bytes} (h : 42 ∉ skipped) (rest : Bytes) :
    (skipped ++ rest).dropWhile (· ≠ 42) = rest.dropWhile (· ≠ 42) := by
  refine List.dropWhile_append_of_pos fun b hb => ?_
  simpa using ne_of_mem_of_not_mem hb h

theorem resyncToNextArray_star {skipped : Bytes} (h : 42 ∉ skipped) (rest : Bytes) :
    resyncToNextArray (skipped ++ 42 :: rest) = (true, 42 :: rest) := by
  unfold resyncToNextArray
  rw [dropWhile_skipped h]
  rfl

theorem resyncToNextArray_lost {skipped : Bytes} (h : 42 ∉ skipped) :
    resyncToNextArray skipped = (false, []) := by
  have hdrop := dropWhile_skipped h []
  rw [List.append_nil] at hdrop
  unfold resyncToNextArray
  rw [hdrop]
  rfl

theorem exists_layout (file : Bytes) : ∃ regions tail, Layout file regions tail := by
  rcases hr : readRecord file with ⟨(c | ⟨why, c⟩) | _ | parts, rest⟩
  · refine ⟨[], file, .unfinished ?_ hr⟩
    rintro rfl
    cases hr
  · obtain ⟨taken, rfl, rfl, hne, hmore⟩ := isDamage_of_readRecord hr
    by_cases hstar : 42 ∈ rest
    · obtain ⟨skipped, rest', rfl, hskip⟩ := List.eq_append_cons_of_mem hstar
      obtain ⟨regions, tail, next⟩ := exists_layout (42 :: rest')
      refine ⟨.damaged taken skipped :: regions, tail, ?_⟩
      rw [← List.append_assoc]
      exact .damaged ⟨why, hmore⟩ hskip next
    · exact ⟨[], _, .lost ⟨why, hmore⟩ hstar⟩
  · obtain rfl := readRecord_end hr
    exact ⟨[], [], .ended⟩
  · obtain ⟨taken, rfl, hne, hrecord⟩ := isRecord_of_readRecord hr
    obtain ⟨regions, tail, next⟩ := exists_layout rest
    exact ⟨_, tail, .record hrecord next⟩
termination_by file.length
decreasing_by
  all_goals
    have := List.length_pos_iff.2 hne
    subst_vars
    simp only [List.length_append]
    omega

theorem Layout.bytes {file tail : Bytes} (h : Layout file regions tail) :
    file = regionBytes regions ++ tail := by
  induction h with
  | ended => rfl
  | unfinished => rfl
  | lost => rfl
  | record _ _ ih => simp [regionBytes, Region.bytes, ih]
  | damaged _ _ _ ih => simp [regionBytes, Region.bytes, ih]

theorem IsRecord.ne_nil (h : IsRecord parts taken) :
    taken ≠ [] := by
  rintro rfl
  cases h []

theorem IsDamage.ne_nil (h : IsDamage taken) : taken ≠ [] := by
  obtain ⟨why, h⟩ := h
  rintro rfl
  cases h []

section Records

variable {env : Env} {s : KvEngine} {parts : List Bytes}

theorem applyRecord_of_asRecord {r : AofRecord} (h : asRecord parts = some r) :
    applyRecord env s parts = applyRecord env s r.parts := by
  rcases parts with _ | ⟨cmd, args⟩
  · cases h
  unfold asRecord at h
  unfold applyRecord
  rcases hn : recordName cmd <;> rcases args with _ | ⟨a, _ | ⟨b, _ | ⟨c, args⟩⟩⟩ <;>
    simp only [hn] at h ⊢ <;> try cases h
  · simp [AofRecord.parts, recordName_ascii]
  · simp [AofRecord.parts, recordName_ascii]
  · simp [AofRecord.parts, recordName_ascii]
  · obtain ⟨absMs, hts, rfl⟩ := Option.map_eq_some_iff.1 h
    simp [AofRecord.parts, hts, parseI64_i64ToString, recordName_ascii]
  · simp [AofRecord.parts, recordName_ascii]

theorem applyRecord_of_none (env : Env) (s : KvEngine) (h : asRecord parts = none) :
    ∃ e, (∀ e', e ≠ .engine e') ∧ applyRecord env s parts = (.error e, s) := by
  rcases parts with _ | ⟨cmd, args⟩
  · exact ⟨.arity [], nofun, rfl⟩
  unfold asRecord at h
  unfold applyRecord
  rcases hn : recordName cmd <;> rcases args with _ | ⟨a, _ | ⟨b, _ | ⟨c, args⟩⟩⟩ <;>
    simp only [hn] at h ⊢ <;> try cases h
  all_goals first
    | exact ⟨.arity cmd, nofun, rfl⟩
    | exact ⟨.unknown cmd, nofun, rfl⟩
    | (rw [Option.map_eq_none_iff] at h
       rw [h]
       exact ⟨.arity cmd, nofun, rfl⟩)

theorem insert_refused {key value : Bytes} {e : FerrumError}
    (h : KvEngine.validatePair key value = .error e) : s.set env key value = (.error e, s) := by
  unfold KvEngine.set KvEngine.insert
  rw [h]

theorem applyRecord_of_ne_set {r : AofRecord} (h : ∀ key value, r ≠ .set key value) :
    (applyRecord env s r.parts).1 = .ok () := by
  rcases r with ⟨key, value⟩ | key | _ | ⟨key, absMs⟩ | key
  · exact absurd rfl (h key value)
  · rw [applyRecord_del]
  · rw [applyRecord_flushdb]
  · rw [applyRecord_pexpireat]
  · rw [applyRecord_persist]

theorem applyRecord_set_refused {key value : Bytes} {e : FerrumError}
    (h : KvEngine.validatePair key value = .error e) :
    applyRecord env s (AofRecord.set key value).parts = (.error (.engine e), s) := by
  simp only [applyRecord, AofRecord.parts, recordName_ascii, insert_refused h]

theorem applyRecord_refused (env : Env) (h0 : s.eviction.maxMemory = 0) :
    (∃ e, (applyRecord env s parts).1 = .error (.engine e)) ↔ ¬Usable parts := by
  by_cases hset : ∃ key value, asRecord parts = some (.set key value)
  · obtain ⟨key, value, hr⟩ := hset
    have husable : Usable parts ↔ KvEngine.validatePair key value = .ok () := by
      refine ⟨fun hu => hu key value hr, fun hv k v h => ?_⟩
      rw [hr] at h
      cases h
      exact hv
    rw [husable, applyRecord_of_asRecord hr]
    rcases hv : KvEngine.validatePair key value with e | u
    · rw [applyRecord_set_refused hv]
      exact ⟨fun _ => by simp, fun _ => ⟨e, rfl⟩⟩
    · rw [applyRecord_set h0 hv]
      refine ⟨fun ⟨e, he⟩ => ?_, fun hne => absurd rfl hne⟩
      cases he
  · have husable : Usable parts := fun key value h => absurd ⟨key, value, h⟩ hset
    refine ⟨fun ⟨e, he⟩ => ?_, fun hne => absurd husable hne⟩
    rcases hr : asRecord parts with _ | r
    · obtain ⟨e', he', happly⟩ := applyRecord_of_none env s hr
      rw [happly] at he
      cases he
      exact absurd rfl (he' e)
    · have hne : ∀ key value, r ≠ .set key value := by
        rintro key value rfl
        exact hset ⟨key, value, hr⟩
      rw [applyRecord_of_asRecord hr, applyRecord_of_ne_set hne] at he
      cases he

theorem applyRecord_eviction (h0 : s.eviction.maxMemory = 0) :
    (applyRecord env s parts).2.eviction = s.eviction := by
  rcases hr : asRecord parts with _ | r
  · obtain ⟨e, -, happly⟩ := applyRecord_of_none env s hr
    rw [happly]
  rw [applyRecord_of_asRecord hr]
  rcases r with ⟨key, value⟩ | key | _ | ⟨key, absMs⟩ | key
  · rcases hv : KvEngine.validatePair key value with e | u
    · rw [applyRecord_set_refused hv]
    · rw [applyRecord_set h0 hv]
      rfl
  · rw [applyRecord_del]
    rcases del_eq env s key with h | h <;> rw [h] <;> rfl
  · rw [applyRecord_flushdb]
    rfl
  · rw [applyRecord_pexpireat]
    exact expireAtMs_eviction env s key absMs
  · rw [applyRecord_persist]
    exact persist_eviction env s key

end Records

section Rounds

variable {env : Env} {len : ℕ} {st : ReplayState}

theorem replayLoop_succ (env : Env) (len fuel : ℕ) (rest : Bytes) (st : ReplayState) :
    replayLoop env len (fuel + 1) rest st
      = match replayRound env len rest st with
        | .again rest st => replayLoop env len fuel rest st
        | .stop res => res := by
  rw [replayLoop]
  unfold replayRound
  rcases readRecord rest with ⟨(c | ⟨why, c⟩) | _ | parts, rest'⟩
  · simp only []
    split_ifs <;> rfl
  · simp only []
    rcases resyncToNextArray rest' with ⟨_ | _, rest''⟩ <;> rfl
  · rfl
  · simp only []
    rcases applyRecord env st.engine parts with ⟨(_ | _ | e) | _, engine⟩ <;> rfl

theorem replayRound_unfinished {tail rest : Bytes} {c : ℕ}
    (h : readRecord tail = (.error (.unexpectedEof c), rest)) :
    replayRound env len tail st
      = .stop (.ok { st with stats := { st.stats with truncatedTail := true } }) := by
  unfold replayRound
  rw [h]
  exact if_pos (pos_of_unexpectedEof h)

theorem replayRound_lost {taken skipped : Bytes} (h : IsDamage taken) (hskip : 42 ∉ skipped) :
    replayRound env len (taken ++ skipped) st
      = .stop (.ok { st with
          stats := { st.stats with skipped := st.stats.skipped + 1, truncatedTail := true } }) := by
  obtain ⟨why, hread⟩ := h
  unfold replayRound
  rw [hread]
  simp only [resyncToNextArray_lost hskip]

theorem replayRound_damaged {taken skipped : Bytes} (h : IsDamage taken) (hskip : 42 ∉ skipped)
    (rest : Bytes) :
    replayRound env len (taken ++ skipped ++ 42 :: rest) st
      = .again (42 :: rest) { st with
          stats := { st.stats with skipped := st.stats.skipped + 1 }
          lastGood := st.lastGood + taken.length } := by
  obtain ⟨why, hread⟩ := h
  unfold replayRound
  rw [List.append_assoc, hread]
  simp only [resyncToNextArray_star hskip]

/-- A record that the engine does not refuse is applied or skipped, and the good part of the file ends
behind it. -/
theorem replayRound_record (len : ℕ) (h : IsRecord parts taken)
    (hok : ¬∃ e, (applyRecord env st.engine parts).1 = .error (.engine e)) (rest : Bytes) :
    ∃ stats, stats.truncatedTail = st.stats.truncatedTail ∧
      replayRound env len (taken ++ rest) st
        = .again rest ⟨(applyRecord env st.engine parts).2, stats, len - rest.length⟩ := by
  unfold replayRound
  rw [h]
  simp only []
  rcases ha : applyRecord env st.engine parts with ⟨(cmd | cmd | e) | u, engine⟩
  · exact ⟨{ st.stats with skipped := st.stats.skipped + 1 }, rfl, rfl⟩
  · exact ⟨{ st.stats with skipped := st.stats.skipped + 1 }, rfl, rfl⟩
  · rw [ha] at hok
    exact absurd ⟨e, rfl⟩ hok
  · exact ⟨{ st.stats with applied := st.stats.applied + 1 }, rfl, rfl⟩

theorem replayRound_refused (h : IsRecord parts taken)
    {e : FerrumError} (he : (applyRecord env st.engine parts).1 = .error (.engine e)) (rest : Bytes) :
    replayRound env len (taken ++ rest) st = .stop (.error e) := by
  unfold replayRound
  rw [h]
  simp only []
  rcases ha : applyRecord env st.engine parts with ⟨res, engine⟩
  rw [ha] at he
  simp only [] at he
  subst he
  rfl

theorem replayRound_shorter {rest rest' : Bytes} {st' : ReplayState}
    (h : replayRound env len rest st = .again rest' st') : rest'.length < rest.length := by
  rcases hr : readRecord rest with ⟨(c | ⟨why, c⟩) | _ | parts, rest₁⟩
  · rw [replayRound_unfinished hr] at h
    cases h
  · obtain ⟨taken, rfl, rfl, hne, hmore⟩ := isDamage_of_readRecord hr
    have := List.length_pos_iff.2 hne
    by_cases hstar : 42 ∈ rest₁
    · obtain ⟨skipped, rest₂, rfl, hskip⟩ := List.eq_append_cons_of_mem hstar
      rw [← List.append_assoc, replayRound_damaged ⟨why, hmore⟩ hskip] at h
      cases h
      simp only [List.length_append, List.length_cons]
      omega
    · rw [replayRound_lost ⟨why, hmore⟩ hstar] at h
      cases h
  · unfold replayRound at h
    rw [hr] at h
    cases h
  · obtain ⟨taken, rfl, hne, hrecord⟩ := isRecord_of_readRecord hr
    have := List.length_pos_iff.2 hne
    by_cases hok : ∃ e, (applyRecord env st.engine parts).1 = .error (.engine e)
    · obtain ⟨e, he⟩ := hok
      rw [replayRound_refused hrecord he] at h
      cases h
    · obtain ⟨stats, -, hagain⟩ := replayRound_record len hrecord hok rest₁
      rw [hagain] at h
      cases h
      rw [List.length_append]
      omega

theorem replayLoop_ends (env : Env) (len : ℕ) (rest : Bytes) (st : ReplayState) :
    ∃ buffers res, ReplayLoop env len rest st buffers res := by
  rcases h : replayRound env len rest st with ⟨rest', st'⟩ | res
  · have := replayRound_shorter h
    obtain ⟨buffers, res, next⟩ := replayLoop_ends env len rest' st'
    exact ⟨_, res, .again h next⟩
  · exact ⟨_, res, .stop h⟩
termination_by rest.length

/-- The bound of the model on the rounds is never reached. -/
theorem ReplayLoop.eq {rest : Bytes} {buffers : List ℕ} {res : Except FerrumError ReplayState}
    (h : ReplayLoop env len rest st buffers res) :
    ∀ {fuel}, rest.length < fuel → replayLoop env len fuel rest st = res := by
  induction h with
  | stop h =>
    intro fuel hfuel
    obtain ⟨fuel, rfl⟩ := Nat.exists_eq_succ_of_ne_zero (Nat.ne_zero_of_lt hfuel)
    rw [replayLoop_succ, h]
  | again h next ih =>
    intro fuel hfuel
    obtain ⟨fuel, rfl⟩ := Nat.exists_eq_succ_of_ne_zero (Nat.ne_zero_of_lt hfuel)
    have := replayRound_shorter h
    rw [replayLoop_succ, h]
    exact ih (by omega)

theorem ReplayLoop.unique {rest : Bytes} {b b' : List ℕ} {r r' : Except FerrumError ReplayState}
    (h : ReplayLoop env len rest st b r) (h' : ReplayLoop env len rest st b' r') :
    b = b' ∧ r = r' := by
  induction h generalizing b' r' with
  | stop h =>
    rcases h' with h' | ⟨h', -⟩ <;> rw [h] at h' <;> cases h'
    exact ⟨rfl, rfl⟩
  | again h next ih =>
    rcases h' with h' | ⟨h', next'⟩ <;> rw [h] at h' <;> cases h'
    obtain ⟨rfl, rfl⟩ := ih next'
    exact ⟨rfl, rfl⟩

def finishReplay (file : Bytes) (st : ReplayState) : Replayed :=
  ⟨st.engine, st.stats, if st.stats.truncatedTail then file.take st.lastGood else file⟩

theorem replay_of_loop {file : Bytes} {s : KvEngine} {buffers : List ℕ}
    {res : Except FerrumError ReplayState}
    (h : ReplayLoop env file.length file { engine := s } buffers res) :
    replay env file s = res.map (finishReplay file) := by
  unfold replay
  rw [h.eq (Nat.lt_succ_self _)]
  rcases res with e | st <;> rfl

end Rounds

/-- The bytes are an array whose next element, after some complete ones, is declared to have `n`
bytes. -/
def Declares (rest : Bytes) (n : ℕ) : Prop :=
  ∃ count line parts elements v header more, IsLine count line ∧ (parts.length : ℤ) < count.toInt
    ∧ AreBulks parts elements ∧ IsLine v header ∧ v.toInt = n
    ∧ rest = 42 :: (line ++ (elements ++ 36 :: (header ++ more)))

namespace Reader

theorem bulkBuffer_iff {r : Reader} {n : ℕ} :
    r.bulkBuffer = some n ↔
      ∃ v header more, IsLine v header ∧ v.toInt = n ∧ r.rest = 36 :: (header ++ more) := by
  unfold bulkBuffer
  constructor
  · intro h
    rcases hb : r.expectByte with ⟨_ | marker, r₁⟩ <;> rw [hb] at h
    · cases h
    simp only [] at h
    split_ifs at h with hmarker
    rcases hi : r₁.readInteger with ⟨_ | len, r₂⟩ <;> rw [hi] at h
    · cases h
    simp only [] at h
    split_ifs at h with hneg
    cases h
    obtain ⟨_, rfl, hrest₁, -⟩ := (reads_expectByte r marker r₁).1 hb
    obtain ⟨header, ⟨v, hv, rfl⟩, hrest₂, -⟩ := (reads_readInteger r₁ len r₂).1 hi
    refine ⟨v, header, r₂.rest, hv, by omega, ?_⟩
    rw [hrest₁, hrest₂, not_not.1 hmarker]
    rfl
  · rintro ⟨v, header, more, hv, hn, hrest⟩
    have hb := (reads_expectByte r 36 ⟨header ++ more, r.consumed + 1⟩).2 ⟨[36], rfl, hrest, rfl⟩
    have hi := (reads_readInteger ⟨header ++ more, r.consumed + 1⟩ v.toInt
      ⟨more, r.consumed + 1 + header.length⟩).2 ⟨header, ⟨v, hv, rfl⟩, rfl, rfl⟩
    simp only [hb, hi, hn]
    simp

theorem mem_bulkBuffers_iff {n : ℕ} : ∀ (count : ℕ) (r : Reader), n ∈ bulkBuffers count r ↔
    ∃ parts elements v header more, parts.length < count ∧ AreBulks parts elements
      ∧ IsLine v header ∧ v.toInt = n ∧ r.rest = elements ++ 36 :: (header ++ more)
  | 0, r => by simp [bulkBuffers]
  | count + 1, r => by
    rw [bulkBuffers, List.mem_append, Option.mem_toList, bulkBuffer_iff]
    constructor
    · rintro (⟨v, header, more, hv, hn, hrest⟩ | hmem)
      · exact ⟨[], [], v, header, more, by simp, rfl, hv, hn, hrest⟩
      · rcases hb : r.readBulk with ⟨_ | part, r'⟩ <;> rw [hb] at hmem
        · simp at hmem
        obtain ⟨parts, elements, v, header, more, hlen, hbulks, hv, hn, hrest⟩ :=
          (mem_bulkBuffers_iff count r').1 hmem
        obtain ⟨l, hpart, hrest', -⟩ := (reads_readBulk r part r').1 hb
        refine ⟨part :: parts, l ++ elements, v, header, more, ?_, ⟨l, elements, hpart, hbulks, rfl⟩,
          hv, hn, ?_⟩
        · rw [List.length_cons]
          omega
        · rw [hrest', hrest, List.append_assoc]
    · rintro ⟨parts, elements, v, header, more, hlen, hbulks, hv, hn, hrest⟩
      rcases parts with _ | ⟨part, parts⟩
      · obtain rfl := hbulks
        exact .inl ⟨v, header, more, hv, hn, hrest⟩
      · obtain ⟨l, elements', hpart, hbulks, rfl⟩ := hbulks
        rw [List.append_assoc] at hrest
        have hb := (reads_readBulk r part
          ⟨elements' ++ 36 :: (header ++ more), r.consumed + l.length⟩).2 ⟨l, hpart, hrest, rfl⟩
        refine .inr ?_
        rw [hb]
        refine (mem_bulkBuffers_iff count _).2 ⟨parts, elements', v, header, more, ?_, hbulks, hv, hn,
          rfl⟩
        rw [List.length_cons] at hlen
        omega

end Reader

theorem mem_recordBuffers_iff {rest : Bytes} {n : ℕ} : n ∈ recordBuffers rest ↔ Declares rest n := by
  rcases rest with _ | ⟨first, rest⟩
  · simp [recordBuffers, Declares]
  unfold recordBuffers
  constructor
  · intro h
    simp only [] at h
    split_ifs at h with hfirst
    · simp at h
    rcases hi : Reader.readInteger ⟨rest, 1⟩ with ⟨_ | len, r⟩ <;> rw [hi] at h
    · simp at h
    simp only [] at h
    split_ifs at h with hneg
    · simp at h
    obtain ⟨line, ⟨count, hcount, rfl⟩, hrest, -⟩ := (Reader.reads_readInteger _ len r).1 hi
    obtain ⟨parts, elements, v, header, more, hlen, hbulks, hv, hn, hrest'⟩ :=
      (Reader.mem_bulkBuffers_iff _ r).1 h
    refine ⟨count, line, parts, elements, v, header, more, hcount, by omega, hbulks, hv, hn, ?_⟩
    rw [← hrest', ← not_not.1 hfirst]
    exact congrArg _ hrest
  · rintro ⟨count, line, parts, elements, v, header, more, hcount, hlen, hbulks, hv, hn, hrest⟩
    rw [List.cons.injEq] at hrest
    obtain ⟨rfl, rfl⟩ := hrest
    have hi := (Reader.reads_readInteger ⟨line ++ (elements ++ 36 :: (header ++ more)), 1⟩ count.toInt
      ⟨elements ++ 36 :: (header ++ more), 1 + line.length⟩).2 ⟨line, ⟨count, hcount, rfl⟩, rfl, rfl⟩
    simp only [hi]
    rw [if_neg (by simp), if_neg (by omega)]
    exact (Reader.mem_bulkBuffers_iff _ _).2
      ⟨parts, elements, v, header, more, by omega, hbulks, hv, hn, rfl⟩

/-! ## Starting from a file -/

/-- An array at which decoding starts declares an element of `n` bytes. -/
def DeclaredIn (regions : List Region) (tail : Bytes) (n : ℕ) : Prop :=
  ∃ before after, regions = before ++ after ∧ Declares (regionBytes after ++ tail) n

theorem declaredIn_nil {tail : Bytes} {n : ℕ} : DeclaredIn [] tail n ↔ Declares tail n := by
  constructor
  · rintro ⟨before, after, h, hdecl⟩
    obtain ⟨rfl, rfl⟩ := List.append_eq_nil_iff.1 h.symm
    exact hdecl
  · intro h
    exact ⟨[], [], rfl, h⟩

theorem declaredIn_cons {region : Region} {tail : Bytes} {n : ℕ} :
    DeclaredIn (region :: regions) tail n ↔
      Declares (regionBytes (region :: regions) ++ tail) n ∨ DeclaredIn regions tail n := by
  constructor
  · rintro ⟨before, after, h, hdecl⟩
    rcases before with _ | ⟨_, before⟩
    · rw [List.nil_append] at h
      subst h
      exact .inl hdecl
    · rw [List.cons_append, List.cons.injEq] at h
      exact .inr ⟨before, after, h.2, hdecl⟩
  · rintro (hdecl | ⟨before, after, rfl, hdecl⟩)
    · exact ⟨[], _, rfl, hdecl⟩
    · exact ⟨region :: before, after, rfl, hdecl⟩

section Start

variable {env : Env} {len : ℕ}

/-- What the loop comes to: it succeeds if no record is refused, and has then allocated a buffer for
every element that is declared. -/
structure Comes (env : Env) (len : ℕ) (rest : Bytes) (st : ReplayState) (regions : List Region)
    (tail : Bytes) (buffers : List ℕ) (res : Except FerrumError ReplayState) : Prop where
  loop : ReplayLoop env len rest st buffers res
  ok_iff : (∃ st', res = .ok st') ↔ ∀ parts ∈ recordsOf regions, Usable parts
  buffers_iff : (∃ st', res = .ok st') → ∀ n, n ∈ buffers ↔ DeclaredIn regions tail n

theorem Comes.stop {tail : Bytes} {st st' : ReplayState}
    (h : replayRound env len tail st = .stop (.ok st')) :
    Comes env len tail st [] tail (recordBuffers tail) (.ok st') where
  loop := .stop h
  ok_iff := ⟨fun _ _ hp => (nomatch hp), fun _ => ⟨st', rfl⟩⟩
  buffers_iff _ _ := mem_recordBuffers_iff.trans declaredIn_nil.symm

theorem Comes.again {rest rest' tail : Bytes} {st st' : ReplayState} {region : Region}
    {buffers : List ℕ} {res : Except FerrumError ReplayState}
    (h : replayRound env len rest st = .again rest' st')
    (hbytes : rest = regionBytes (region :: regions) ++ tail)
    (hrecords : (∀ parts ∈ recordsOf (region :: regions), Usable parts) ↔
      ∀ parts ∈ recordsOf regions, Usable parts)
    (next : Comes env len rest' st' regions tail buffers res) :
    Comes env len rest st (region :: regions) tail (recordBuffers rest ++ buffers) res where
  loop := .again h next.loop
  ok_iff := next.ok_iff.trans hrecords.symm
  buffers_iff hok n := by
    rw [List.mem_append, mem_recordBuffers_iff, next.buffers_iff hok n, declaredIn_cons, hbytes]

theorem Layout.comes (env : Env) (len : ℕ) {rest tail : Bytes}
    (h : Layout rest regions tail) : ∀ st : ReplayState, st.engine.eviction.maxMemory = 0 →
      ∃ buffers res, Comes env len rest st regions tail buffers res := by
  induction h with
  | ended =>
    intro st _
    exact ⟨_, _, Comes.stop rfl⟩
  | unfinished _ h =>
    intro st _
    exact ⟨_, _, Comes.stop (replayRound_unfinished h)⟩
  | lost h hskip =>
    intro st _
    exact ⟨_, _, Comes.stop (replayRound_lost h hskip)⟩
  | @record parts taken rest regions tail h next ih =>
    intro st h0
    have hbytes := (Layout.record h next).bytes
    by_cases hu : Usable parts
    · have hok := mt (applyRecord_refused env h0).1 (not_not.2 hu)
      obtain ⟨stats, -, hround⟩ := replayRound_record len h hok rest
      obtain ⟨buffers, res, hnext⟩ :=
        ih ⟨_, stats, len - rest.length⟩ ((congrArg _ (applyRecord_eviction h0)).trans h0)
      refine ⟨_, res, hnext.again hround hbytes ?_⟩
      simp [recordsOf, hu]
    · obtain ⟨e, he⟩ := (applyRecord_refused env h0).2 hu
      refine ⟨_, _, .stop (replayRound_refused h he rest), ?_, fun ⟨st', hst'⟩ => (nomatch hst')⟩
      refine ⟨fun ⟨st', hst'⟩ => (nomatch hst'), fun hall => absurd (hall parts ?_) hu⟩
      simp [recordsOf]
  | @damaged taken skipped rest regions tail h hskip next ih =>
    intro st h0
    obtain ⟨buffers, res, hnext⟩ := ih { st with
      stats := { st.stats with skipped := st.stats.skipped + 1 }
      lastGood := st.lastGood + taken.length } h0
    exact ⟨_, res, hnext.again (replayRound_damaged h hskip rest)
      (Layout.damaged h hskip next).bytes Iff.rfl⟩

/-- Replaying a file always ends. It succeeds with no element buffer beyond the largest value exactly
when no `SET` of the file is outside the size limits and no element is declared to be larger. -/
theorem replay_starts_iff {s : KvEngine} (h0 : s.eviction.maxMemory = 0) (file : Bytes) :
    (∃ regions tail, Layout file regions tail) ∧ ∀ regions tail, Layout file regions tail →
      (∃ buffers res, ReplayLoop env file.length file { engine := s } buffers res)
      ∧ ((∃ buffers st, ReplayLoop env file.length file { engine := s } buffers (.ok st)
            ∧ replay env file s = .ok (finishReplay file st) ∧ ∀ n ∈ buffers, n ≤ valueMaxBytes) ↔
          (∀ parts ∈ recordsOf regions, Usable parts)
            ∧ ∀ n, DeclaredIn regions tail n → n ≤ valueMaxBytes) := by
  refine ⟨exists_layout file, fun regions tail hl => ⟨replayLoop_ends _ _ _ _, ?_⟩⟩
  obtain ⟨buffers, res, hcomes⟩ := hl.comes env file.length { engine := s } h0
  constructor
  · rintro ⟨buffers', st, hloop, -, hmax⟩
    obtain ⟨rfl, rfl⟩ := hcomes.loop.unique hloop
    refine ⟨hcomes.ok_iff.1 ⟨st, rfl⟩, fun n hn => hmax n ?_⟩
    exact (hcomes.buffers_iff ⟨st, rfl⟩ n).2 hn
  · rintro ⟨husable, hmax⟩
    obtain ⟨st, rfl⟩ := hcomes.ok_iff.2 husable
    refine ⟨buffers, st, hcomes.loop, replay_of_loop hcomes.loop, fun n hn => hmax n ?_⟩
    exact (hcomes.buffers_iff ⟨st, rfl⟩ n).1 hn

def roughTail : Bytes := text "*2\r\n$3\r\nDEL\r\n$5\r\nke"

/-- A `SET`, bytes of no record, a `SET` of the wrong arity, and a record cut short. -/
def roughLog : Bytes :=
  encodeCommand [text "SET", text "k", text "v"]
    ++ (text "x" ++ text "yz" ++ (encodeCommand [text "set", text "k"] ++ roughTail))

def roughRegions : List Region :=
  [.record [text "SET", text "k", text "v"] (encodeCommand [text "SET", text "k", text "v"]),
    .damaged (text "x") (text "yz"),
    .record [text "set", text "k"] (encodeCommand [text "set", text "k"])]

theorem isRecord_encodeCommand (h : Representable parts) :
    IsRecord parts (encodeCommand parts) := fun rest => readRecord_encodeCommand h.1 h.2 rest

theorem layout_roughLog : Layout roughLog roughRegions roughTail := by
  refine .record (isRecord_encodeCommand ?_) ?_
  · simp [Representable, text, ascii]
  refine .damaged ⟨.expectedStar 120, fun _ => rfl⟩ (by decide) ?_
  refine .record (isRecord_encodeCommand ?_) ?_
  · simp [Representable, text, ascii]
  exact .unfinished (by decide) (show readRecord roughTail = (.error (.unexpectedEof 19), []) by decide)

theorem usable_roughRegions : ∀ parts ∈ recordsOf roughRegions, Usable parts := by
  intro parts hp key value h
  have hp' : parts = [text "SET", text "k", text "v"] ∨ parts = [text "set", text "k"] := by
    simpa [roughRegions, recordsOf] using hp
  rcases hp' with rfl | rfl
  · cases h
    rfl
  · cases h

theorem replay_starts_roughLog :
    ∃ buffers st, ReplayLoop (Env.steady 0) roughLog.length roughLog { engine := KvEngine.new }
        buffers (.ok st)
      ∧ replay (Env.steady 0) roughLog KvEngine.new = .ok (finishReplay roughLog st)
      ∧ ∀ n ∈ buffers, n ≤ valueMaxBytes := by
  refine (((replay_starts_iff rfl roughLog).2 _ _ layout_roughLog).2).2
    ⟨usable_roughRegions, fun n hn => ?_⟩
  simp only [roughRegions, declaredIn_cons, declaredIn_nil, ← mem_recordBuffers_iff] at hn
  rcases hn with h | h | h | h <;>
    exact (by decide : ∀ n ∈ recordBuffers _, n ≤ valueMaxBytes) n h

/-- A `SET` of the empty key stops the start, and an element declared to have `i64::MAX` bytes is given
a buffer of that length. -/
theorem replay_refuses_or_overallocates :
    replay (Env.steady 0) (encodeCommand [text "SET", [], text "v"]) KvEngine.new
        = .error (.parseError "key must not be empty")
      ∧ ∃ st, ReplayLoop (Env.steady 0) 26 (text "*1\r\n$9223372036854775807\r\n")
          { engine := KvEngine.new } [2 ^ 63 - 1] (.ok st) ∧ valueMaxBytes < 2 ^ 63 - 1 := by
  have hread : readRecord (text "*1\r\n$9223372036854775807\r\n")
      = (.error (.unexpectedEof 26), []) := by decide
  exact ⟨rfl, _, .stop (replayRound_unfinished hread), by decide⟩

end Start

end FerrumKv
