import FerrumKv.AofWriter
import FerrumKv.Lib.Runs
import FerrumKv.Proofs.Durability
import FerrumKv.Proofs.Recovery
import FerrumKv.Proofs.Slot

/-!
# What the writer of the log keeps

File and buffer together hold what the calls left, in the order of the calls, and a call whose
records are shorter than the buffer leaves all of them or none (`appends_land`). Under `everysec` a
crash costs at most what was appended since the last pass of the flusher, and what is recovered are
whole records (`everysec_recovers`). A drop of the writer comes to its end and everything is in the
file and synced then (`drop_saves`).
-/

namespace FerrumKv.AofWriter

open Buffered (Extends Part Writes)

/-! ## What one step does -/

/-- What a step does to the buffered file: it adds `p` to the contents. -/
structure Grows (inner inner' : Buffered.Writer UInt8) (p : Bytes) : Prop where
  contents : inner'.contents = inner.contents ++ p
  kept : inner.synced ≤ inner.file.length → Extends inner inner'
  buffer : inner.buffer.length ≤ bufCapacity → inner'.buffer.length ≤ bufCapacity

section Grows

variable {inner inner' : Buffered.Writer UInt8} {w : AofWriter}

theorem Grows.refl (inner : Buffered.Writer UInt8) : Grows inner inner [] :=
  ⟨(List.append_nil _).symm, fun _ => .refl inner, id⟩

theorem grows_flushBuf (inner : Buffered.Writer UInt8) (limit : Option ℕ) :
    Grows inner (inner.flushBuf limit).2 [] :=
  ⟨by simp, fun _ => inner.flushBuf_extends limit,
    (inner.length_flushBuf_buffer_le limit).trans⟩

theorem grows_sync (inner : Buffered.Writer UInt8) (ok : Bool) : Grows inner (inner.sync ok) [] :=
  ⟨by simp, fun h => inner.sync_extends ok h, id⟩

theorem Grows.trans {inner'' : Buffered.Writer UInt8} {p : Bytes} (h : Grows inner inner' p)
    (h' : Grows inner' inner'' []) : Grows inner inner'' p where
  contents := by rw [h'.contents, h.contents, List.append_nil]
  kept hs := (h.kept hs).trans (h'.kept ((h.kept hs).within hs))
  buffer hb := h'.buffer (h.buffer hb)

theorem grows_pass (w : AofWriter) (limit : Option ℕ) (synced : Bool) :
    Grows w.inner (w.pass limit synced) [] := by
  have h := grows_flushBuf w.inner limit
  unfold pass
  rcases hf : w.inner.flushBuf limit with ⟨_ | _, inner⟩ <;> rw [hf] at h
  · exact h
  · exact h.trans (grows_sync inner synced)

theorem grows_writeAll (inner : Buffered.Writer UInt8) (xs : Bytes) (room direct : Option ℕ) :
    ∃ p, Grows inner (inner.writeAll bufCapacity xs room direct).2 p
      ∧ Part bufCapacity xs (inner.writeAll bufCapacity xs room direct).1 p := by
  have hw := Buffered.writes_writeAll inner bufCapacity xs room direct
  obtain ⟨p, hp, hpart⟩ := hw.part
  exact ⟨p, ⟨hp, fun _ => hw.extends, hw.buffer_le⟩, hpart⟩

theorem grows_writeBytes (w : AofWriter) (rs : List AofRecord) (room direct push : Option ℕ) :
    ∃ p, Grows w.inner (w.writeBytes rs room direct push).2 p
      ∧ Lands (rs, (w.writeBytes rs room direct push).1) p := by
  obtain ⟨p, hgrows, hpart⟩ := grows_writeAll w.inner (encodeLog rs) room direct
  unfold writeBytes
  rcases hr : w.inner.writeAll bufCapacity (encodeLog rs) room direct with ⟨_ | _, inner⟩ <;>
    rw [hr] at hgrows hpart
  · exact ⟨p, hgrows, hpart.front, nofun, fun hlen => .inl (hpart.short rfl hlen)⟩
  · have hlands : ∀ ok, Lands (rs, ok) p :=
      fun _ => ⟨hpart.front, fun _ => hpart.whole rfl, fun _ => .inr (hpart.whole rfl)⟩
    simp only []
    split
    · exact ⟨p, hgrows.trans (grows_flushBuf inner push), hlands _⟩
    · exact ⟨p, hgrows, hlands _⟩

theorem grows_replayDelta (inner : Buffered.Writer UInt8) (delta : Bytes)
    (room direct push : Option ℕ) (synced : Bool) :
    ∃ p, Grows inner (replayDelta inner delta room direct push synced).2 p ∧ p <+: delta
      ∧ ((replayDelta inner delta room direct push synced).1 = true → p = delta) := by
  unfold replayDelta
  split
  · rename_i hnil
    exact ⟨[], .refl inner, List.nil_prefix, fun _ => hnil.symm⟩
  · obtain ⟨p, hgrows, hpart⟩ := grows_writeAll inner delta room direct
    rcases hr : inner.writeAll bufCapacity delta room direct with ⟨_ | _, inner'⟩ <;>
      rw [hr] at hgrows hpart
    · exact ⟨p, hgrows, hpart.front, nofun⟩
    · have hflushed := hgrows.trans (grows_flushBuf inner' push)
      simp only []
      rcases hf : inner'.flushBuf push with ⟨_ | _, inner''⟩ <;> rw [hf] at hflushed
      · exact ⟨p, hflushed, hpart.front, nofun⟩
      · exact ⟨p, hflushed.trans (grows_sync inner'' synced), hpart.front,
          fun _ => hpart.whole rfl⟩

end Grows

theorem step_grows (w : AofWriter) (e : Event) :
    ∃ p calls pieces, Grows w.inner (w.step e).inner p ∧ (w.step e).calls = w.calls ++ calls
      ∧ p = pieces.flatten ∧ List.Forall₂ Lands calls pieces := by
  have hnone : ∀ {w' : AofWriter}, Grows w.inner w'.inner [] → w'.calls = w.calls →
      ∃ p calls pieces, Grows w.inner w'.inner p ∧ w'.calls = w.calls ++ calls
        ∧ p = pieces.flatten ∧ List.Forall₂ Lands calls pieces :=
    fun hg hc => ⟨[], [], [], hg, by rw [hc, List.append_nil], rfl, .nil⟩
  cases e with
  | append rs room direct push =>
    simp only [step]
    split
    · obtain ⟨p, hg, hl⟩ := w.grows_writeBytes rs room direct push
      exact ⟨p, _, [p], hg, rfl, by simp, .cons hl .nil⟩
    · exact hnone (.refl _) rfl
  | barrierFlush limit =>
    simp only [step]
    split
    · exact hnone (grows_flushBuf _ limit) rfl
    · exact hnone (.refl _) rfl
  | barrierSync ok =>
    simp only [step]
    split
    · exact hnone (grows_sync _ ok) rfl
    · exact hnone (.refl _) rfl
  | flusher limit synced =>
    simp only [step, stepFlusher]
    split <;> first | exact hnone (.refl _) rfl | exact hnone (w.grows_pass limit synced) rfl
  | owner limit last synced =>
    simp only [step, stepOwner]
    split
    · split <;> exact hnone (.refl _) rfl
    · exact hnone (.refl _) rfl
    · split <;> exact hnone (.refl _) rfl
    · exact hnone ((grows_flushBuf _ limit).trans (grows_sync _ synced)) rfl
    · exact hnone (grows_flushBuf _ last) rfl
    · exact hnone (.refl _) rfl

/-! ## What the calls leave -/

/-- What every step keeps of the log: the bytes from before and then what each call left, a buffer
within its capacity, and no more synced than there is. -/
structure Kept (file : Bytes) (w : AofWriter) : Prop where
  landed : ∃ pieces, w.inner.contents = file ++ pieces.flatten
    ∧ List.Forall₂ Lands w.calls pieces
  buffer : w.inner.buffer.length ≤ bufCapacity
  synced : w.inner.synced ≤ w.inner.file.length

section Runs

variable {policy : FsyncPolicy} {file : Bytes} {w : AofWriter}

theorem kept_openLog (policy : FsyncPolicy) (file : Bytes) : Kept file (openLog policy file) :=
  ⟨⟨[], by simp [openLog, Buffered.Writer.contents], .nil⟩, Nat.zero_le _, Nat.zero_le _⟩

theorem Kept.step (h : Kept file w) (e : Event) : Kept file (w.step e) := by
  obtain ⟨pieces, hc, hl⟩ := h.landed
  obtain ⟨p, calls, more, hg, hcalls, rfl, hmore⟩ := w.step_grows e
  refine ⟨⟨pieces ++ more, ?_, ?_⟩, hg.buffer h.buffer, (hg.kept h.synced).within h.synced⟩
  · rw [hg.contents, hc, List.flatten_append, List.append_assoc]
  · rw [hcalls]
    exact List.rel_append hl hmore

theorem Kept.moveTo (h : Kept file w) (path : Option Bytes) (delta : Bytes)
    (room direct push last : Option ℕ) (synced : Bool) :
    Kept (w.moveTo path delta room direct push last synced).2.inner.contents
      (w.moveTo path delta room direct push last synced).2 := by
  obtain ⟨p, hgrows, -⟩ := grows_replayDelta (w.reopen path) delta room direct push synced
  have hbuffer := hgrows.buffer (by cases path <;> exact Nat.zero_le _)
  have hreopen : (w.reopen path).synced ≤ (w.reopen path).file.length := by
    cases path with
    | none => exact h.synced
    | some snapshot => exact le_rfl
  have hsynced := (hgrows.kept hreopen).within hreopen
  refine ⟨⟨[], (List.append_nil _).symm, .nil⟩, ?_, ?_⟩ <;> simp only [AofWriter.moveTo] <;> split
  · exact hbuffer
  · exact hbuffer
  · exact hsynced
  · rw [Buffered.Writer.put, List.length_append]
    exact hsynced.trans (Nat.le_add_right _ _)

theorem moveTo_some (w : AofWriter) (snapshot delta : Bytes) (room direct push last : Option ℕ)
    (synced : Bool) :
    ∃ p, (w.moveTo (some snapshot) delta room direct push last synced).2.inner.contents
        = snapshot ++ p ∧ p <+: delta
      ∧ ((w.moveTo (some snapshot) delta room direct push last synced).1 = true → p = delta) := by
  obtain ⟨p, hgrows, hp, hwhole⟩ :=
    grows_replayDelta (w.reopen (some snapshot)) delta room direct push synced
  refine ⟨p, ?_, hp, hwhole⟩
  have hnew : (w.reopen (some snapshot)).contents = snapshot := List.append_nil snapshot
  exact hgrows.contents.trans (by rw [hnew])

theorem Kept.run (h : Kept file w) (events : List Event) : Kept file (w.run events) :=
  Runs.foldl_invariant (I := Kept file) (fun _ e hw => hw.step e) events h

theorem extends_run : ∀ (events : List Event) {w : AofWriter},
    w.inner.synced ≤ w.inner.file.length → Extends w.inner (w.run events).inner
  | [], w, _ => .refl w.inner
  | e :: events, w, h => by
    obtain ⟨p, _, _, hg, -⟩ := w.step_grows e
    have hstep := hg.kept h
    exact hstep.trans (extends_run events (hstep.within h))

theorem calls_run (events : List Event) {w : AofWriter} : w.calls <+: (w.run events).calls := by
  refine Runs.foldl_invariant (I := fun w' : AofWriter => w.calls <+: w'.calls)
    (fun w' e h => ?_) events List.prefix_rfl
  obtain ⟨p, calls, _, -, hcalls, -⟩ := w'.step_grows e
  exact h.trans (hcalls ▸ List.prefix_append _ _)

/-- Whatever is called in whatever order and whichever writes fail: file and buffer hold what the
log held and then what each call left, in the order of the calls, and no more than a buffer of it is
not in the file. -/
theorem appends_land (policy : FsyncPolicy) (file : Bytes) (events : List Event) :
    ∃ pieces, ((openLog policy file).run events).inner.file
        ++ ((openLog policy file).run events).inner.buffer = file ++ pieces.flatten
      ∧ List.Forall₂ Lands ((openLog policy file).run events).calls pieces
      ∧ ((openLog policy file).run events).inner.buffer.length ≤ bufCapacity := by
  have h := (kept_openLog policy file).run events
  obtain ⟨pieces, hc, hl⟩ := h.landed
  exact ⟨pieces, hc, hl, h.buffer⟩

theorem flatten_of_lands : ∀ {calls : List (List AofRecord × Bool)} {pieces : List Bytes},
    List.Forall₂ Lands calls pieces → (∀ c ∈ calls, c.2 = true) →
      pieces.flatten = encodeLog (calls.flatMap (·.1))
  | [], _, .nil, _ => rfl
  | c :: calls, p :: pieces, .cons h hs, hok => by
    have ih := flatten_of_lands hs fun c' hc' => hok c' (List.mem_cons_of_mem c hc')
    rw [List.flatten_cons, List.flatMap_cons, AofSystem.encodeLog_append, ih,
      h.whole (hok c List.mem_cons_self)]

theorem Kept.contents (h : Kept file w) (hok : ∀ c ∈ w.calls, c.2 = true) :
    w.inner.contents = file ++ encodeLog w.records := by
  obtain ⟨pieces, hc, hl⟩ := h.landed
  rw [hc, flatten_of_lands hl hok, records]

/-! ## Crashes -/

/-- What is recovered from an initial part of a log of valid records that holds its first records.
-/
theorem replay_of_prefix (env : Env) {log : List AofRecord} (hv : ∀ r ∈ log, r.Valid) {m : ℕ}
    (hm : m ≤ log.length) {p : Bytes} (hp : p <+: encodeLog log)
    (hfirst : encodeLog (log.take m) <+: p) :
    ∃ n r, m ≤ n ∧ n ≤ log.length ∧ replay env p KvEngine.new = .ok r
      ∧ r.engine = applyAll env KvEngine.new (log.take n) ∧ r.stats.skipped = 0
      ∧ r.file = encodeLog (log.take n) := by
  rw [encodeLog_eq] at hp
  obtain ⟨n, cut, hcut⟩ := exists_cutAt _ p hp
  have hle := hcut.le
  rw [List.length_map] at hle
  have hrep : ∀ parts ∈ log.map AofRecord.parts, Representable parts := by
    intro parts hparts
    obtain ⟨r, hr, rfl⟩ := List.mem_map.1 hparts
    exact ⟨length_parts_lt r, length_of_mem_parts (hv r hr)⟩
  have hreplay := hcut.replay (s := KvEngine.new) (accepts_parts env _ rfl hv) hrep
  rw [← List.map_take, ← applyAll_eq, ← encodeLog_eq] at hreplay
  refine ⟨n, _, ?_, hle, hreplay, rfl, rfl, rfl⟩
  by_contra hlt
  have hnext := hcut.next (by rw [List.length_map]; omega)
  have hmono := length_encodeAll_take_le (log.map AofRecord.parts) (show n + 1 ≤ m by omega)
  have hlen := hfirst.length_le
  rw [encodeLog_eq, List.map_take] at hlen
  omega

theorem records_mono {w' : AofWriter} (h : w.calls <+: w'.calls) : w.records <+: w'.records := by
  obtain ⟨more, hmore⟩ := h
  rw [records, records, ← hmore, List.flatMap_append]
  exact List.prefix_append _ _

theorem Kept.recovers {log : List AofRecord} (h : Kept (encodeLog log) w) (hsaved : w.inner.Saved)
    (env : Env) (after : List Event) (hok : ∀ c ∈ (w.run after).calls, c.2 = true)
    (hv : ∀ r ∈ log ++ (w.run after).records, r.Valid) {p : Bytes}
    (hp : (w.run after).inner.CrashImage p) :
    ∃ n r, (log ++ w.records).length ≤ n ∧ replay env p KvEngine.new = .ok r
      ∧ r.engine = applyAll env KvEngine.new ((log ++ (w.run after).records).take n)
      ∧ r.stats.skipped = 0 := by
  have hcalls := calls_run after (w := w)
  have hmore : log ++ w.records <+: log ++ (w.run after).records :=
    (List.prefix_append_right_inj log).2 (records_mono hcalls)
  have hbytes : p <+: encodeLog (log ++ (w.run after).records) := by
    rw [AofSystem.encodeLog_append, ← (h.run after).contents hok]
    exact hp.2.trans (List.prefix_append _ _)
  have hfirst : encodeLog (log ++ w.records) <+: p := by
    rw [AofSystem.encodeLog_append, ← h.contents fun c hc => hok c (hcalls.subset hc)]
    exact hp.of_extends hsaved (extends_run after h.synced)
  rw [List.prefix_iff_eq_take.1 hmore] at hfirst
  obtain ⟨n, r, hn, -, hr, he, hs, -⟩ := replay_of_prefix env hv hmore.length_le hbytes hfirst
  exact ⟨n, r, hn, hr, he, hs⟩

/-- A pass of the flusher that succeeds saves everything. -/
theorem saved_of_pass (hpass : w.flusher = .passing) :
    (w.step (.flusher none true)).inner.Saved
      ∧ (w.step (.flusher none true)).records = w.records := by
  have hstep : w.step (.flusher none true)
      = { w with flusher := .resting, inner := (w.inner.flushBuf none).2.sync true } := by
    simp only [step, stepFlusher, hpass]
    rfl
  rw [hstep]
  exact ⟨w.inner.saved_of_flush none rfl, rfl⟩

/-- Under `everysec`, with every append answered by `Ok` and a log that held whole valid records when
it was opened: a crash after a pass of the flusher whose flush and sync succeeded leaves a log from
which whole records are recovered, all that were appended before that pass among them. -/
theorem everysec_recovers (env : Env) (log : List AofRecord) (before after : List Event)
    (hpass : ((openLog .everySec (encodeLog log)).run before).flusher = .passing)
    (hok : ∀ c ∈ ((openLog .everySec (encodeLog log)).run
      (before ++ .flusher none true :: after)).calls, c.2 = true)
    (hv : ∀ r ∈ log ++ ((openLog .everySec (encodeLog log)).run
      (before ++ .flusher none true :: after)).records, r.Valid)
    (p : Bytes) (hp : ((openLog .everySec (encodeLog log)).run
      (before ++ .flusher none true :: after)).inner.CrashImage p) :
    ∃ n r, (log ++ ((openLog .everySec (encodeLog log)).run before).records).length ≤ n
      ∧ replay env p KvEngine.new = .ok r
      ∧ r.engine = applyAll env KvEngine.new ((log ++ ((openLog .everySec (encodeLog log)).run
        (before ++ .flusher none true :: after)).records).take n)
      ∧ r.stats.skipped = 0 := by
  have hkept := ((kept_openLog .everySec (encodeLog log)).run before).step (.flusher none true)
  obtain ⟨hsaved, hrecords⟩ := saved_of_pass hpass
  have hrun : (openLog .everySec (encodeLog log)).run (before ++ .flusher none true :: after)
      = (((openLog .everySec (encodeLog log)).run before).step (.flusher none true)).run after := by
    simp only [run, List.foldl_append, List.foldl_cons]
  rw [hrun] at hok hv hp ⊢
  rw [← hrecords]
  exact hkept.recovers hsaved env after hok hv hp

/-- A record, the steps of the flusher up to its pass, and after the pass a record that stays in the
buffer. -/
def firstSecond : List Event :=
  [.append [.set [107] [118]] none none none, .flusher none true, .flusher none true,
    .flusher none true]

theorem everysec_recovers_firstSecond :
    ∃ n r, 1 ≤ n ∧ replay (Env.steady 0) (encodeLog [.set [107] [118]]) KvEngine.new = .ok r
      ∧ r.engine = applyAll (Env.steady 0) KvEngine.new
        (List.take n [.set [107] [118], .del [107]])
      ∧ r.stats.skipped = 0 :=
  everysec_recovers (Env.steady 0) [] firstSecond [.append [.del [107]] none none none] rfl
    (by decide) (by rintro r (_ | ⟨_, _ | ⟨_, ⟨⟩⟩⟩) <;> rfl) (encodeLog [.set [107] [118]])
    ⟨by decide, by decide⟩

end Runs

/-! ## The drop of the writer -/

/-- The steps the flusher still makes once `stop` is set. -/
def flusherLeft : FlusherPc → ℕ
  | .absent | .ended => 0
  | .woken => 1
  | .waiting => 2
  | .resting => 3
  | .passing => 4

/-- The steps the drop still makes once the flusher has ended. -/
def ownerLeft : DropPc → ℕ
  | .alive => 5
  | .stopping => 4
  | .joining => 3
  | .flushing => 2
  | .closing => 1
  | .dropped => 0

/-- A writer that is in use: nobody has set `stop`, and the flusher runs if there is one. -/
structure Alive (w : AofWriter) : Prop where
  owner : w.owner = .alive
  running : w.flusher ≠ .ended
  stop : w.stop = false

/-- A writer whose drop has begun: a flusher that runs has been told to stop and the drop waits for
it. -/
structure Dropping (w : AofWriter) : Prop where
  begun : w.owner ≠ .alive
  told : flusherLeft w.flusher ≠ 0 → w.stop = true ∧ (w.owner = .stopping ∨ w.owner = .joining)
  present : w.owner = .stopping ∨ w.owner = .joining → w.flusher ≠ .absent

/-- After the flush and the sync of the drop everything is saved. -/
def Saving (w : AofWriter) : Prop := w.owner = .closing ∨ w.owner = .dropped → w.inner.Saved

section Drop

variable {w : AofWriter} {e : Event}

theorem alive_openLog (policy : FsyncPolicy) (file : Bytes) : Alive (openLog policy file) := by
  refine ⟨rfl, ?_, rfl⟩
  simp only [openLog]
  split <;> nofun

theorem Alive.step (h : Alive w) (e : Event) : Alive (w.step e) ∨ Dropping (w.step e) := by
  cases e with
  | append | barrierFlush | barrierSync =>
    refine .inl ?_
    simp only [AofWriter.step]
    split
    · exact ⟨h.owner, h.running, h.stop⟩
    · exact h
  | flusher limit synced =>
    refine .inl ?_
    simp only [AofWriter.step, stepFlusher]
    split
    · exact h
    · exact h
    · exact ⟨h.owner, nofun, h.stop⟩
    · exact ⟨h.owner, nofun, h.stop⟩
    · exact ⟨h.owner, by simp [h.stop], h.stop⟩
    · exact ⟨h.owner, nofun, h.stop⟩
  | owner limit last synced =>
    refine .inr ?_
    simp only [AofWriter.step, stepOwner, h.owner]
    split
    · rename_i habs
      exact ⟨nofun, fun hf => absurd (by rw [habs]; rfl) hf, fun ho => by simp at ho⟩
    · rename_i habs
      exact ⟨nofun, fun _ => ⟨rfl, .inl rfl⟩, fun _ => habs⟩

theorem Dropping.flusher (h : Dropping w) (limit : Option ℕ) (synced : Bool) :
    Dropping (w.stepFlusher limit synced)
      ∧ flusherLeft (w.stepFlusher limit synced).flusher ≤ flusherLeft w.flusher - 1
      ∧ (w.stepFlusher limit synced).owner = w.owner := by
  have hnext : ∀ {pc : FlusherPc} {inner : Buffered.Writer UInt8}, flusherLeft w.flusher ≠ 0 →
      pc ≠ .absent → Dropping { w with flusher := pc, inner := inner } := by
    intro pc inner hleft hpc
    exact ⟨h.begun, fun _ => h.told hleft, fun _ => hpc⟩
  unfold stepFlusher
  split <;> rename_i hf
  · exact ⟨h, by rw [hf]; exact le_rfl, rfl⟩
  · exact ⟨h, by rw [hf]; exact le_rfl, rfl⟩
  · exact ⟨hnext (by rw [hf]; nofun) nofun, by rw [hf]; exact le_rfl, rfl⟩
  · exact ⟨hnext (by rw [hf]; nofun) nofun, by rw [hf]; exact le_rfl, rfl⟩
  · have hleft : flusherLeft w.flusher ≠ 0 := by rw [hf]; nofun
    rw [if_pos (h.told hleft).1, hf]
    exact ⟨hnext hleft nofun, le_rfl, rfl⟩
  · exact ⟨hnext (by rw [hf]; nofun) nofun, by rw [hf]; exact le_rfl, rfl⟩

theorem Dropping.owner (h : Dropping w) (limit last : Option ℕ) (synced : Bool) :
    Dropping (w.stepOwner limit last synced)
      ∧ flusherLeft (w.stepOwner limit last synced).flusher ≤ flusherLeft w.flusher
      ∧ (flusherLeft w.flusher = 0 →
        ownerLeft (w.stepOwner limit last synced).owner ≤ ownerLeft w.owner - 1) := by
  have hquiet : ¬(w.owner = .stopping ∨ w.owner = .joining) → flusherLeft w.flusher = 0 := by
    intro hno
    by_contra hleft
    exact hno (h.told hleft).2
  unfold stepOwner
  cases ho : w.owner with
  | alive => exact absurd ho h.begun
  | stopping =>
    have hpc : flusherLeft (if w.flusher = .waiting then FlusherPc.woken else w.flusher)
        ≤ flusherLeft w.flusher := by
      split
      · rename_i hf
        rw [hf]
        exact Nat.le_succ 1
      · exact le_rfl
    refine ⟨⟨nofun, fun hleft => ⟨?_, .inr rfl⟩, fun _ => ?_⟩, hpc, fun _ => le_rfl⟩
    · exact (h.told fun hzero => hleft (Nat.le_zero.1 (hzero ▸ hpc))).1
    · simp only []
      split
      · nofun
      · exact h.present (.inl ho)
  | joining =>
    simp only []
    split
    · rename_i hf
      have hzero : flusherLeft w.flusher = 0 := by rw [hf]; rfl
      exact ⟨⟨nofun, fun hleft => absurd hzero hleft, fun ho' => by simp at ho'⟩, le_rfl,
        fun _ => le_rfl⟩
    · rename_i hf
      refine ⟨h, le_rfl, fun hzero => ?_⟩
      have hpres := h.present (.inr ho)
      cases hp : w.flusher <;> simp [flusherLeft, hp] at hf hpres hzero
  | flushing | closing =>
    have hzero := hquiet (by simp [ho])
    exact ⟨⟨nofun, fun hleft => absurd hzero hleft, fun ho' => by simp at ho'⟩, le_rfl,
      fun _ => le_rfl⟩
  | dropped => exact ⟨h, le_rfl, fun _ => by rw [ho]; exact Nat.zero_le _⟩

theorem Dropping.calls (h : Dropping w) {p : Prop} [Decidable p] {w' : AofWriter}
    (hp : p → w.owner = .alive) : (if p then w' else w) = w :=
  if_neg fun hp' => h.begun (hp hp')

theorem Dropping.step (h : Dropping w) (e : Event) :
    Dropping (w.step e)
      ∧ flusherLeft (w.step e).flusher ≤ flusherLeft w.flusher - e.ofFlusher.toNat
      ∧ (flusherLeft w.flusher = 0 →
        ownerLeft (w.step e).owner ≤ ownerLeft w.owner - e.ofOwner.toNat) := by
  cases e with
  | append | barrierFlush | barrierSync =>
    simp only [AofWriter.step]
    rw [h.calls (by first | exact id | exact And.left)]
    exact ⟨h, le_rfl, fun _ => le_rfl⟩
  | flusher limit synced =>
    obtain ⟨hd, hf, ho⟩ := h.flusher limit synced
    exact ⟨hd, hf, fun _ => by rw [AofWriter.step, ho]; exact le_rfl⟩
  | owner limit last synced => exact h.owner limit last synced

theorem phase_step (h : Alive w ∨ Dropping w) (e : Event) :
    Alive (w.step e) ∨ Dropping (w.step e) := by
  rcases h with h | h
  · exact h.step e
  · exact .inr (h.step e).1

theorem Alive.saving (h : Alive w) : Saving w := by
  intro ho
  rw [h.owner] at ho
  simp at ho

/-- Only the drop itself touches the file after its flush. -/
theorem Saving.step (hs : Saving w) (h : Alive w ∨ Dropping w) (he : e.dropSucceeds = true) :
    Saving (w.step e) := by
  rcases h with h | h
  · rcases h.step e with h' | h'
    · exact h'.saving
    · intro ho
      cases e with
      | owner limit last synced =>
        simp only [AofWriter.step, stepOwner, h.owner] at ho
        split at ho <;> simp at ho
      | append | barrierFlush | barrierSync =>
        simp only [AofWriter.step] at ho
        split at ho <;> simp [h.owner] at ho
      | flusher =>
        simp only [AofWriter.step, stepFlusher] at ho
        split at ho <;> simp [h.owner] at ho
  · cases e with
    | append | barrierFlush | barrierSync =>
      simp only [AofWriter.step]
      rwa [h.calls (by first | exact id | exact And.left)]
    | flusher limit synced =>
      intro ho
      rw [AofWriter.step, (h.flusher limit synced).2.2] at ho
      have hzero : flusherLeft w.flusher = 0 := by
        by_contra hleft
        rcases (h.told hleft).2 with hw | hw <;> rw [hw] at ho <;> simp at ho
      have hsame : w.stepFlusher limit synced = w := by
        cases hf : w.flusher <;> rw [hf] at hzero <;>
          first | cases hzero; done | simp [stepFlusher, hf]
      rw [AofWriter.step, hsame]
      exact hs ho
    | owner limit last synced =>
      obtain ⟨rfl, rfl⟩ : limit = none ∧ synced = true := by
        simpa [Event.dropSucceeds] using he
      intro ho
      simp only [AofWriter.step, stepOwner] at ho ⊢
      cases hw : w.owner with
      | alive => exact absurd hw h.begun
      | stopping => simp [hw] at ho
      | joining =>
        simp only [hw] at ho
        split at ho <;> simp [hw] at ho
      | flushing => exact w.inner.saved_of_flush none rfl
      | closing => exact (hs (.inl hw)).flushBuf last
      | dropped => exact hs (.inr hw)

theorem phase_run (events : List Event) (h : Alive w ∨ Dropping w) :
    Alive (w.run events) ∨ Dropping (w.run events) :=
  Runs.foldl_invariant (I := fun w => Alive w ∨ Dropping w) (fun _ e h => phase_step h e) events h

theorem saving_run : ∀ (events : List Event) {w : AofWriter}, Alive w ∨ Dropping w → Saving w →
    (∀ e ∈ events, e.dropSucceeds = true) → Saving (w.run events)
  | [], _, _, hs, _ => hs
  | e :: events, _, h, hs, he =>
    saving_run events (phase_step h e) (hs.step h (he e List.mem_cons_self)) fun e' he' =>
      he e' (List.mem_cons_of_mem e he')

theorem step_absent (h : w.flusher = .absent) (e : Event) : (w.step e).flusher = .absent := by
  cases e with
  | append | barrierFlush | barrierSync =>
    simp only [step]
    split <;> exact h
  | flusher => simp only [step, stepFlusher, h]
  | owner =>
    simp only [step, stepOwner, h, if_true, reduceCtorEq, if_false]
    split <;> first | rfl | exact h

theorem Dropping.ends (h : Dropping w) {waiting later : List Event}
    (hflusher : flusherLeft w.flusher ≤ waiting.countP Event.ofFlusher)
    (howner : 4 ≤ later.countP Event.ofOwner) : ((w.run waiting).run later).owner = .dropped := by
  obtain ⟨hd, hf⟩ : Dropping (w.run waiting) ∧ flusherLeft (w.run waiting).flusher
      ≤ flusherLeft w.flusher - waiting.countP Event.ofFlusher :=
    Runs.foldl_countdown (m := fun w : AofWriter => flusherLeft w.flusher) waiting h
      fun e _ w hw => ⟨(hw.step e).1, (hw.step e).2.1⟩
  have ho := (Runs.foldl_countdown (I := fun w => Dropping w ∧ flusherLeft w.flusher = 0)
    (m := fun w : AofWriter => ownerLeft w.owner) later ⟨hd, by omega⟩ fun e _ w hw =>
      have hstep := hw.1.step e
      ⟨⟨hstep.1, Nat.le_zero.1 (hw.2 ▸ hstep.2.1.trans (Nat.sub_le _ _))⟩, hstep.2.2 hw.2⟩).2
  have hfour : ownerLeft (w.run waiting).owner ≤ 4 := by
    cases hp : (w.run waiting).owner <;> first | exact absurd hp hd.begun | simp [ownerLeft]
  have hle : ownerLeft ((w.run waiting).run later).owner = 0 :=
    Nat.le_zero.1 (ho.trans (by omega))
  cases hp : ((w.run waiting).run later).owner <;> rw [hp] at hle <;> first | rfl | cases hle

/-- Once the drop of the writer has begun: the flusher ends after four steps of its own at most and
the drop after four more of its own, whatever else happens and whatever fails. If the drop's flush
and sync succeed, everything that the calls left is then in the file and synced. -/
theorem drop_saves (policy : FsyncPolicy) (file : Bytes) (events waiting later : List Event)
    (hbegun : ((openLog policy file).run events).owner ≠ .alive)
    (hflusher : 4 ≤ waiting.countP Event.ofFlusher ∨ policy ≠ .everySec)
    (howner : 4 ≤ later.countP Event.ofOwner) :
    let w := (openLog policy file).run (events ++ waiting ++ later)
    w.owner = .dropped
      ∧ ((∀ e ∈ events ++ waiting ++ later, e.dropSucceeds = true) →
        ∃ pieces, w.inner.file = file ++ pieces.flatten ∧ w.inner.synced = w.inner.file.length
          ∧ List.Forall₂ Lands w.calls pieces) := by
  intro w
  have halive := alive_openLog policy file
  have hdrop := (phase_run events (.inl halive)).resolve_left fun h => hbegun h.owner
  have hleft : flusherLeft ((openLog policy file).run events).flusher
      ≤ waiting.countP Event.ofFlusher := by
    rcases hflusher with hcount | hne
    · refine le_trans ?_ hcount
      cases ((openLog policy file).run events).flusher <;> simp [flusherLeft]
    · have habsent : ((openLog policy file).run events).flusher = .absent :=
        Runs.foldl_invariant (I := fun w : AofWriter => w.flusher = .absent)
          (fun w e hw => step_absent hw e) events (by simp [openLog, hne])
      rw [habsent]
      exact Nat.zero_le _
  have hdone : w.owner = .dropped := by
    have hruns : w = (((openLog policy file).run events).run waiting).run later := by
      simp only [w, run, List.foldl_append]
    rw [hruns]
    exact hdrop.ends hleft howner
  refine ⟨hdone, fun hio => ?_⟩
  obtain ⟨pieces, hc, hl⟩ := ((kept_openLog policy file).run (events ++ waiting ++ later)).landed
  have hsaved := saving_run _ (.inl halive) halive.saving hio (.inr hdone)
  exact ⟨pieces, hsaved.contents.trans hc, hsaved.2, hl⟩

/-- A record is in the buffer when the drop begins, and the flusher is in its wait. -/
def droppedEarly : List Event :=
  [.append [.set [107] [118]] none none none, .flusher none true, .owner none none true]

/-- The steps of the flusher, and those of a drop with this flush and sync. -/
def lastFlusher : List Event := List.replicate 4 (.flusher none true)

def lastOwner (limit : Option ℕ) (synced : Bool) : List Event :=
  List.replicate 4 (.owner limit none synced)

/-- The drop ends with a flush that fails and with one that succeeds, and then the record is synced.
-/
theorem drop_saves_droppedEarly :
    let run := fun last => (openLog .everySec []).run (droppedEarly ++ lastFlusher ++ last)
    (run (lastOwner (some 0) false)).owner = .dropped
      ∧ ∃ pieces, (run (lastOwner none true)).inner.file = pieces.flatten
        ∧ (run (lastOwner none true)).inner.synced = (run (lastOwner none true)).inner.file.length
        ∧ List.Forall₂ Lands [([.set [107] [118]], true)] pieces := by
  have hone : ∀ e ∈ droppedEarly ++ lastFlusher ++ lastOwner none true,
      e.dropSucceeds = true := by
    decide
  exact ⟨(drop_saves .everySec [] droppedEarly lastFlusher (lastOwner (some 0) false) (by decide)
      (.inl (by decide)) (by decide)).1,
    (drop_saves .everySec [] droppedEarly lastFlusher (lastOwner none true) (by decide)
      (.inl (by decide)) (by decide)).2 hone⟩

end Drop

end FerrumKv.AofWriter
