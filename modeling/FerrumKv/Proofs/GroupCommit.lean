import FerrumKv.GroupCommit
import FerrumKv.Lib.Runs

/-!
# An answered writer is durable

The barrier counts flushed batches, and a rewrite starts the count again. Outside a swap the file at
the path is the writer's file, it holds every batch appended so far, and the batches counted up to
`synced` are durable in it (`Shared`). A writer knows how far its own batches reach in that count
(`WriterOk`), a rewrite that its snapshot and the delta hold all that was appended (`WorkerOk`). So
along a calm schedule a writer is answered only when its batches are in the file at the path and
durable there (`answered_durable`); other schedules break this (`answered_too_early`).
-/

namespace FerrumKv.CommitSystem

variable {snapshot : List Batch} {mine : List Batch} {x : CommitWriter} {b : Batch}

/-! ## The invariant -/

/-- The batches counted up to `n`. -/
def counted (s : CommitSystem) (n : ℕ) : List Batch := s.log.take (s.start + n)

/-- A writer inside `write_bytes`. -/
def Appending : WriterPc → Prop
  | .locked _ | .written _ | .stamped _ => True
  | _ => False

structure WriterOk (s : CommitSystem) (i : ℕ) (x : CommitWriter) : Prop where
  mine : ∀ b ∈ x.mine, b ∈ s.log
  held : Appending x.pc → s.lock = some (.writer i)
  written : ∀ b, x.pc = .written b → b ∈ s.content s.handle
  stamped : ∀ b, x.pc = .stamped b → b ∈ s.log
  target : ∀ t, x.pc = .targeted t → ∀ b ∈ x.mine, b ∈ s.counted t
  barrier : ∀ c, barrierOf x.pc = some c →
    NoSwap s ∧ c ≤ s.seq ∧ ∀ b ∈ x.mine, b ∈ s.counted c
  syncing : ∀ c inode captured, x.pc = .syncing c inode captured →
    inode = s.path ∧ ∀ b ∈ s.counted c, b ∈ captured
  fsynced : ∀ c, x.pc = .fsynced c → ∀ b ∈ s.counted c, b ∈ s.durable s.path

/-- A snapshot and the delta hold all that was appended, but for a batch about to be mirrored. -/
def Captures (s : CommitSystem) (snapshot : List Batch) : Prop :=
  ∀ b ∈ s.log, b ∈ snapshot ∨ b ∈ s.delta ∨ ∃ i, (s.writer i).pc = .stamped b

structure WorkerOk (s : CommitSystem) (w : ℕ) (x : CommitWorker) : Prop where
  flag : 5 ≤ rank x.pc → s.rewriting = true
  captures : 2 ≤ rank x.pc → s.rewriting = true → Captures s x.snapshot
  temp : rank x.pc = 4 ∨ rank x.pc = 5 → ∃ inode, s.temp = some inode
    ∧ ∀ b ∈ x.snapshot, b ∈ s.content inode ∧ b ∈ s.durable inode
  path : 6 ≤ rank x.pc → ∀ b ∈ x.snapshot, b ∈ s.content s.path ∧ b ∈ s.durable s.path
  held : 7 ≤ rank x.pc → s.lock = some (.worker w)
  handle : 8 ≤ rank x.pc → s.handle = s.path
  syncFile : 9 ≤ rank x.pc → s.syncFile = s.path
  seq : 10 ≤ rank x.pc → s.seq = 0
  synced : 11 ≤ rank x.pc → s.synced = 0
  replayed : 12 ≤ rank x.pc → ∀ b ∈ s.delta, b ∈ s.content s.path
  deltaSynced : 13 ≤ rank x.pc → ∀ b ∈ s.delta, b ∈ s.durable s.path

/-- The temp file is none of the files in use. -/
structure Inodes (s : CommitSystem) : Prop where
  path : s.path < s.nextInode
  handle : s.handle < s.nextInode
  temp : ∀ inode, s.temp = some inode →
    inode < s.nextInode ∧ inode ≠ s.path ∧ inode ≠ s.handle

/-- Outside a swap: one file, which holds all that was appended, durable up to `synced`. -/
structure Steady (s : CommitSystem) : Prop where
  handle : s.handle = s.path
  syncFile : s.syncFile = s.path
  content : ∀ b ∈ s.log, b ∈ s.content s.path
  synced : s.synced ≤ s.seq
  durable : ∀ b ∈ s.counted s.synced, b ∈ s.durable s.path

structure Shared (s : CommitSystem) : Prop where
  count : s.start + s.seq = s.log.length
  inodes : Inodes s
  one : ∀ w w', (s.worker w).pc ≠ .idle → (s.worker w').pc ≠ .idle → w = w'
  steady : NoSwap s → Steady s

structure Inv (s : CommitSystem) : Prop where
  shared : Shared s
  writer : ∀ i, WriterOk s i (s.writer i)
  worker : ∀ w, WorkerOk s w (s.worker w)

theorem inv_init (deltaCap : ℕ) : Inv (init deltaCap) := by
  refine ⟨⟨rfl, ⟨Nat.zero_lt_one, Nat.zero_lt_one, fun _ h => (by cases h)⟩, ?_, ?_⟩, ?_, ?_⟩
  · intro w w' hw
    exact absurd rfl hw
  · intro _
    exact ⟨rfl, rfl, fun _ hb => (by cases hb), le_rfl, fun _ hb => (by cases hb)⟩
  · intro i
    constructor <;> simp [init, Appending, barrierOf]
  · intro w
    constructor <;> simp [init, rank]

section Counted

variable {s s' : CommitSystem}

theorem counted_sub_log (s : CommitSystem) (n : ℕ) : ∀ b ∈ s.counted n, b ∈ s.log := fun _ hb =>
  List.mem_of_mem_take hb

theorem counted_mono (hlog : s.log <+: s'.log) (hstart : s.start ≤ s'.start) (n : ℕ) :
    ∀ b ∈ s.counted n, b ∈ s'.counted n := by
  obtain ⟨l, hl⟩ := hlog
  intro b hb
  unfold counted at hb ⊢
  have hle : s.start + n ≤ s'.start + n := by omega
  have hb' : b ∈ s'.log.take (s.start + n) := by
    rw [← hl, List.take_append]
    exact List.mem_append_left _ hb
  exact (List.take_subset_take_left s'.log hle) hb'

/-- What is counted below the sequence does not change while the log grows. -/
theorem counted_eq (hcount : s.start + s.seq = s.log.length) (hlog : s.log <+: s'.log)
    (hstart : s'.start = s.start) {n : ℕ} (hn : n ≤ s.seq) : s'.counted n = s.counted n := by
  obtain ⟨l, hl⟩ := hlog
  unfold counted
  rw [hstart, ← hl, List.take_append_of_le_length (by omega)]

theorem counted_seq (hcount : s.start + s.seq = s.log.length) : s.counted s.seq = s.log := by
  unfold counted
  rw [hcount, List.take_length]

theorem counted_le (s : CommitSystem) {m n : ℕ} (h : m ≤ n) :
    ∀ b ∈ s.counted m, b ∈ s.counted n := by
  intro b hb
  exact (List.take_subset_take_left s.log (Nat.add_le_add_left h s.start)) hb

end Counted

/-- What a step of another thread may do, as far as writer `i` is concerned. -/
structure Rely (s s' : CommitSystem) (i : ℕ) (x : CommitWriter) : Prop where
  log : s.log <+: s'.log
  start : s.start ≤ s'.start
  lock : s.lock = some (.writer i) → s'.lock = some (.writer i) ∧ s'.handle = s.handle
  content : ∀ b ∈ s.content s.handle, b ∈ s'.content s.handle
  barrier : barrierOf x.pc ≠ none → NoSwap s → NoSwap s' ∧ s'.start = s.start ∧ s.seq ≤ s'.seq
    ∧ s'.path = s.path ∧ ∀ b ∈ s.durable s.path, b ∈ s'.durable s.path

theorem WriterOk.stable {s s' : CommitSystem} {i : ℕ} (h : WriterOk s i x)
    (hcount : s.start + s.seq = s.log.length) (hr : Rely s s' i x) : WriterOk s' i x := by
  refine ⟨fun b hb => hr.log.subset (h.mine b hb), fun ha => (hr.lock (h.held ha)).1, ?_,
    fun b hb => hr.log.subset (h.stamped b hb), ?_, ?_, ?_, ?_⟩
  · intro b hb
    have hheld : s.lock = some (.writer i) := h.held (by rw [hb]; trivial)
    rw [(hr.lock hheld).2]
    exact hr.content b (h.written b hb)
  · intro t ht b hb
    exact counted_mono hr.log hr.start t b (h.target t ht b hb)
  · intro c hc
    obtain ⟨hq, hle, hm⟩ := h.barrier c hc
    obtain ⟨hq', -, hseq, -, -⟩ := hr.barrier (by rw [hc]; exact Option.some_ne_none c) hq
    exact ⟨hq', hle.trans hseq, fun b hb => counted_mono hr.log hr.start c b (hm b hb)⟩
  · intro c inode captured hc
    have hb : barrierOf x.pc = some c := by rw [hc]; rfl
    obtain ⟨hq, hle, -⟩ := h.barrier c hb
    obtain ⟨-, hstart, -, hpath, -⟩ := hr.barrier (by rw [hb]; exact Option.some_ne_none c) hq
    rw [counted_eq hcount hr.log hstart hle, hpath]
    exact h.syncing c inode captured hc
  · intro c hc
    have hb : barrierOf x.pc = some c := by rw [hc]; rfl
    obtain ⟨hq, hle, -⟩ := h.barrier c hb
    obtain ⟨-, hstart, -, hpath, hd⟩ := hr.barrier (by rw [hb]; exact Option.some_ne_none c) hq
    rw [counted_eq hcount hr.log hstart hle, hpath]
    exact fun b hb' => hd b (h.fsynced c hc b hb')

/-- What the steps of writer `i` do to the rest of the system. -/
structure WriterMove (s s' : CommitSystem) (i : ℕ) : Prop where
  worker : s'.worker = s.worker
  start : s'.start = s.start
  path : s'.path = s.path
  temp : s'.temp = s.temp
  handle : s'.handle = s.handle
  syncFile : s'.syncFile = s.syncFile
  nextInode : s'.nextInode = s.nextInode
  other : ∀ j, j ≠ i → s'.writer j = s.writer j
  content : ∀ k, ∀ b ∈ s.content k, b ∈ s'.content k
  durable : ∀ k, ∀ b ∈ s.durable k, b ∈ s'.durable k
  log : s.log <+: s'.log
  appended : ∀ b ∈ s'.log, b ∈ s.log ∨ b ∈ s.content s.handle
  count : s.log.length + s'.seq = s'.log.length + s.seq
  lock : ∀ h, s.lock = some h → h ≠ .writer i →
    s'.lock = s.lock ∧ s'.seq = s.seq ∧ s'.delta = s.delta
  captures : s'.rewriting = true →
    s.rewriting = true ∧ ∀ snapshot, Captures s snapshot → Captures s' snapshot
  flag : s.rewriting = true → s'.rewriting = true ∨ ∀ w, rank (s.worker w).pc < 5
  synced : s'.synced = s.synced ∨ NoSwap s ∧ ∃ c ≤ s.seq, s'.synced = max s.synced c
    ∧ ∀ b ∈ s.counted c, b ∈ s.durable s.path

namespace WriterMove

variable {s s' : CommitSystem} {i : ℕ}

theorem noSwap (hm : WriterMove s s' i) : NoSwap s' ↔ NoSwap s := by
  unfold NoSwap
  rw [hm.worker]

theorem seq_le (hm : WriterMove s s' i) : s.seq ≤ s'.seq := by
  have hlen := hm.log.length_le
  have hcount := hm.count
  omega

theorem rely (hm : WriterMove s s' i) {j : ℕ} (hj : j ≠ i) (x : CommitWriter) :
    Rely s s' j x := by
  refine ⟨hm.log, hm.start.ge, ?_, hm.content s.handle, ?_⟩
  · intro hl
    have hne : Holder.writer j ≠ .writer i := fun e => hj (Holder.writer.inj e)
    exact ⟨(hm.lock _ hl hne).1.trans hl, hm.handle⟩
  · intro _ hq
    exact ⟨hm.noSwap.2 hq, hm.start, hm.seq_le, hm.path, hm.durable s.path⟩

theorem workerOk (hm : WriterMove s s' i) {w : ℕ} (h : WorkerOk s w (s.worker w)) :
    WorkerOk s' w (s.worker w) := by
  refine ⟨?_, ?_, ?_, ?_, ?_, ?_, ?_, ?_, ?_, ?_, ?_⟩
  · intro hr
    rcases hm.flag (h.flag hr) with hf | hf
    · exact hf
    · have := hf w
      omega
  · intro hr hrw
    obtain ⟨hrw', hc⟩ := hm.captures hrw
    exact hc _ (h.captures hr hrw')
  · intro hr
    obtain ⟨inode, ht, hf⟩ := h.temp hr
    exact ⟨inode, hm.temp.trans ht, fun b hb =>
      ⟨hm.content inode b (hf b hb).1, hm.durable inode b (hf b hb).2⟩⟩
  · intro hr b hb
    rw [hm.path]
    exact ⟨hm.content _ b (h.path hr b hb).1, hm.durable _ b (h.path hr b hb).2⟩
  · intro hr
    exact (hm.lock _ (h.held hr) Holder.noConfusion).1.trans (h.held hr)
  · intro hr
    rw [hm.handle, hm.path]
    exact h.handle hr
  · intro hr
    rw [hm.syncFile, hm.path]
    exact h.syncFile hr
  · intro hr
    exact (hm.lock _ (h.held (by omega)) Holder.noConfusion).2.1.trans (h.seq hr)
  · intro hr
    rcases hm.synced with hs | ⟨hq, -⟩
    · exact hs.trans (h.synced hr)
    · have := hq w
      omega
  · intro hr b hb
    rw [(hm.lock _ (h.held (by omega)) Holder.noConfusion).2.2] at hb
    rw [hm.path]
    exact hm.content _ b (h.replayed hr b hb)
  · intro hr b hb
    rw [(hm.lock _ (h.held (by omega)) Holder.noConfusion).2.2] at hb
    rw [hm.path]
    exact hm.durable _ b (h.deltaSynced hr b hb)

theorem steady (hm : WriterMove s s' i) (hcount : s.start + s.seq = s.log.length)
    (h : Steady s) : Steady s' := by
  have hcounted : ∀ n ≤ s.seq, s'.counted n = s.counted n := fun n hn =>
    counted_eq hcount hm.log hm.start hn
  refine ⟨?_, ?_, ?_, ?_, ?_⟩
  · rw [hm.handle, hm.path, h.handle]
  · rw [hm.syncFile, hm.path, h.syncFile]
  · intro b hb
    rw [hm.path]
    rcases hm.appended b hb with hb | hb
    · exact hm.content _ b (h.content b hb)
    · rw [h.handle] at hb
      exact hm.content _ b hb
  · have hle := hm.seq_le
    have hs := h.synced
    rcases hm.synced with he | ⟨-, c, hc, he, -⟩ <;> rw [he]
    · omega
    · exact (max_le hs hc).trans hle
  · intro b hb
    rw [hm.path]
    apply hm.durable
    rcases hm.synced with he | ⟨-, c, hc, he, hd⟩ <;> rw [he] at hb
    · rw [hcounted _ h.synced] at hb
      exact h.durable b hb
    · rcases max_choice s.synced c with hx | hx <;> rw [hx] at hb
      · rw [hcounted _ h.synced] at hb
        exact h.durable b hb
      · rw [hcounted _ hc] at hb
        exact hd b hb

/-- A step of writer `i` keeps the invariant when it keeps that writer's own part. -/
theorem inv (hm : WriterMove s s' i) (h : Inv s) (hi : WriterOk s' i (s'.writer i)) : Inv s' := by
  refine ⟨⟨?_, ?_, ?_, ?_⟩, ?_, ?_⟩
  · have hc := h.shared.count
    have hm' := hm.count
    have hs := hm.start
    omega
  · obtain ⟨hp, hh, ht⟩ := h.shared.inodes
    constructor
    · rw [hm.path, hm.nextInode]
      exact hp
    · rw [hm.handle, hm.nextInode]
      exact hh
    · rw [hm.temp, hm.nextInode, hm.path, hm.handle]
      exact ht
  · rw [hm.worker]
    exact h.shared.one
  · intro hq
    exact hm.steady h.shared.count (h.shared.steady (hm.noSwap.1 hq))
  · intro j
    by_cases hj : j = i
    · rw [hj]
      exact hi
    · rw [hm.other j hj]
      exact (h.writer j).stable h.shared.count (hm.rely hj _)
  · intro w
    rw [hm.worker]
    exact hm.workerOk (h.worker w)

end WriterMove

section Files

/-- The files with `bs` added to file `inode` hold what they held, and `bs`. -/
theorem mem_update_append (files : ℕ → List Batch) (inode : ℕ) (bs : List Batch) (k : ℕ) (b : Batch) :
    b ∈ Function.update files inode (files inode ++ bs) k ↔ b ∈ files k ∨ k = inode ∧ b ∈ bs := by
  by_cases hk : k = inode
  · rw [hk, Function.update_self, List.mem_append]
    simp
  · rw [Function.update_of_ne hk]
    simp [hk]

theorem mem_addContent (s : CommitSystem) (inode : ℕ) (bs : List Batch) (k : ℕ) (b : Batch) :
    b ∈ (s.addContent inode bs).content k ↔ b ∈ s.content k ∨ k = inode ∧ b ∈ bs :=
  mem_update_append s.content inode bs k b

theorem mem_addDurable (s : CommitSystem) (inode : ℕ) (bs : List Batch) (k : ℕ) (b : Batch) :
    b ∈ (s.addDurable inode bs).durable k ↔ b ∈ s.durable k ∨ k = inode ∧ b ∈ bs :=
  mem_update_append s.durable inode bs k b

end Files

section Writer

variable {s : CommitSystem} {i : ℕ}

theorem setWriter_self (s : CommitSystem) (i : ℕ) (x : CommitWriter) :
    (s.setWriter i x).writer i = x := by
  simp only [setWriter, Function.update_self]

theorem setWriter_other (s : CommitSystem) {i j : ℕ} (hj : j ≠ i) (x : CommitWriter) :
    (s.setWriter i x).writer j = s.writer j := by
  simp only [setWriter, Function.update_of_ne hj]

/-- A batch that some writer is about to mirror stays so when another writer moves. -/
theorem stamped_setWriter (hpc : (s.writer i).pc ≠ .stamped b) (x : CommitWriter)
    (h : ∃ j, (s.writer j).pc = .stamped b) : ∃ j, ((s.setWriter i x).writer j).pc = .stamped b := by
  obtain ⟨j, hj⟩ := h
  have hne : j ≠ i := by
    rintro rfl
    exact hpc hj
  refine ⟨j, ?_⟩
  rw [setWriter_other s hne]
  exact hj

/-- A writer that claims nothing beyond its batches being logged. -/
def Plain : WriterPc → Prop
  | .idle | .appended | .waiting | .gated | .answered => True
  | _ => False

theorem WriterOk.plain (hpc : Plain x.pc) (hmine : ∀ b ∈ x.mine, b ∈ s.log) :
    WriterOk s i x := by
  obtain ⟨pc, mine⟩ := x
  cases pc <;> first
    | exact hpc.elim
    | (constructor <;> simp [Appending, barrierOf]; exact hmine)

/-- A barrier that has read `c` and not started its `fsync`. -/
def Reading (c : ℕ) : WriterPc → Prop
  | .covered d | .barrier d | .flushed d => d = c
  | _ => False

theorem WriterOk.reading {c : ℕ} (hpc : Reading c x.pc) (hmine : ∀ b ∈ x.mine, b ∈ s.log)
    (hc : NoSwap s ∧ c ≤ s.seq ∧ ∀ b ∈ x.mine, b ∈ s.counted c) : WriterOk s i x := by
  obtain ⟨pc, mine⟩ := x
  cases pc <;> first
    | exact hpc.elim
    | obtain rfl := hpc
      constructor <;> simp [Appending, barrierOf] <;> first | exact hmine | exact hc

/-- A step that moves the writer and takes or frees a gate, and writes nothing. -/
theorem WriterMove.of_setWriter (x : CommitWriter) (lock : Option Holder)
    (gate fsyncing : Option ℕ) (nextId : ℕ) (hpc : ∀ b, (s.writer i).pc ≠ .stamped b)
    (hlock : lock = s.lock ∨ s.lock = none) :
    WriterMove s { s.setWriter i x with lock, gate, fsyncing, nextId } i where
  worker := rfl
  start := rfl
  path := rfl
  temp := rfl
  handle := rfl
  syncFile := rfl
  nextInode := rfl
  other _ hj := setWriter_other s hj x
  content _ _ hb := hb
  durable _ _ hb := hb
  log := List.prefix_rfl
  appended _ hb := .inl hb
  count := rfl
  lock h hh _ := by
    rcases hlock with hl | hl
    · exact ⟨hl, rfl, rfl⟩
    · rw [hl] at hh
      cases hh
  captures hr := ⟨hr, fun snapshot hc b hb => by
    rcases hc b hb with hb | hb | hb
    · exact .inl hb
    · exact .inr (.inl hb)
    · exact .inr (.inr (stamped_setWriter (hpc b) x hb))⟩
  flag hr := .inl hr
  synced := .inl rfl

theorem inv_setWriter (h : Inv s) {lock : Option Holder}
    {gate fsyncing : Option ℕ} {nextId : ℕ} (hpc : ∀ b, (s.writer i).pc ≠ .stamped b)
    (hlock : lock = s.lock ∨ s.lock = none)
    (hx : WriterOk { s.setWriter i x with lock, gate, fsyncing, nextId } i x) :
    Inv { s.setWriter i x with lock, gate, fsyncing, nextId } := by
  refine (WriterMove.of_setWriter x lock gate fsyncing nextId hpc hlock).inv h ?_
  rw [show ({ s.setWriter i x with lock, gate, fsyncing, nextId } : CommitSystem).writer i = x from
    setWriter_self s i x]
  exact hx

theorem inv_beginAppend (h : Inv s) (len : ℕ) : Inv (s.beginAppend i len) := by
  unfold beginAppend
  split
  · rename_i hc
    refine inv_setWriter h (fun b hb => ?_) (.inr hc.2) ?_
    · rcases hc.1 with hi | hi <;> rw [hi] at hb <;> cases hb
    · constructor <;> simp [Appending, barrierOf]
      exact (h.writer i).mine
  · exact h

theorem inv_locked (h : Inv s) (hx : s.writer i = ⟨.locked b, mine⟩) :
    Inv ((s.addContent s.handle [b]).setWriter i ⟨.written b, mine⟩) := by
  have hi := h.writer i
  rw [hx] at hi
  have hgrow : ∀ k, ∀ b' ∈ s.content k, b' ∈ (s.addContent s.handle [b]).content k :=
    fun k b' hb' => (mem_addContent s s.handle [b] k b').2 (.inl hb')
  have hstep : WriterMove s ((s.addContent s.handle [b]).setWriter i ⟨.written b, mine⟩) i :=
    { WriterMove.of_setWriter ⟨.written b, mine⟩ s.lock s.gate s.fsyncing s.nextId
        (by simp [hx]) (.inl rfl) with content := hgrow }
  refine hstep.inv h ?_
  rw [setWriter_self]
  constructor <;> simp [Appending, barrierOf]
  · exact hi.mine
  · exact hi.held trivial
  · exact (mem_addContent s s.handle [b] s.handle b).2 (.inr ⟨rfl, List.mem_singleton_self b⟩)

theorem inv_written (h : Inv s) (hx : s.writer i = ⟨.written b, mine⟩) :
    Inv { s.setWriter i ⟨.stamped b, mine⟩ with seq := s.seq + 1, log := s.log ++ [b] } := by
  have hi := h.writer i
  rw [hx] at hi
  have hheld := hi.held trivial
  have hstep : WriterMove s
      { s.setWriter i ⟨.stamped b, mine⟩ with seq := s.seq + 1, log := s.log ++ [b] } i :=
    { WriterMove.of_setWriter ⟨.stamped b, mine⟩ s.lock s.gate s.fsyncing s.nextId
        (by simp [hx]) (.inl rfl) with
      log := List.prefix_append _ _
      appended := by
        intro b' hb'
        rcases List.mem_append.1 hb' with hb' | hb'
        · exact .inl hb'
        · rw [List.mem_singleton.1 hb']
          exact .inr (hi.written b rfl)
      count := by
        show s.log.length + (s.seq + 1) = (s.log ++ [b]).length + s.seq
        rw [List.length_append, List.length_singleton]
        omega
      lock := by
        intro holder hl hne
        rw [hheld] at hl
        exact absurd (Option.some.inj hl).symm hne
      captures := by
        intro hr
        refine ⟨hr, fun snapshot hc b' hb' => ?_⟩
        rcases List.mem_append.1 hb' with hb' | hb'
        · rcases hc b' hb' with hb' | hb' | hb'
          · exact .inl hb'
          · exact .inr (.inl hb')
          · exact .inr (.inr (stamped_setWriter (by simp [hx]) _ hb'))
        · rw [List.mem_singleton.1 hb']
          refine .inr (.inr ⟨i, ?_⟩)
          show ((s.setWriter i _).writer i).pc = _
          rw [setWriter_self] }
  refine hstep.inv h ?_
  show WriterOk _ i ((s.setWriter i _).writer i)
  rw [setWriter_self]
  constructor <;> simp [Appending, barrierOf]
  · exact fun b' hb' => .inl (hi.mine b' hb')
  · exact hheld

theorem inv_stamped (h : Inv s) (hx : s.writer i = ⟨.stamped b, mine⟩)
    (hcalm : s.overflows b = true → ∀ w, rank (s.worker w).pc < 5) : Inv (s.mirrorDelta i b) := by
  have hi := h.writer i
  rw [hx] at hi
  have hheld := hi.held trivial
  have hstep : WriterMove s (s.mirrorDelta i b) i :=
    { worker := rfl, start := rfl, path := rfl, temp := rfl, handle := rfl, syncFile := rfl
      nextInode := rfl, content := fun _ _ hb => hb, durable := fun _ _ hb => hb
      log := List.prefix_rfl, appended := fun _ hb => .inl hb, count := rfl, synced := .inl rfl
      other := fun j hj => setWriter_other s hj _
      lock := by
        intro holder hl hne
        rw [hheld] at hl
        exact absurd (Option.some.inj hl).symm hne
      captures := by
        intro hr
        obtain ⟨hr, ho⟩ : s.rewriting = true ∧ s.overflows b = false := by
          simpa [mirrorDelta] using hr
        have hdelta : (s.mirrorDelta i b).delta = s.delta ++ [b] := by
          simp [mirrorDelta, ho, hr]
        refine ⟨hr, fun snapshot hc b' hb' => ?_⟩
        rw [hdelta]
        by_cases he : b' = b
        · exact .inr (.inl (by simp [he]))
        rcases hc b' hb' with hb' | hb' | hb'
        · exact .inl hb'
        · exact .inr (.inl (List.mem_append_left _ hb'))
        · refine .inr (.inr (stamped_setWriter ?_ _ hb'))
          rw [hx]
          exact fun e => he (WriterPc.stamped.inj e).symm
      flag := by
        intro hr
        cases ho : s.overflows b with
        | true => exact .inr (hcalm ho)
        | false => exact .inl (by simp [mirrorDelta, hr, ho]) }
  refine hstep.inv h ?_
  show WriterOk _ i ((s.setWriter i _).writer i)
  rw [setWriter_self]
  refine WriterOk.plain trivial ?_
  intro b' hb'
  rw [hx] at hb'
  rcases List.mem_append.1 hb' with hb' | hb'
  · exact hi.mine b' hb'
  · rw [List.mem_singleton.1 hb']
    exact hi.stamped b rfl

theorem inv_syncing (h : Inv s) {c inode : ℕ} {captured mine : List Batch}
    (hx : s.writer i = ⟨.syncing c inode captured, mine⟩) :
    Inv { (s.addDurable inode captured).setWriter i ⟨.fsynced c, mine⟩ with fsyncing := none } := by
  have hi := h.writer i
  rw [hx] at hi
  obtain ⟨rfl, hcap⟩ := hi.syncing c inode captured rfl
  have hgrow : ∀ k, ∀ b ∈ s.durable k, b ∈ (s.addDurable s.path captured).durable k :=
    fun k b hb => (mem_addDurable s s.path captured k b).2 (.inl hb)
  have hstep : WriterMove s
      { (s.addDurable s.path captured).setWriter i ⟨.fsynced c, mine⟩ with fsyncing := none } i :=
    { WriterMove.of_setWriter ⟨.fsynced c, mine⟩ s.lock s.gate none s.nextId
        (by simp [hx]) (.inl rfl) with durable := hgrow }
  refine hstep.inv h ?_
  show WriterOk _ i (((s.addDurable s.path captured).setWriter i _).writer i)
  rw [setWriter_self]
  constructor <;> simp [Appending, barrierOf]
  · exact hi.mine
  · exact hi.barrier c rfl
  · exact fun b hb => (mem_addDurable s s.path captured s.path b).2 (.inr ⟨rfl, hcap b hb⟩)

theorem inv_fsynced (h : Inv s) {c : ℕ} (hx : s.writer i = ⟨.fsynced c, mine⟩) :
    Inv { s.setWriter i ⟨.answered, mine⟩ with synced := max s.synced c, gate := none } := by
  have hi := h.writer i
  rw [hx] at hi
  obtain ⟨hq, hc, -⟩ := hi.barrier c rfl
  have hstep : WriterMove s
      { s.setWriter i ⟨.answered, mine⟩ with synced := max s.synced c, gate := none } i :=
    { WriterMove.of_setWriter ⟨.answered, mine⟩ s.lock none s.fsyncing s.nextId
        (by simp [hx]) (.inl rfl) with
      synced := .inr ⟨hq, c, hc, rfl, hi.fsynced c rfl⟩ }
  refine hstep.inv h ?_
  show WriterOk _ i ((s.setWriter i _).writer i)
  rw [setWriter_self]
  exact WriterOk.plain trivial hi.mine

theorem inv_stepWriter (h : Inv s) (hcalm : Calm s (.writer i)) : Inv (s.stepWriter i) := by
  have hi := h.writer i
  rcases hx : s.writer i with ⟨pc, mine⟩
  rw [hx] at hi
  simp only [Calm, hx] at hcalm
  cases pc with
  | idle =>
    simp only [stepWriter, hx]
    exact h
  | locked b =>
    simp only [stepWriter, goto, hx]
    have hx' : (s.addContent s.handle [b]).writer i = ⟨.locked b, mine⟩ := hx
    rw [hx']
    exact inv_locked h hx
  | written b =>
    simp only [stepWriter, goto, hx]
    exact inv_written h hx
  | stamped b =>
    simp only [stepWriter, hx]
    exact inv_stamped h hx hcalm
  | appended =>
    simp only [stepWriter, goto, hx]
    refine inv_setWriter h (by simp [hx]) (.inl rfl) ?_
    constructor <;> simp [Appending, barrierOf]
    · exact hi.mine
    · intro b hb
      show b ∈ s.counted s.seq
      rw [counted_seq h.shared.count]
      exact hi.mine b hb
  | targeted target =>
    simp only [stepWriter, goto, hx]
    refine inv_setWriter h (by simp [hx]) (.inl rfl) (WriterOk.plain ?_ hi.mine)
    show Plain (if target ≤ s.synced then _ else _)
    split <;> trivial
  | waiting =>
    simp only [stepWriter, goto, hx]
    split
    · exact inv_setWriter h (by simp [hx]) (.inl rfl) (WriterOk.plain trivial hi.mine)
    · exact h
  | gated =>
    simp only [stepWriter, goto, hx]
    refine inv_setWriter h (by simp [hx]) (.inl rfl) (WriterOk.reading rfl hi.mine ?_)
    refine ⟨hcalm, le_rfl, fun b hb => ?_⟩
    show b ∈ s.counted s.seq
    rw [counted_seq h.shared.count]
    exact hi.mine b hb
  | covered c =>
    simp only [stepWriter, goto, hx]
    split
    · exact inv_setWriter h (by simp [hx]) (.inl rfl) (WriterOk.plain trivial hi.mine)
    · exact inv_setWriter h (by simp [hx]) (.inl rfl)
        (WriterOk.reading rfl hi.mine (hi.barrier c rfl))
  | barrier c =>
    simp only [stepWriter, goto, hx]
    split
    · exact inv_setWriter h (by simp [hx]) (.inl rfl)
        (WriterOk.reading rfl hi.mine (hi.barrier c rfl))
    · exact h
  | flushed c =>
    simp only [stepWriter, goto, hx]
    split
    · refine inv_setWriter h (by simp [hx]) (.inl rfl) ?_
      have hb := hi.barrier c rfl
      have hs := h.shared.steady hb.1
      constructor <;> simp [Appending, barrierOf]
      · exact hi.mine
      · exact hb
      · refine ⟨hs.syncFile, fun b hbc => ?_⟩
        show b ∈ s.content s.syncFile
        rw [hs.syncFile]
        exact hs.content b (counted_sub_log s c b hbc)
    · exact h
  | syncing c inode captured =>
    simp only [stepWriter, goto, hx]
    have hx' : (s.addDurable inode captured).writer i = ⟨.syncing c inode captured, mine⟩ := hx
    rw [hx']
    exact inv_syncing h hx
  | fsynced c =>
    simp only [stepWriter, goto, hx]
    exact inv_fsynced h hx
  | answered =>
    simp only [stepWriter, hx]
    exact inv_setWriter h (by simp [hx]) (.inl rfl) (WriterOk.plain trivial (by simp))

end Writer

/-! ## The steps of a rewrite -/

/-- What the steps of rewrite `w` do to the writers' part of the system. -/
structure WorkerMove (s s' : CommitSystem) (w : ℕ) : Prop where
  writer : s'.writer = s.writer
  log : s'.log = s.log
  other : ∀ v, v ≠ w → s'.worker v = s.worker v
  start : s.start ≤ s'.start
  lock : ∀ i, s.lock = some (.writer i) → s'.lock = s.lock ∧ s'.handle = s.handle
  content : ∀ b ∈ s.content s.handle, b ∈ s'.content s.handle
  barrier : (∃ i, barrierOf (s.writer i).pc ≠ none) → NoSwap s →
    rank (s'.worker w).pc < 6 ∧ s'.start = s.start ∧ s.seq ≤ s'.seq ∧ s'.path = s.path
      ∧ ∀ b ∈ s.durable s.path, b ∈ s'.durable s.path

section Worker

variable {s s' : CommitSystem} {w : ℕ}

theorem WorkerMove.rely (hm : WorkerMove s s' w) (i : ℕ) : Rely s s' i (s.writer i) := by
  refine ⟨hm.log ▸ List.prefix_rfl, hm.start, ?_, hm.content, ?_⟩
  · intro hl
    exact ⟨(hm.lock i hl).1.trans hl, (hm.lock i hl).2⟩
  · intro hb hq
    obtain ⟨hw, hrest⟩ := hm.barrier ⟨i, hb⟩ hq
    refine ⟨fun v => ?_, hrest⟩
    by_cases hv : v = w
    · rw [hv]
      exact hw
    · rw [hm.other v hv]
      exact hq v

theorem WorkerOk.of_idle {x : CommitWorker} (hx : x.pc = .idle) : WorkerOk s w x := by
  obtain ⟨pc, snapshot⟩ := x
  obtain rfl : pc = .idle := hx
  constructor <;> simp [rank]

/-- A step of the only running rewrite keeps the invariant when it keeps the rewrite's own part and
what holds outside a swap. -/
theorem WorkerMove.inv (hm : WorkerMove s s' w) (h : Inv s)
    (hidle : ∀ v, v ≠ w → (s.worker v).pc = .idle) (hw : WorkerOk s' w (s'.worker w))
    (hcount : s'.start + s'.seq = s'.log.length) (hinodes : Inodes s')
    (hsteady : rank (s'.worker w).pc < 6 → Steady s') : Inv s' := by
  have hidle' : ∀ v, v ≠ w → (s'.worker v).pc = .idle := by
    intro v hv
    rw [hm.other v hv]
    exact hidle v hv
  refine ⟨⟨hcount, hinodes, ?_, fun hq => hsteady (hq w)⟩, ?_, ?_⟩
  · intro v v' hv hv'
    have hvw : v = w := by_contra fun hne => hv (hidle' v hne)
    have hvw' : v' = w := by_contra fun hne => hv' (hidle' v' hne)
    rw [hvw, hvw']
  · intro i
    rw [hm.writer]
    exact (h.writer i).stable h.shared.count (hm.rely i)
  · intro v
    by_cases hv : v = w
    · rw [hv]
      exact hw
    · exact WorkerOk.of_idle (hidle' v hv)

theorem setWorker_self (s : CommitSystem) (w : ℕ) (x : CommitWorker) :
    (s.setWorker w x).worker w = x := by
  simp only [setWorker, Function.update_self]

theorem setWorker_other (s : CommitSystem) {v w : ℕ} (hv : v ≠ w) (x : CommitWorker) :
    (s.setWorker w x).worker v = s.worker v := by
  simp only [setWorker, Function.update_of_ne hv]

theorem noSwap_of_idle (hidle : ∀ v, v ≠ w → (s.worker v).pc = .idle)
    (hout : rank (s.worker w).pc < 6) : NoSwap s := by
  intro v
  by_cases hv : v = w
  · rw [hv]
    exact hout
  · rw [hidle v hv]
    decide

/-- A step outside the swap that leaves the files alone, but for the temp file. -/
theorem inv_setWorker (h : Inv s) (hidle : ∀ v, v ≠ w → (s.worker v).pc = .idle)
    (hout : rank (s.worker w).pc < 6) {x : CommitWorker} {rewriting : Bool} {temp : Option ℕ}
    (hx : rank x.pc < 6) (htemp : temp = s.temp ∨ temp = none)
    (hw : WorkerOk { s.setWorker w x with rewriting, temp } w x) :
    Inv { s.setWorker w x with rewriting, temp } := by
  have hself : ({ s.setWorker w x with rewriting, temp } : CommitSystem).worker w = x :=
    setWorker_self s w x
  have hs := h.shared.steady (noSwap_of_idle hidle hout)
  refine WorkerMove.inv (s := s) ⟨rfl, rfl, fun v hv => setWorker_other s hv x, le_rfl,
    fun _ hl => ⟨rfl, rfl⟩, fun _ hb => hb, fun _ _ => ?_⟩ h hidle ?_ h.shared.count ?_ ?_
  · rw [hself]
    exact ⟨hx, rfl, le_rfl, rfl, fun _ hb => hb⟩
  · rw [hself]
    exact hw
  · refine ⟨h.shared.inodes.path, h.shared.inodes.handle, ?_⟩
    intro inode ht
    rcases htemp with he | he
    · exact h.shared.inodes.temp inode (he.symm.trans ht)
    · cases he.symm.trans ht
  · exact fun _ => ⟨hs.handle, hs.syncFile, hs.content, hs.synced, hs.durable⟩

theorem inv_request (h : Inv s) (hcalm : Calm s (.request w)) : Inv (s.request w) := by
  unfold request
  split
  · rename_i hc
    have hidle := hcalm hc.1 hc.2
    refine inv_setWorker h (fun v _ => hidle v) (by rw [hidle w]; decide) (by decide) (.inl rfl) ?_
    constructor <;> simp [rank]
  · exact h

theorem getD_fresh (h : Inodes s) :
    s.temp.getD s.nextInode ≠ s.path ∧ s.temp.getD s.nextInode ≠ s.handle := by
  cases ht : s.temp with
  | none =>
    have hp := h.path
    have hh := h.handle
    rw [Option.getD_none]
    omega
  | some inode => exact (h.temp inode ht).2

theorem inv_serialise (h : Inv s) (hidle : ∀ v, v ≠ w → (s.worker v).pc = .idle)
    (hx : s.worker w = ⟨.admitted, snapshot⟩) : Inv (s.serialise w) := by
  have hw := h.worker w
  rw [hx] at hw
  obtain ⟨hp, hh⟩ := getD_fresh h.shared.inodes
  have hself : (s.serialise w).worker w = ⟨.serialised, snapshot⟩ := by
    show (s.setWorker w _).worker w = _
    rw [setWorker_self, hx]
  have hcont : ∀ k, k ≠ s.temp.getD s.nextInode → (s.serialise w).content k = s.content k :=
    fun k hk => Function.update_of_ne hk _ _
  have hdur : ∀ k, k ≠ s.temp.getD s.nextInode → (s.serialise w).durable k = s.durable k :=
    fun k hk => Function.update_of_ne hk _ _
  have hout : rank (s.worker w).pc < 6 := by
    rw [hx]
    show rank .admitted < 6
    decide
  have hs := h.shared.steady (noSwap_of_idle hidle hout)
  refine WorkerMove.inv (s := s) ⟨rfl, rfl, fun v hv => setWorker_other s hv _, le_rfl,
    fun _ hl => ⟨rfl, rfl⟩, ?_, fun _ _ => ?_⟩ h hidle ?_ h.shared.count ?_ ?_
  · rw [hcont _ hh.symm]
    exact fun _ hb => hb
  · rw [hself, hdur _ hp.symm]
    exact ⟨by simp [rank], rfl, le_rfl, rfl, fun _ hb => hb⟩
  · rw [hself]
    constructor <;> simp [rank]
    · exact fun hr => hw.captures (by simp [rank]) hr
    · refine ⟨_, rfl, fun b hb => ?_⟩
      simp [serialise, hx, hb]
  · have hin := h.shared.inodes
    refine ⟨lt_max_of_lt_left hin.path, lt_max_of_lt_left hin.handle, ?_⟩
    intro inode ht
    obtain rfl := Option.some.inj ht
    exact ⟨lt_max_of_lt_right (Nat.lt_succ_self _), hp, hh⟩
  · intro _
    refine ⟨hs.handle, hs.syncFile, ?_, hs.synced, ?_⟩
    · show ∀ b ∈ s.log, b ∈ (s.serialise w).content s.path
      rw [hcont _ hp.symm]
      exact hs.content
    · show ∀ b ∈ s.counted s.synced, b ∈ (s.serialise w).durable s.path
      rw [hdur _ hp.symm]
      exact hs.durable

theorem inv_rename (h : Inv s) (hidle : ∀ v, v ≠ w → (s.worker v).pc = .idle)
    (hx : s.worker w = ⟨.checked, snapshot⟩)
    (hcalm : ∀ i, barrierOf (s.writer i).pc = none) {inode : ℕ} (ht : s.temp = some inode) :
    Inv { s.setWorker w ⟨.renamed, snapshot⟩ with path := inode, temp := none } := by
  have hw := h.worker w
  rw [hx] at hw
  obtain ⟨inode', ht', hf⟩ := hw.temp (.inr rfl)
  obtain rfl : inode' = inode := Option.some.inj (ht'.symm.trans ht)
  have hself : ({ s.setWorker w ⟨.renamed, snapshot⟩ with path := inode', temp := none } :
      CommitSystem).worker w = ⟨.renamed, snapshot⟩ := setWorker_self s w _
  refine WorkerMove.inv (s := s) ⟨rfl, rfl, fun v hv => setWorker_other s hv _, le_rfl,
    fun _ hl => ⟨rfl, rfl⟩, fun _ hb => hb, fun hb _ => ?_⟩ h hidle ?_ h.shared.count ?_ ?_
  · obtain ⟨i, hi⟩ := hb
    exact absurd (hcalm i) hi
  · rw [hself]
    constructor <;> simp [rank]
    · exact hw.flag (by simp [rank])
    · exact fun hr => hw.captures (by simp [rank]) hr
    · exact hf
  · exact ⟨(h.shared.inodes.temp inode' ht).1, h.shared.inodes.handle, fun _ he => nomatch he⟩
  · rw [hself]
    intro hr
    simp [rank] at hr

/-- What the steps inside the swap leave alone. -/
structure SwapMove (s s' : CommitSystem) (w : ℕ) : Prop where
  writer : s'.writer = s.writer
  log : s'.log = s.log
  other : ∀ v, v ≠ w → s'.worker v = s.worker v
  path : s'.path = s.path
  temp : s'.temp = s.temp
  nextInode : s'.nextInode = s.nextInode
  handle : s'.handle = s.handle ∨ s'.handle = s.path
  start : s.start ≤ s'.start
  content : ∀ b ∈ s.content s.handle, b ∈ s'.content s.handle

theorem SwapMove.inodes (hm : SwapMove s s' w) (h : Inodes s) : Inodes s' := by
  refine ⟨?_, ?_, fun inode ht => ?_⟩
  · rw [hm.path, hm.nextInode]
    exact h.path
  · rw [hm.nextInode]
    rcases hm.handle with he | he <;> rw [he]
    · exact h.handle
    · exact h.path
  · rw [hm.temp] at ht
    obtain ⟨hlt, hp, hh⟩ := h.temp inode ht
    rw [hm.nextInode, hm.path]
    refine ⟨hlt, hp, ?_⟩
    rcases hm.handle with he | he <;> rw [he]
    · exact hh
    · exact hp

theorem SwapMove.inv (hm : SwapMove s s' w) (h : Inv s)
    (hidle : ∀ v, v ≠ w → (s.worker v).pc = .idle) {pc pc' : RewritePc}
    (hx : s.worker w = ⟨pc, snapshot⟩) (hx' : s'.worker w = ⟨pc', snapshot⟩)
    (hpc : 6 ≤ rank pc) (hpc' : 6 ≤ rank pc') (hlock : ∀ i, s.lock ≠ some (.writer i))
    (hcount : s'.start + s'.seq = s'.log.length) (hw : WorkerOk s' w ⟨pc', snapshot⟩) : Inv s' := by
  refine WorkerMove.inv ⟨hm.writer, hm.log, hm.other, hm.start, fun i hi => absurd hi (hlock i),
    hm.content, fun _ hq => ?_⟩ h hidle (hx' ▸ hw) hcount (hm.inodes h.shared.inodes) fun hr => ?_
  · have hr := hq w
    rw [hx] at hr
    exact absurd hr (not_lt.2 hpc)
  · rw [hx'] at hr
    exact absurd hr (not_lt.2 hpc')

theorem no_writer_lock (hl : s.lock = some (.worker w)) (i : ℕ) : s.lock ≠ some (.writer i) := by
  rw [hl]
  simp

theorem WorkerOk.inside {pc : RewritePc} (hw : WorkerOk s w ⟨pc, snapshot⟩)
    (hpc : 7 ≤ rank pc) : s.rewriting = true ∧ Captures s snapshot
      ∧ (∀ b ∈ snapshot, b ∈ s.content s.path ∧ b ∈ s.durable s.path)
      ∧ s.lock = some (.worker w) := by
  have h5 : 5 ≤ rank pc := by omega
  have h2 : 2 ≤ rank pc := by omega
  have h6 : 6 ≤ rank pc := by omega
  exact ⟨hw.flag h5, hw.captures h2 (hw.flag h5), hw.path h6, hw.held hpc⟩

/-- Under the locks, all that was appended is in the snapshot or the delta. -/
theorem captures_locked (h : Inv s) (hl : s.lock = some (.worker w))
    (hc : Captures s snapshot) : ∀ b ∈ s.log, b ∈ snapshot ∨ b ∈ s.delta := by
  intro b hb
  rcases hc b hb with hb | hb | ⟨i, hi⟩
  · exact .inl hb
  · exact .inr hb
  · have hheld := (h.writer i).held (by rw [hi]; trivial)
    exact absurd hheld (no_writer_lock hl i)

section Swap

variable {snapshot : List Batch} (h : Inv s) (hidle : ∀ v, v ≠ w → (s.worker v).pc = .idle)

include h hidle

theorem inv_renamed (hx : s.worker w = ⟨.renamed, snapshot⟩) (hl : s.lock = none) :
    Inv { s.setWorker w ⟨.locked, snapshot⟩ with lock := some (.worker w) } := by
  have hw := h.worker w
  rw [hx] at hw
  have hm : SwapMove s { s.setWorker w ⟨.locked, snapshot⟩ with lock := some (.worker w) } w :=
    ⟨rfl, rfl, fun v hv => setWorker_other s hv _, rfl, rfl, rfl, .inl rfl, le_rfl, fun _ hb => hb⟩
  refine hm.inv h hidle hx (setWorker_self s w _) (by decide) (by decide) (by simp [hl])
    h.shared.count ?_
  constructor <;> simp [rank]
  · exact hw.flag (by simp [rank])
  · exact fun hr => hw.captures (by simp [rank]) hr
  · exact hw.path (by simp [rank])

theorem inv_reopen (hx : s.worker w = ⟨.locked, snapshot⟩) :
    Inv { s.setWorker w ⟨.reopened, snapshot⟩ with handle := s.path } := by
  have hw := h.worker w
  rw [hx] at hw
  obtain ⟨hflag, hcap, hpath, hheld⟩ := hw.inside (by simp [rank])
  have hm : SwapMove s { s.setWorker w ⟨.reopened, snapshot⟩ with handle := s.path } w :=
    ⟨rfl, rfl, fun v hv => setWorker_other s hv _, rfl, rfl, rfl, .inr rfl, le_rfl, fun _ hb => hb⟩
  refine hm.inv h hidle hx (setWorker_self s w _) (by decide) (by decide) (no_writer_lock hheld)
    h.shared.count ?_
  exact ⟨fun _ => hflag, fun _ _ => hcap, by simp [rank], fun _ => hpath, fun _ => hheld,
    fun _ => rfl, by simp [rank], by simp [rank], by simp [rank], by simp [rank], by simp [rank]⟩

theorem inv_syncMove (hx : s.worker w = ⟨.reopened, snapshot⟩) :
    Inv { s.setWorker w ⟨.syncMoved, snapshot⟩ with syncFile := s.path } := by
  have hw := h.worker w
  rw [hx] at hw
  obtain ⟨hflag, hcap, hpath, hheld⟩ := hw.inside (by simp [rank])
  have hhandle := hw.handle (by simp [rank])
  have hm : SwapMove s { s.setWorker w ⟨.syncMoved, snapshot⟩ with syncFile := s.path } w :=
    ⟨rfl, rfl, fun v hv => setWorker_other s hv _, rfl, rfl, rfl, .inl rfl, le_rfl, fun _ hb => hb⟩
  refine hm.inv h hidle hx (setWorker_self s w _) (by decide) (by decide) (no_writer_lock hheld)
    h.shared.count ?_
  exact ⟨fun _ => hflag, fun _ _ => hcap, by simp [rank], fun _ => hpath, fun _ => hheld,
    fun _ => hhandle, fun _ => rfl, by simp [rank], by simp [rank], by simp [rank],
    by simp [rank]⟩

theorem inv_seqReset (hx : s.worker w = ⟨.syncMoved, snapshot⟩) :
    Inv { s.setWorker w ⟨.seqReset, snapshot⟩ with seq := 0, start := s.log.length } := by
  have hw := h.worker w
  rw [hx] at hw
  obtain ⟨hflag, hcap, hpath, hheld⟩ := hw.inside (by simp [rank])
  have hhandle := hw.handle (by simp [rank])
  have hsync := hw.syncFile (by simp [rank])
  have hstart : s.start ≤ s.log.length := by
    have hc := h.shared.count
    omega
  have hm : SwapMove s
      { s.setWorker w ⟨.seqReset, snapshot⟩ with seq := 0, start := s.log.length } w :=
    ⟨rfl, rfl, fun v hv => setWorker_other s hv _, rfl, rfl, rfl, .inl rfl, hstart, fun _ hb => hb⟩
  refine hm.inv h hidle hx (setWorker_self s w _) (by decide) (by decide) (no_writer_lock hheld)
    rfl ?_
  exact ⟨fun _ => hflag, fun _ _ => hcap, by simp [rank], fun _ => hpath, fun _ => hheld,
    fun _ => hhandle, fun _ => hsync, fun _ => rfl, by simp [rank], by simp [rank],
    by simp [rank]⟩

theorem inv_syncedReset (hx : s.worker w = ⟨.seqReset, snapshot⟩) :
    Inv { s.setWorker w ⟨.syncedReset, snapshot⟩ with synced := 0 } := by
  have hw := h.worker w
  rw [hx] at hw
  obtain ⟨hflag, hcap, hpath, hheld⟩ := hw.inside (by simp [rank])
  have hhandle := hw.handle (by simp [rank])
  have hsync := hw.syncFile (by simp [rank])
  have hseq := hw.seq (by simp [rank])
  have hm : SwapMove s { s.setWorker w ⟨.syncedReset, snapshot⟩ with synced := 0 } w :=
    ⟨rfl, rfl, fun v hv => setWorker_other s hv _, rfl, rfl, rfl, .inl rfl, le_rfl, fun _ hb => hb⟩
  refine hm.inv h hidle hx (setWorker_self s w _) (by decide) (by decide) (no_writer_lock hheld)
    h.shared.count ?_
  exact ⟨fun _ => hflag, fun _ _ => hcap, by simp [rank], fun _ => hpath, fun _ => hheld,
    fun _ => hhandle, fun _ => hsync, fun _ => hseq, fun _ => rfl, by simp [rank],
    by simp [rank]⟩

theorem inv_replay (hx : s.worker w = ⟨.syncedReset, snapshot⟩) :
    Inv ((s.addContent s.path s.delta).setWorker w ⟨.replayed, snapshot⟩) := by
  have hw := h.worker w
  rw [hx] at hw
  obtain ⟨hflag, hcap, hpath, hheld⟩ := hw.inside (by simp [rank])
  have hhandle := hw.handle (by simp [rank])
  have hsync := hw.syncFile (by simp [rank])
  have hseq := hw.seq (by simp [rank])
  have hsynced := hw.synced (by simp [rank])
  have hmem := mem_addContent s s.path s.delta
  have hm : SwapMove s ((s.addContent s.path s.delta).setWorker w ⟨.replayed, snapshot⟩) w :=
    ⟨rfl, rfl, fun v hv => setWorker_other _ hv _, rfl, rfl, rfl, .inl rfl, le_rfl,
      fun b hb => (hmem s.handle b).2 (.inl hb)⟩
  refine hm.inv h hidle hx (setWorker_self _ w _) (by decide) (by decide) (no_writer_lock hheld)
    h.shared.count ?_
  exact ⟨fun _ => hflag, fun _ _ => hcap, by simp [rank],
    fun _ b hb => ⟨(hmem s.path b).2 (.inl (hpath b hb).1), (hpath b hb).2⟩, fun _ => hheld,
    fun _ => hhandle, fun _ => hsync, fun _ => hseq, fun _ => hsynced,
    fun _ b hb => (hmem s.path b).2 (.inr ⟨rfl, hb⟩), by simp [rank]⟩

theorem inv_deltaSync (hx : s.worker w = ⟨.replayed, snapshot⟩) (bs : List Batch)
    (hbs : ∀ b ∈ s.delta, b ∈ s.content s.path → b ∈ bs) :
    Inv ((s.addDurable s.path bs).setWorker w ⟨.deltaSynced, snapshot⟩) := by
  have hw := h.worker w
  rw [hx] at hw
  obtain ⟨hflag, hcap, hpath, hheld⟩ := hw.inside (by simp [rank])
  have hhandle := hw.handle (by simp [rank])
  have hsync := hw.syncFile (by simp [rank])
  have hseq := hw.seq (by simp [rank])
  have hsynced := hw.synced (by simp [rank])
  have hrep := hw.replayed (by simp [rank])
  have hmem := mem_addDurable s s.path bs
  have hm : SwapMove s ((s.addDurable s.path bs).setWorker w ⟨.deltaSynced, snapshot⟩) w :=
    ⟨rfl, rfl, fun v hv => setWorker_other _ hv _, rfl, rfl, rfl, .inl rfl, le_rfl, fun _ hb => hb⟩
  refine hm.inv h hidle hx (setWorker_self _ w _) (by decide) (by decide) (no_writer_lock hheld)
    h.shared.count ?_
  exact ⟨fun _ => hflag, fun _ _ => hcap, by simp [rank],
    fun _ b hb => ⟨(hpath b hb).1, (hmem s.path b).2 (.inl (hpath b hb).2)⟩, fun _ => hheld,
    fun _ => hhandle, fun _ => hsync, fun _ => hseq, fun _ => hsynced, fun _ => hrep,
    fun _ b hb => (hmem s.path b).2 (.inr ⟨rfl, hbs b hb (hrep b hb)⟩)⟩

/-- The end of the swap: the new file holds all that was appended, durably. -/
theorem inv_finish (hx : s.worker w = ⟨.deltaSynced, snapshot⟩) :
    Inv { s.setWorker w ⟨.idle, snapshot⟩ with delta := [], rewriting := false, lock := none } := by
  have hw := h.worker w
  rw [hx] at hw
  obtain ⟨-, hcap, hpath, hheld⟩ := hw.inside (by simp [rank])
  have hsynced := hw.synced (by simp [rank])
  have hall : ∀ b ∈ s.log, b ∈ s.content s.path ∧ b ∈ s.durable s.path := by
    intro b hb
    rcases captures_locked h hheld hcap b hb with hb | hb
    · exact hpath b hb
    · exact ⟨hw.replayed (by simp [rank]) b hb, hw.deltaSynced (by simp [rank]) b hb⟩
  refine WorkerMove.inv (s := s) (w := w) ⟨rfl, rfl, fun v hv => setWorker_other s hv _, le_rfl,
    fun i hi => absurd hi (no_writer_lock hheld i), fun _ hb => hb, fun _ hq => ?_⟩ h hidle ?_
    h.shared.count ⟨h.shared.inodes.path, h.shared.inodes.handle, h.shared.inodes.temp⟩ fun _ => ?_
  · have hr := hq w
    rw [hx] at hr
    simp [rank] at hr
  · refine WorkerOk.of_idle ?_
    show ((s.setWorker w _).worker w).pc = _
    rw [setWorker_self]
  · refine ⟨hw.handle (by simp [rank]), hw.syncFile (by simp [rank]), fun b hb => (hall b hb).1, ?_,
      fun b hb => (hall b (counted_sub_log s s.synced b hb)).2⟩
    show s.synced ≤ s.seq
    omega

end Swap

theorem inv_stepWorker (h : Inv s) (hcalm : Calm s (.worker w)) : Inv (s.stepWorker w) := by
  have hw := h.worker w
  rcases hx : s.worker w with ⟨pc, snapshot⟩
  rw [hx] at hw
  simp only [Calm, hx] at hcalm
  have hidle : pc ≠ .idle → ∀ v, v ≠ w → (s.worker v).pc = .idle := by
    intro hpc v hv
    by_contra hne
    exact hv (h.shared.one v w hne (by rw [hx]; exact hpc))
  cases pc with
  | idle =>
    simp only [stepWorker, hx]
    exact h
  | begun =>
    simp only [stepWorker, hx]
    split
    · refine inv_setWorker h (hidle RewritePc.noConfusion) (by simp [hx, rank]) (by simp [rank])
        (.inl rfl) ?_
      constructor <;> simp [rank]
      exact fun _ b hb => .inl hb
    · exact h
  | snapped =>
    simp only [stepWorker, advance, hx]
    refine inv_setWorker h (hidle RewritePc.noConfusion) (by simp [hx, rank]) ?_ (.inl rfl) ?_
    · split <;> simp [rank]
    · split
      · constructor <;> simp [rank]
        exact fun hr => hw.captures (by simp [rank]) hr
      · exact WorkerOk.of_idle rfl
  | admitted =>
    simp only [stepWorker, hx]
    exact inv_serialise h (hidle RewritePc.noConfusion) hx
  | serialised =>
    simp only [stepWorker, advance, hx]
    split
    · rename_i hr
      refine inv_setWorker h (hidle RewritePc.noConfusion) (by simp [hx, rank]) (by simp [rank])
        (.inl rfl) ?_
      constructor <;> simp [rank]
      · exact hr
      · exact fun _ => hw.captures (by simp [rank]) hr
      · exact hw.temp (.inl rfl)
    · exact inv_setWorker h (hidle RewritePc.noConfusion) (by simp [hx, rank]) (by simp [rank])
        (.inr rfl) (WorkerOk.of_idle rfl)
  | checked =>
    obtain ⟨inode, ht, -⟩ := hw.temp (.inr rfl)
    simp only [stepWorker, advance, hx, ht]
    exact inv_rename h (hidle RewritePc.noConfusion) hx (hcalm rfl) ht
  | renamed =>
    simp only [stepWorker, advance, hx]
    split
    · rename_i hl
      exact inv_renamed h (hidle RewritePc.noConfusion) hx hl
    · exact h
  | locked =>
    simp only [stepWorker, advance, hx]
    exact inv_reopen h (hidle RewritePc.noConfusion) hx
  | reopened =>
    simp only [stepWorker, advance, hx]
    split
    · exact inv_syncMove h (hidle RewritePc.noConfusion) hx
    · exact h
  | syncMoved =>
    simp only [stepWorker, advance, hx]
    exact inv_seqReset h (hidle RewritePc.noConfusion) hx
  | seqReset =>
    simp only [stepWorker, advance, hx]
    exact inv_syncedReset h (hidle RewritePc.noConfusion) hx
  | syncedReset =>
    simp only [stepWorker, advance, hx]
    have hx' : (s.addContent s.path s.delta).worker w = ⟨.syncedReset, snapshot⟩ := hx
    rw [hx']
    exact inv_replay h (hidle RewritePc.noConfusion) hx
  | replayed =>
    simp only [stepWorker, advance, hx]
    split
    · rename_i hd
      have hsame : s.addDurable s.path [] = s := by
        simp [addDurable]
      have hsync := inv_deltaSync h (hidle RewritePc.noConfusion) hx [] (by simp [hd])
      rw [hsame] at hsync
      exact hsync
    · have hx' : (s.addDurable s.path (s.content s.path)).worker w = ⟨.replayed, snapshot⟩ := hx
      rw [hx']
      exact inv_deltaSync h (hidle RewritePc.noConfusion) hx _ fun _ _ hb => hb
  | deltaSynced =>
    simp only [stepWorker, advance, hx]
    exact inv_finish h (hidle RewritePc.noConfusion) hx

end Worker

/-! ## Runs -/

theorem inv_step {s : CommitSystem} (h : Inv s) : ∀ {e : Event}, Calm s e → Inv (s.step e)
  | .append _ len, _ => inv_beginAppend h len
  | .writer _, hcalm => inv_stepWriter h hcalm
  | .request _, hcalm => inv_request h hcalm
  | .worker _, hcalm => inv_stepWorker h hcalm

theorem run_inv (deltaCap : ℕ) (events : List Event)
    (hcalm : ∀ n e, events[n]? = some e → Calm ((init deltaCap).run (events.take n)) e) (n : ℕ) :
    Inv ((init deltaCap).run (events.take n)) :=
  Runs.forall_take (inv_init deltaCap) (fun n e hn hi => inv_step hi (hcalm n e hn)) n

section Answer

variable {s : CommitSystem}

theorem stepWriter_other {i j : ℕ} (hi : i ≠ j) : (s.stepWriter j).writer i = s.writer i := by
  unfold stepWriter
  repeat' split
  all_goals first
    | rfl
    | exact setWriter_other _ hi _

theorem stepWorker_writer (w : ℕ) : (s.stepWorker w).writer = s.writer := by
  unfold stepWorker
  repeat' split
  all_goals rfl

theorem Answers.event {e : Event} {i : ℕ} (h : Answers s e i) : e = .writer i := by
  obtain ⟨hb, ha⟩ := h
  cases e with
  | append j len =>
    exfalso
    simp only [step, beginAppend] at ha
    split at ha
    · by_cases hij : i = j
      · rw [hij] at ha
        simp [goto, setWriter] at ha
      · simp only [goto, setWriter, Function.update_of_ne hij] at ha
        exact hb ha
    · exact hb ha
  | writer j =>
    by_cases hij : i = j
    · rw [hij]
    · simp only [step, stepWriter_other hij] at ha
      exact absurd ha hb
  | request w =>
    exfalso
    simp only [step, request] at ha
    split at ha <;> exact hb ha
  | worker w =>
    simp only [step, stepWorker_writer] at ha
    exact absurd ha hb

/-- A writer is answered outside a swap, when all its batches are counted as synced. -/
theorem answer_counted (h : Inv s) {i : ℕ} (hcalm : Calm s (.writer i))
    (ha : Answers s (.writer i) i) : NoSwap (s.stepWriter i)
      ∧ ∀ b ∈ ((s.stepWriter i).writer i).mine,
        b ∈ (s.stepWriter i).counted (s.stepWriter i).synced := by
  have hi := h.writer i
  obtain ⟨hb, ha⟩ := ha
  rcases hx : s.writer i with ⟨pc, mine⟩
  rw [hx] at hi hb
  simp only [Calm, hx] at hcalm
  cases pc with
  | targeted target =>
    simp only [step, stepWriter, goto, hx, setWriter_self] at ha ⊢
    by_cases hle : target ≤ s.synced
    · exact ⟨hcalm, fun b hb => counted_le s hle b (hi.target target rfl b hb)⟩
    · rw [if_neg hle] at ha
      cases ha
  | covered c =>
    obtain ⟨hq, -, hm⟩ := hi.barrier c rfl
    simp only [step, stepWriter, goto, hx] at ha ⊢
    split at ha
    · rename_i hle
      rw [if_pos hle]
      refine ⟨hq, fun b hb => counted_le s hle b (hm b ?_)⟩
      rw [show ({ s.setWriter i _ with gate := none } : CommitSystem).writer i = ⟨.answered, mine⟩
        from setWriter_self s i _] at hb
      exact hb
    · rw [setWriter_self] at ha
      cases ha
  | fsynced c =>
    obtain ⟨hq, -, hm⟩ := hi.barrier c rfl
    simp only [stepWriter, goto, hx] at ha ⊢
    refine ⟨hq, fun b hb => counted_le s (le_max_right s.synced c) b (hm b ?_)⟩
    rw [show ({ s.setWriter i _ with synced := max s.synced c, gate := none } :
      CommitSystem).writer i = ⟨.answered, mine⟩ from setWriter_self s i _] at hb
    exact hb
  | answered => exact absurd rfl hb
  | _ =>
    exfalso
    simp only [step, stepWriter, goto, mirrorDelta, hx] at ha
    try split at ha
    all_goals simp [setWriter, addContent, addDurable, hx] at ha

end Answer

/-- Along a calm schedule, a writer is answered only when its batches are in the file at the path and
a completed `fsync` of that file covers them. -/
theorem answered_durable (deltaCap : ℕ) (events : List Event)
    (hcalm : ∀ n e, events[n]? = some e → Calm ((init deltaCap).run (events.take n)) e) (n : ℕ)
    (e : Event) (hn : events[n]? = some e) (i : ℕ)
    (ha : Answers ((init deltaCap).run (events.take n)) e i) :
    Persisted ((init deltaCap).run (events.take (n + 1))) i := by
  have h := run_inv deltaCap events hcalm n
  have h' := run_inv deltaCap events hcalm (n + 1)
  have hc := hcalm n e hn
  have hrun : (init deltaCap).run (events.take (n + 1))
      = ((init deltaCap).run (events.take n)).step e := Runs.foldl_take_succ hn
  rw [hrun] at h' ⊢
  obtain rfl := ha.event
  obtain ⟨hq, hmine⟩ := answer_counted h hc ha
  have hs := h'.shared.steady hq
  intro b hb
  have hcounted := hmine b hb
  exact ⟨hs.content b (counted_sub_log _ _ b hcounted), hs.durable b hcounted⟩

def writes (i n : ℕ) : List Event := List.replicate n (.writer i)

def works (w n : ℕ) : List Event := List.replicate n (.worker w)

/-- The worker renames and writer `0` runs its barrier on the old file before the swap. -/
def answeredAfterRename : List Event :=
  [.request 0] ++ works 0 4 ++ [.append 0 1] ++ writes 0 3 ++ works 0 1 ++ writes 0 8

/-- The worker resets `seq`, and writer `0` compares before the delta is replayed. -/
def answeredAfterReset : List Event :=
  [.request 0] ++ works 0 4 ++ [.append 0 1] ++ writes 0 3 ++ works 0 5 ++ writes 0 1

/-- A whole rewrite runs between the `fsync` of writer `0` and its `fetch_max`; the stale maximum
answers writer `1`. -/
def answeredByStaleMax : List Event :=
  [.append 0 1] ++ writes 0 11 ++ [.request 0] ++ works 0 13 ++ [.writer 0, .append 1 1]
    ++ writes 1 4

/-- The append overflows the delta after `finish_rewrite` has checked the flag. -/
def answeredAfterOverflow : List Event :=
  [.request 0] ++ works 0 4 ++ [.append 0 200] ++ writes 0 3 ++ works 0 9 ++ writes 0 1

/-- The append aborts worker `0`, which then takes the flag of worker `1` for its own. -/
def answeredAfterReclaim : List Event :=
  [.request 0] ++ works 0 3 ++ [.append 0 200] ++ writes 0 3 ++ [.request 1] ++ works 0 10
    ++ writes 0 1

/-- In each of these schedules the next step answers a writer whose batch is not durable in the file
at the path. -/
theorem answered_too_early :
    (Answers ((init 100).run answeredAfterRename) (.writer 0) 0
        ∧ ¬Persisted (((init 100).run answeredAfterRename).step (.writer 0)) 0)
      ∧ (Answers ((init 100).run answeredAfterReset) (.writer 0) 0
        ∧ ¬Persisted (((init 100).run answeredAfterReset).step (.writer 0)) 0)
      ∧ (Answers ((init 100).run answeredByStaleMax) (.writer 1) 1
        ∧ ¬Persisted (((init 100).run answeredByStaleMax).step (.writer 1)) 1)
      ∧ (Answers ((init 100).run answeredAfterOverflow) (.writer 0) 0
        ∧ ¬Persisted (((init 100).run answeredAfterOverflow).step (.writer 0)) 0)
      ∧ (Answers ((init 100).run answeredAfterReclaim) (.writer 0) 0
        ∧ ¬Persisted (((init 100).run answeredAfterReclaim).step (.writer 0)) 0) := by
  decide

/-- A rewrite with one batch in its snapshot and one in its delta, and a writer answered after it. -/
def calmRewrite : List Event :=
  [.append 0 1, .writer 0, .writer 0, .writer 0, .request 0, .worker 0, .append 1 2, .writer 1,
    .writer 1, .writer 1, .worker 0, .worker 0, .worker 0, .worker 0, .worker 0, .worker 0,
    .worker 0, .worker 0, .worker 0, .worker 0, .worker 0, .worker 0, .writer 1, .writer 1]

theorem answered_durable_calmRewrite :
    (((init 100).run calmRewrite).writer 1).mine = [⟨1, 2⟩]
      ∧ Persisted ((init 100).run calmRewrite) 1 := by
  have hcalm : ∀ n e, calmRewrite[n]? = some e →
      Calm ((init 100).run (calmRewrite.take n)) e := by
    rintro (_ | _ | _ | _ | _ | _ | _ | _ | _ | _ | _ | _ | _ | _ | _ | _ | _ | _ | _ | _ | _ | _ |
      _ | _ | n) e he <;> cases he
    all_goals first
      | trivial
      | (intro hpc; exact absurd hpc (by decide))
      | (intro _ i; rcases i with _ | _ | i <;> rfl)
      | (intro _ _ w; rfl)
      | (intro w; rcases w with _ | w <;> exact Nat.le_of_ble_eq_true rfl)
  exact ⟨by decide, answered_durable 100 calmRewrite hcalm 23 (.writer 1) rfl 1 (by decide)⟩

end FerrumKv.CommitSystem
