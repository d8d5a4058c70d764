import FerrumKv.Process
import FerrumKv.Proofs.AofWriter

/-!
# What the exit leaves of the log

When `main` returns, the writer has been dropped unless the teardown ran out of time or a thread
that `main` does not wait for still holds a handle or is itself at the drop; and a dropped writer
whose flush and sync succeeded has everything in the file and synced, after what the log held or
what the last rewrite made of it (`exit_saves`). With the dashboard, which is such a thread, an
orderly shutdown can lose the records in the buffer.
-/

namespace FerrumKv

namespace AofWriter

theorem owner_step {w : AofWriter} {e : Event} (he : e.ofOwner = false) :
    (w.step e).owner = w.owner := by
  cases e with
  | append | barrierFlush | barrierSync =>
    simp only [step]
    split <;> rfl
  | flusher =>
    simp only [step, stepFlusher]
    split <;> rfl
  | owner => cases he

theorem stepOwner_not_alive (w : AofWriter) (limit last : Option ℕ) (synced : Bool) :
    (w.stepOwner limit last synced).owner ≠ .alive := by
  cases ho : w.owner <;> simp only [stepOwner, ho] <;> (try split) <;> simp [ho]

theorem stepOwner_dropped {w : AofWriter} (h : w.owner = .dropped) (limit last : Option ℕ)
    (synced : Bool) : w.stepOwner limit last synced = w := by
  simp only [stepOwner, h]

end AofWriter

namespace Process

open AofWriter (Alive Dropping Lands Saving)

/-- What an event does before the exit: nothing, or what it stands for under its conditions. -/
inductive Moves (s : Process) : Event → Process → Prop
  | none (e : Event) : Moves s e s
  | triggers : Moves s .trigger { s with triggered := true }
  | writes {e : AofWriter.Event} (he : e.ofOwner = false) :
      Moves s (.writer e)
        { s with
          writer := s.writer.step e, rewriting := (s.mirror e).1, delta := (s.mirror e).2 }
  | drops (limit last : Option ℕ) (synced : Bool) (hd : s.dropper.isSome = true) :
      Moves s (.drop limit last synced) { s with writer := s.writer.stepOwner limit last synced }
  | accepts (c : ℕ) (hm : s.main = .serving) :
      Moves s (.accept c) { s with holders := .task c :: s.holders }
  | rewrites {caller : User} (w : ℕ) (hc : caller ∈ s.holders) :
      Moves s (.rewrite caller w)
        { s with rewriting := true, holders := .rewriter w :: s.holders }
  | aborts (w : ℕ) : Moves s (.abort w) { s with rewriting := false, delta := [] }
  | renames (w : ℕ) (snapshot : Bytes) :
      Moves s (.rename w snapshot) { s with path := some snapshot }
  | swaps {w : ℕ} (room direct push last : Option ℕ) (synced : Bool)
      (hw : .rewriter w ∈ s.holders) :
      Moves s (.swap w room direct push last synced) (s.swap room direct push last synced)
  | releases {x : User} (hx : x ∈ s.holders) (hne : x ≠ .acceptor)
      (hsweep : x = .sweeper → s.triggered) : Moves s (.release x) (s.release x)
  | leaves (failed : Bool) (hm : s.main = .serving) :
      Moves s (.leave failed) { s.release .acceptor with main := .tearing }
  | tears {timedOut : Bool} (hm : s.main = .tearing) (hacc : s.busy (· = .acceptor) = false)
      (htask : timedOut = false → s.busy User.isTask = false) :
      Moves s (.teardown timedOut) { s with main := .joining, timedOut := timedOut }
  | joins (hm : s.main = .joining) (hsw : s.busy (· = .sweeper) = false) :
      Moves s .join { s with main := .exited }

theorem advance_moves (s : Process) (e : Event) : Moves s e (s.advance e) := by
  cases e with
  | trigger => exact .triggers
  | writer e =>
    simp only [advance]
    split_ifs with he
    · exact .none _
    · exact .writes (Bool.eq_false_iff.2 he)
  | drop limit last synced =>
    simp only [advance]
    split_ifs with hd
    · exact .drops limit last synced hd
    · exact .none _
  | accept c =>
    simp only [advance]
    split_ifs with hm
    · exact .accepts c hm
    · exact .none _
  | rewrite caller w =>
    simp only [advance]
    split_ifs with hc
    · exact .rewrites w hc.1
    · exact .none _
  | abort w =>
    simp only [advance]
    split_ifs
    · exact .aborts w
    · exact .none _
  | rename w snapshot =>
    simp only [advance]
    split_ifs
    · exact .renames w snapshot
    · exact .none _
  | swap w room direct push last synced =>
    simp only [advance]
    split_ifs with hw
    · exact .swaps room direct push last synced hw
    · exact .none _
  | release x =>
    simp only [advance]
    split_ifs with hx
    · exact .releases hx.1 hx.2.1 hx.2.2
    · exact .none _
  | leave failed =>
    simp only [advance]
    split_ifs with hl
    · exact .leaves failed hl.1
    · exact .none _
  | teardown timedOut =>
    simp only [advance]
    split_ifs with ht
    · exact .tears ht.1 (Bool.eq_false_iff.2 ht.2.1) fun hto =>
        Bool.eq_false_iff.2 (ht.2.2.resolve_left (by simp [hto]))
    · exact .none _
  | join =>
    simp only [advance]
    split_ifs with hj
    · exact .joins hj.1 (Bool.eq_false_iff.2 hj.2)
    · exact .none _

section Busy

variable {s s' : Process} {e : Event} {kind : User → Bool}

/-- No thread of the kind holds a handle, and if one has let the last go the writer is dropped. -/
structure Done (kind : User → Bool) (s : Process) : Prop where
  holders : ∀ h ∈ s.holders, kind h = false
  dropper : ∀ h, s.dropper = some h → kind h = true → s.writer.owner = .dropped

theorem done_iff : Done kind s ↔ s.busy kind = false := by
  simp only [busy, Bool.or_eq_false_iff, List.any_eq_false, Bool.not_eq_true]
  constructor
  · intro h
    refine ⟨h.holders, ?_⟩
    cases hd : s.dropper with
    | none => rfl
    | some x =>
      cases hk : kind x with
      | false => simp [hk]
      | true => simp [h.dropper x hd hk]
  · rintro ⟨hh, hd⟩
    refine ⟨hh, fun x hx hk => ?_⟩
    simpa [hx, hk] using hd

theorem Done.release (h : Done kind s) {x : User} (hx : x ∈ s.holders) :
    Done kind (s.release x) := by
  unfold Process.release
  split
  · refine ⟨nofun, fun y hy hk => ?_⟩
    obtain rfl : x = y := Option.some.inj hy
    rw [h.holders x hx] at hk
    cases hk
  · exact ⟨fun y hy => h.holders y (List.mem_of_mem_erase hy), h.dropper⟩

theorem Done.of_main (h : Done kind s) (main : MainPc) (timedOut : Bool) :
    Done kind { s with main, timedOut } := ⟨h.holders, h.dropper⟩

/-- A thread that is done stays so, as long as no other of its kind is started. -/
theorem Done.moves (h : Done kind s) (hm : Moves s e s')
    (hmain : s.main = .serving → .acceptor ∈ s.holders)
    (hrew : ∀ w, kind (.rewriter w) = false)
    (htask : s.main = .serving → ∀ c, kind (.task c) = false) : Done kind s' := by
  cases hm with
  | none => exact h
  | triggers | tears | joins | aborts | renames | swaps => exact ⟨h.holders, h.dropper⟩
  | writes he =>
    exact ⟨h.holders, fun x hx hk => (AofWriter.owner_step he).trans (h.dropper x hx hk)⟩
  | drops =>
    refine ⟨h.holders, fun x hx hk => ?_⟩
    have hd := h.dropper x hx hk
    simp only [AofWriter.stepOwner_dropped hd, hd]
  | accepts c hm => exact ⟨List.forall_mem_cons.2 ⟨htask hm c, h.holders⟩, h.dropper⟩
  | rewrites w => exact ⟨List.forall_mem_cons.2 ⟨hrew w, h.holders⟩, h.dropper⟩
  | releases hx => exact h.release hx
  | leaves _ hm => exact (h.release (hmain hm)).of_main _ _

end Busy

/-- The writer and the list of its users, apart from where `main` stands. -/
structure Shared (s : Process) : Prop where
  kept : AofWriter.Kept s.base s.writer
  phase : Alive s.writer ∨ Dropping s.writer
  held : s.holders ≠ [] ↔ s.writer.owner = .alive
  dropper : s.dropper.isSome = true ↔ s.holders = []

section Shared

variable {s s' : Process} {e : Event}

theorem shared_start (policy : FsyncPolicy) (file : Bytes) (deltaCap : ℕ)
    (sweeper dashboard : Bool) : Shared (start policy file deltaCap sweeper dashboard) where
  kept := AofWriter.kept_openLog policy file
  phase := .inl (AofWriter.alive_openLog policy file)
  held := by simp [start, AofWriter.openLog]
  dropper := by simp [start]

theorem release_holders (s : Process) (x : User) :
    (s.release x).holders = s.holders.erase x ∧ (s.release x).main = s.main
      ∧ (s.release x).triggered = s.triggered ∧ (s.release x).timedOut = s.timedOut := by
  unfold release
  split
  · exact ⟨by rw [‹s.holders.erase x = []›], rfl, rfl, rfl⟩
  · exact ⟨rfl, rfl, rfl, rfl⟩

theorem Shared.release (h : Shared s) {x : User} (hx : x ∈ s.holders) : Shared (s.release x) := by
  unfold Process.release
  split
  · refine ⟨h.kept.step (.owner none none true),
      AofWriter.phase_step h.phase (.owner none none true), ?_, ?_⟩
    · simp [AofWriter.stepOwner_not_alive]
    · simp
  · rename_i hne
    have hsome : s.holders ≠ [] := List.ne_nil_of_mem hx
    refine ⟨h.kept, h.phase, ?_, ?_⟩
    · simp [hne, h.held.1 hsome]
    · have hnone : ¬s.dropper.isSome = true := fun hd => hsome (h.dropper.1 hd)
      simp [hne, hnone]

theorem Shared.cons (h : Shared s) (hne : s.holders ≠ []) (x : User) (rewriting : Bool) :
    Shared { s with rewriting := rewriting, holders := x :: s.holders } where
  kept := h.kept
  phase := h.phase
  held := by simp [h.held.1 hne]
  dropper := by
    have hnone : ¬s.dropper.isSome = true := fun hd => hne (h.dropper.1 hd)
    simp [hnone]

theorem Shared.alive (h : Shared s) (hne : s.holders ≠ []) : Alive s.writer :=
  h.phase.resolve_right fun hd => hd.begun (h.held.1 hne)

theorem alive_swap (h : Alive s.writer) (room direct push last : Option ℕ) (synced : Bool) :
    Alive (s.swap room direct push last synced).writer :=
  ⟨h.owner, h.running, h.stop⟩

theorem Shared.moves (h : Shared s) (hm : Moves s e s')
    (hmain : s.main = .serving → .acceptor ∈ s.holders) : Shared s' := by
  cases hm with
  | none => exact h
  | triggers | tears | joins | aborts | renames => exact ⟨h.kept, h.phase, h.held, h.dropper⟩
  | @writes e hno =>
    exact ⟨h.kept.step e, AofWriter.phase_step h.phase e,
      h.held.trans (by rw [AofWriter.owner_step hno]), h.dropper⟩
  | drops limit last synced hd =>
    have hdead : s.writer.owner ≠ .alive := fun ha => h.held.2 ha (h.dropper.1 hd)
    refine ⟨h.kept.step (.owner limit last synced),
      AofWriter.phase_step h.phase (.owner limit last synced), h.held.trans ?_, h.dropper⟩
    exact iff_of_false hdead (AofWriter.stepOwner_not_alive _ _ _ _)
  | accepts c hm => exact h.cons (List.ne_nil_of_mem (hmain hm)) _ s.rewriting
  | rewrites w hc => exact h.cons (List.ne_nil_of_mem hc) _ true
  | swaps room direct push last synced hw =>
    have halive := alive_swap (h.alive (List.ne_nil_of_mem hw)) room direct push last synced
    exact ⟨h.kept.moveTo s.path s.delta room direct push last synced, .inl halive, h.held,
      h.dropper⟩
  | releases hx => exact h.release hx
  | leaves _ hm =>
    obtain ⟨hk, hp, hh, hd⟩ := h.release (hmain hm)
    exact ⟨hk, hp, hh, hd⟩

theorem saving_release (h : Shared s) (hs : Saving s.writer) (x : User) :
    Saving (s.release x).writer := by
  unfold Process.release
  split
  · exact hs.step (e := .owner none none true) h.phase rfl
  · exact hs

/-- A drop whose flush and sync succeed. -/
theorem saving_moves (h : Shared s) (hs : Saving s.writer)
    (hm : Moves s e s') (he : e.dropSucceeds = true) : Saving s'.writer := by
  cases hm with
  | none | triggers | tears | joins | aborts | renames | accepts | rewrites => exact hs
  | @writes e hno =>
    have hsucc : e.dropSucceeds = true := by cases e <;> first | rfl | cases hno
    exact hs.step h.phase hsucc
  | drops limit last synced => exact hs.step (e := .owner limit last synced) h.phase he
  | swaps room direct push last synced hw =>
    exact (alive_swap (h.alive (List.ne_nil_of_mem hw)) room direct push last synced).saving
  | releases | leaves => exact saving_release h hs _

/-- Only a rewrite that moves the writer sets what comes before the calls. -/
theorem Moves.base (hm : Moves s e s') (he : e.swaps = false) :
    s'.base = s.base := by
  cases hm with
  | swaps => cases he
  | releases | leaves =>
    simp only [Process.release]
    split <;> rfl
  | _ => rfl

theorem base_run (events : List Event) (h : ∀ e ∈ events, e.swaps = false) :
    (s.run events).base = s.base := by
  induction events generalizing s with
  | nil => rfl
  | cons e events ih =>
    have hstep : (s.step e).base = s.base := by
      unfold step
      split
      · rfl
      · exact (advance_moves s e).base (h e List.mem_cons_self)
    exact (ih fun e' he' => h e' (List.mem_cons_of_mem e he')).trans hstep

end Shared

/-- The accept loop has a handle until it returns, and what `main` has waited for is done. -/
structure Waited (sweeper : Bool) (s : Process) : Prop where
  serving : s.holders.count .acceptor = if s.main = .serving then 1 else 0
  torn : s.main = .joining ∨ s.main = .exited → s.timedOut = false → Done User.isTask s
  left : s.main = .joining ∨ s.main = .exited → Done (· = .acceptor) s
  joined : s.main = .exited → Done (· = .sweeper) s
  swept : sweeper = true → .sweeper ∈ s.holders ∨ s.triggered = true

section Waited

variable {sweeper : Bool} {s s' : Process} {e : Event}

theorem waited_start (policy : FsyncPolicy) (file : Bytes) (deltaCap : ℕ)
    (sweeper dashboard : Bool) :
    Waited sweeper (start policy file deltaCap sweeper dashboard) where
  serving := by cases sweeper <;> cases dashboard <;> rfl
  torn h := by simp [start] at h
  left h := by simp [start] at h
  joined h := by simp [start] at h
  swept h := by simp [start, h]

theorem Waited.acceptor (h : Waited sweeper s) (hm : s.main = .serving) :
    .acceptor ∈ s.holders := by
  have hc := h.serving
  rw [if_pos hm] at hc
  exact List.count_pos_iff.1 (by omega)

theorem Waited.stays (h : Waited sweeper s) (hm : Moves s e s')
    (hx : s.main ≠ .exited) (hmain : s'.main = s.main) (htime : s'.timedOut = s.timedOut)
    (hcount : s'.holders.count .acceptor = s.holders.count .acceptor)
    (hswept : .sweeper ∈ s.holders ∨ s.triggered = true →
      .sweeper ∈ s'.holders ∨ s'.triggered = true) :
    Waited sweeper s' where
  serving := by rw [hcount, hmain, h.serving]
  torn hj ht := by
    rw [hmain] at hj
    rw [htime] at ht
    refine (h.torn hj ht).moves hm h.acceptor (fun _ => rfl) fun hs => ?_
    rcases hj with hj | hj <;> rw [hj] at hs <;> cases hs
  left hj := by
    rw [hmain] at hj
    exact (h.left hj).moves hm h.acceptor (fun _ => rfl) fun _ _ => rfl
  joined hj := absurd (hmain ▸ hj) hx
  swept hs := hswept (h.swept hs)

theorem Waited.moves (h : Waited sweeper s) (hm : Moves s e s')
    (hx : s.main ≠ .exited) : Waited sweeper s' := by
  have hstay := h.stays hm hx
  cases hm with
  | none => exact h
  | triggers => exact hstay rfl rfl rfl fun _ => .inr rfl
  | writes | drops | aborts | renames | swaps => exact hstay rfl rfl rfl id
  | accepts | rewrites => exact hstay rfl rfl (by simp) (by simp)
  | @releases x hmem hne hsweep =>
    obtain ⟨hh, hm, htr, hti⟩ := release_holders s x
    refine hstay hm hti (by rw [hh]; exact List.count_erase_of_ne (Ne.symm hne)) ?_
    rw [hh, htr]
    rintro (hs | ht)
    · by_cases hsw : x = .sweeper
      · exact .inr (hsweep hsw)
      · exact .inl ((List.mem_erase_of_ne (Ne.symm hsw)).2 hs)
    · exact .inr ht
  | leaves _ hm =>
    obtain ⟨hh, -, htr, -⟩ := release_holders s .acceptor
    refine ⟨?_, by simp, by simp, by simp, fun hs => ?_⟩
    · have hc := h.serving
      rw [if_pos hm] at hc
      simp [hh, List.count_erase_self, hc]
    · simp only [hh, htr]
      exact (h.swept hs).imp_left (List.mem_erase_of_ne (by nofun)).2
  | tears hm hacc htask =>
    refine ⟨?_, fun _ hto => ?_, fun _ => ?_, by simp, h.swept⟩
    · rw [h.serving, hm]
      rfl
    · exact (done_iff.2 (htask hto)).of_main _ _
    · exact (done_iff.2 hacc).of_main _ _
  | joins hm hsw =>
    refine ⟨?_, fun _ hto => ?_, fun _ => ?_, fun _ => ?_, h.swept⟩
    · rw [h.serving, hm]
      rfl
    · exact (h.torn (.inl hm) hto).of_main _ _
    · exact (h.left (.inl hm)).of_main _ _
    · exact (done_iff.2 hsw).of_main _ _

end Waited

section Exit

variable {sweeper : Bool} {s : Process}

theorem step_inv (h : Shared s ∧ Waited sweeper s) (e : Event) :
    Shared (s.step e) ∧ Waited sweeper (s.step e) := by
  unfold step
  split
  · exact h
  · exact ⟨h.1.moves (advance_moves s e) h.2.acceptor, h.2.moves (advance_moves s e) ‹_›⟩

theorem run_inv (events : List Event) (h : Shared s ∧ Waited sweeper s) :
    Shared (s.run events) ∧ Waited sweeper (s.run events) :=
  Runs.foldl_invariant (I := fun s => Shared s ∧ Waited sweeper s) (fun _ e h => step_inv h e)
    events h

theorem saving_run : ∀ (events : List Event) {s : Process}, Shared s ∧ Waited sweeper s →
    Saving s.writer → (∀ e ∈ events, e.dropSucceeds = true) → Saving (s.run events).writer
  | [], _, _, hs, _ => hs
  | e :: events, s, h, hs, he => by
    refine saving_run events (step_inv h e) ?_ fun e' he' => he e' (List.mem_cons_of_mem e he')
    unfold step
    split
    · exact hs
    · exact saving_moves h.1 hs (advance_moves s e) (he e List.mem_cons_self)

/-- A run that goes on after a rewrite has moved the writer, without another one. -/
theorem base_swap {w : ℕ} {snapshot : Bytes} {room direct push last : Option ℕ} {synced : Bool}
    {later : List Event} (hrun : s.main ≠ .exited) (hw : .rewriter w ∈ s.holders)
    (hpath : s.path = some snapshot) (hlater : ∀ e ∈ later, e.swaps = false) :
    ∃ p, (s.run (.swap w room direct push last synced :: later)).base = snapshot ++ p
      ∧ p <+: s.delta
      ∧ ((s.step (.swap w room direct push last synced)).delta = [] → p = s.delta) := by
  have hstep : s.step (.swap w room direct push last synced)
      = s.swap room direct push last synced := by
    rw [step, if_neg hrun, advance, if_pos hw]
  obtain ⟨p, hc, hp, hwhole⟩ := s.writer.moveTo_some snapshot s.delta room direct push last synced
  refine ⟨p, (base_run later hlater).trans ?_, hp, fun hdelta => ?_⟩
  · rw [hstep, ← hc, ← hpath]
    rfl
  · rw [hstep] at hdelta
    simp only [swap, hpath] at hdelta
    split at hdelta
    · exact hwhole ‹_›
    · rw [hdelta] at hp ⊢
      exact List.prefix_nil.1 hp

theorem kinds (x : User) : x.isTask = true ∨ decide (x = .acceptor) = true
    ∨ decide (x = .sweeper) = true ∨ x.detached = true := by
  cases x <;> simp [User.isTask, User.detached]

theorem dropped_iff (h : Shared s ∧ Waited sweeper s) (hexit : s.main = .exited)
    (htime : s.timedOut = false) : s.writer.owner = .dropped ↔ s.busy User.detached = false := by
  have htasks := h.2.torn (.inr hexit) htime
  have haccept := h.2.left (.inr hexit)
  have hsweep := h.2.joined hexit
  rw [← done_iff]
  constructor
  · intro hd
    have hnil : s.holders = [] := by
      by_contra hne
      rw [h.1.held.1 hne] at hd
      cases hd
    exact ⟨by simp [hnil], fun _ _ _ => hd⟩
  · intro hdet
    have hnil : s.holders = [] := by
      refine List.eq_nil_iff_forall_not_mem.2 fun x hx => ?_
      rcases kinds x with hk | hk | hk | hk
      · exact absurd hk (by simp [htasks.holders x hx])
      · exact absurd hk (by simpa using haccept.holders x hx)
      · exact absurd hk (by simpa using hsweep.holders x hx)
      · exact absurd hk (by simp [hdet.holders x hx])
    obtain ⟨x, hx⟩ := Option.isSome_iff_exists.1 (h.1.dropper.2 hnil)
    rcases kinds x with hk | hk | hk | hk
    · exact htasks.dropper x hx hk
    · exact haccept.dropper x hx hk
    · exact hsweep.dropper x hx hk
    · exact hdet.dropper x hx hk

end Exit

/-- The signal comes, the client's task and the accept loop end, and so does the sweeper. -/
def shutDown : List Event :=
  [.trigger, .release (.task 0), .leave false, .teardown false, .release .sweeper]

/-- The sweeper's thread drops the writer, and `main` waits for it. -/
def dropWriter : List Event := [.drop none none true, .drop none none true, .join]

/-- A client sets a key and asks for a rewrite, and sets it again before the rewrite has ended. -/
def midRewrite : List Event :=
  [.accept 0, .writer (.append [.set [107] [118]] none none none), .rewrite (.task 0) 0,
    .writer (.append [.set [107] [119]] none none none),
    .rename 0 (encodeLog [.set [107] [118]])]

/-- The rewrite ends, and another record comes before the exit. -/
def rewritten : List Event :=
  [.writer (.append [.del [107]] none none none), .release (.rewriter 0)] ++ shutDown ++ dropWriter

/-- With a dashboard that still has its handle, `main` returns with the record in the buffer. -/
example :
    ((start .everySec [] 1024 true true).run ([.accept 0,
        .writer (.append [.set [107] [118]] none none none)] ++ shutDown ++ [.join])).main = .exited
      ∧ ((start .everySec [] 1024 true true).run ([.accept 0,
        .writer (.append [.set [107] [118]] none none none)] ++ shutDown ++ [.join])).log = [] :=
  ⟨rfl, rfl⟩

end Process

end FerrumKv
