import FerrumKv.Atomics

/-!
# Words changed without a lock, under every schedule

The counter of connections is the number of guards that exist, which never passes the limit, and a
client is refused only when the limit is reached at a moment of its `try_acquire` (`slots_exact`).
Readers that touch an entry at the same time leave what touches one after another leave: none is
lost (`touches_in_some_order`).
-/

namespace FerrumKv

open CasLoop

/-- A counter that holds `n` and keeps to the limit does so after an `acquire` with `n + 1`. -/
theorem slotUpdate_acquire {maxClients active active' : UInt64} {n : ℕ}
    (hn : active = UInt64.ofNat n) (hle : maxClients ≠ 0 → n ≤ maxClients.toNat)
    (hu : slotUpdate maxClients .acquire active = some active') :
    active' = UInt64.ofNat (n + 1) ∧ (maxClients ≠ 0 → n + 1 ≤ maxClients.toNat) := by
  rw [UInt64.ofNat_add, ← hn]
  simp only [slotUpdate] at hu
  split_ifs at hu with hzero hfull
  · exact ⟨(Option.some.inj hu).symm, fun hne => absurd hzero hne⟩
  · refine ⟨(Option.some.inj hu).symm, fun hne => ?_⟩
    have hlt := maxClients.toNat_lt
    have := hle hne
    rw [UInt64.le_iff_toNat_le, hn, UInt64.toNat_ofNat', Nat.mod_eq_of_lt (by omega)] at hfull
    omega

namespace ConnCounter

variable {maxClients : UInt64} {s : State} {h : History}

/-! ## Guards -/

/-- No more guards are dropped than were handed out, at any time. -/
def Balanced (h : History) : Prop := ∀ before, before <+: h → released before ≤ acquired before

theorem acquired_append (h h' : History) : acquired (h ++ h') = acquired h + acquired h' :=
  List.countP_append

theorem released_append (h h' : History) : released (h ++ h') = released h + released h' :=
  List.countP_append

theorem Balanced.self (hb : Balanced h) : released h ≤ acquired h := hb h (List.prefix_refl h)

theorem Balanced.front {h' : History} (hb : Balanced (h ++ h')) : Balanced h :=
  fun before hp => hb before (hp.trans (List.prefix_append h h'))

theorem Balanced.append {x : CasLoop.Entry ℕ SlotOp} (hb : Balanced h)
    (hx : released (h ++ [x]) ≤ acquired (h ++ [x])) : Balanced (h ++ [x]) := by
  intro before hp
  rcases List.prefix_concat_iff.1 hp with rfl | hp
  · exact hx
  · exact hb before hp

theorem guards_acquire (hb : Balanced h) (t : ℕ) :
    guards (h ++ [⟨t, .acquire, true⟩]) = guards h + 1 := by
  have hle := hb.self
  have ha : acquired [⟨t, .acquire, true⟩] = 1 := rfl
  have hr : released [⟨t, .acquire, true⟩] = 0 := rfl
  simp only [guards, acquired_append, released_append, ha, hr]
  omega

theorem guards_refused (h : History) (t : ℕ) :
    guards (h ++ [⟨t, .acquire, false⟩]) = guards h := by
  have ha : acquired [⟨t, .acquire, false⟩] = 0 := rfl
  have hr : released [⟨t, .acquire, false⟩] = 0 := rfl
  simp only [guards, acquired_append, released_append, ha, hr, Nat.add_zero]

theorem guards_release {t : ℕ} {took : Bool} (hb : Balanced (h ++ [⟨t, .release, took⟩])) :
    guards h = guards (h ++ [⟨t, .release, took⟩]) + 1 := by
  have hle := hb.self
  have ha : acquired [⟨t, .release, took⟩] = 0 := rfl
  have hr : released [⟨t, .release, took⟩] = 1 := rfl
  simp only [guards, acquired_append, released_append, ha, hr] at hle ⊢
  omega

/-- The counter holds the number of guards, and the guards keep to the limit. -/
def Exact (maxClients : UInt64) (h : History) (active : UInt64) : Prop :=
  active = UInt64.ofNat (guards h) ∧ (maxClients ≠ 0 → guards h ≤ maxClients.toNat)

theorem Exact.toNat {active : UInt64} (he : Exact maxClients h active) (hmax : maxClients ≠ 0) :
    active.toNat = guards h := by
  have hlt := maxClients.toNat_lt
  have hle := he.2 hmax
  rw [he.1, UInt64.toNat_ofNat', Nat.mod_eq_of_lt (by omega)]

theorem Exact.acquire {active active' : UInt64} (he : Exact maxClients h active) (hb : Balanced h)
    (hu : slotUpdate maxClients .acquire active = some active') (t : ℕ) :
    Exact maxClients (h ++ [⟨t, .acquire, true⟩]) active' := by
  unfold Exact
  rw [guards_acquire hb]
  exact slotUpdate_acquire he.1 he.2 hu

theorem Exact.release {active active' : UInt64} {t : ℕ} (he : Exact maxClients h active)
    (hb : Balanced (h ++ [⟨t, .release, true⟩]))
    (hu : slotUpdate maxClients .release active = some active') :
    Exact maxClients (h ++ [⟨t, .release, true⟩]) active' := by
  have hone := guards_release hb
  obtain rfl : active - 1 = active' := Option.some.inj hu
  refine ⟨?_, fun hne => ?_⟩
  · rw [he.1, hone, UInt64.ofNat_add, UInt64.ofNat_one, UInt64.add_sub_cancel]
  · have hle := he.2 hne
    omega

/-- A balanced history leaves the counter exact. -/
theorem exact_of_legal {active : UInt64} (hl : Legal (slotUpdate maxClients) 0 h active) :
    Balanced h → Exact maxClients h active := by
  refine Legal.rule (I := fun h active => Balanced h → Exact maxClients h active) ?_ ?_ ?_ hl
  · exact fun _ => ⟨rfl, fun _ => Nat.zero_le _⟩
  · intro h w w' t o ih hu hb
    cases o with
    | acquire => exact (ih hb.front).acquire hb.front hu t
    | release => exact (ih hb.front).release hb hu
  · intro h w t o ih hu hb
    cases o with
    | acquire =>
      unfold Exact
      rw [guards_refused]
      exact ih hb.front
    | release => cases hu

/-! ## Runs -/

/-- What the invariants of a run rest on: loops are those of `try_acquire`, and guards are dropped
once. -/
structure Sound (maxClients : UInt64) (s : State) : Prop where
  computed : Computed (slotUpdate maxClients) s
  loops : ∀ t, ∀ o ∈ (s.phase t).pending, o = .acquire
  balanced : Balanced s.history

theorem Balanced.acquire {x : CasLoop.Entry ℕ SlotOp} (hb : Balanced h) (hx : x.op = .acquire) :
    Balanced (h ++ [x]) := by
  refine hb.append ?_
  have hr : released [x] = 0 := by simp [released, hx]
  rw [released_append, acquired_append, hr]
  have hle := hb.self
  omega

theorem Balanced.release {x : CasLoop.Entry ℕ SlotOp} (hb : Balanced h) (hpos : 0 < guards h) :
    Balanced (h ++ [x]) := by
  refine hb.append ?_
  have hr : released [x] ≤ 1 := List.countP_le_length
  rw [released_append, acquired_append]
  simp only [guards] at hpos
  omega

/-- The event of the counter's word that an event of the server is. -/
def Event.access? (maxClients : UInt64) (s : State) : Event → Option (CasLoop.Event ℕ SlotOp)
  | .tryAcquire t => some (if maxClients = 0 then .direct t .acquire else .call t .acquire)
  | .access t => some (.access t false)
  | .drop t => if 0 < guards s.history then some (.direct t .release) else none

theorem step_eq (s : State) (e : Event) :
    step maxClients s e
      = (e.access? maxClients s).elim s fun x => s.step (slotUpdate maxClients) x := by
  cases e with
  | tryAcquire t | access t => rfl
  | drop t =>
    simp only [step, Event.access?]
    split_ifs <;> rfl

theorem Sound.step (hs : Sound maxClients s) (e : Event) :
    Sound maxClients (step maxClients s e) := by
  rw [step_eq]
  cases hx : e.access? maxClients s with
  | none => exact hs
  | some x =>
    have hcall : ∀ t o, x = .call t o → o = .acquire := by
      rintro t o rfl
      cases e <;> simp only [Event.access?] at hx <;> (try split_ifs at hx) <;> simp_all
    have hdirect : ∀ t o, x = .direct t o → o = .acquire ∨ 0 < guards s.history := by
      rintro t o rfl
      cases e <;> simp only [Event.access?] at hx <;> (try split_ifs at hx) <;> simp_all
    have hm := step_moves hs.computed x
    refine ⟨hm.computed hs.computed, fun t o ho => ?_, ?_⟩
    · exact (hm.pending ho).elim (hs.loops t o) (hcall t o)
    · rcases hm.history with h | ⟨y, h, hy⟩
      · exact Eq.mpr (congrArg Balanced h) hs.balanced
      · refine Eq.mpr (congrArg Balanced h) ?_
        rcases hy.elim (fun hy => .inl (hs.loops _ _ hy)) (hdirect _ _) with ha | hpos
        · exact hs.balanced.acquire ha
        · exact hs.balanced.release hpos

theorem new_sound (maxClients : UInt64) : Sound maxClients new := by
  refine ⟨fun t o seen next h => ?_, fun t o ho => ?_, fun before hp => ?_⟩
  · cases h
  · cases ho
  · rw [List.prefix_nil.1 hp]
    exact le_rfl

theorem run_sound (maxClients : UInt64) (events : List Event) :
    Sound maxClients (run maxClients events) :=
  Runs.foldl_invariant (I := Sound maxClients) (fun _ e hs => hs.step e) events
    (new_sound maxClients)

theorem run_legal (maxClients : UInt64) (events : List Event) :
    Legal (slotUpdate maxClients) 0 (run maxClients events).history
      (run maxClients events).word := by
  obtain ⟨xs, hxs⟩ : ∃ xs, run maxClients events = new.run (slotUpdate maxClients) xs := by
    refine exists_run (g := id) (fun s e => ?_) events new
    rw [id, step_eq]
    cases e.access? maxClients s with
    | none => exact .inl rfl
    | some x => exact .inr ⟨x, rfl⟩
  rw [hxs]
  exact CasLoop.run_legal _ _ _

/-- Whatever the order in which tasks call `try_acquire`, make its accesses and drop guards: the
counter is the number of guards that exist, there are never more than the limit, and a refused
client met the limit reached. -/
theorem slots_exact (maxClients : UInt64) (events : List Event) :
    (run maxClients events).word = UInt64.ofNat (guards (run maxClients events).history)
      ∧ (maxClients ≠ 0 → guards (run maxClients events).history ≤ maxClients.toNat)
      ∧ ∀ before t after,
        (run maxClients events).history = before ++ ⟨t, .acquire, false⟩ :: after →
          maxClients ≠ 0 ∧ guards before = maxClients.toNat := by
  have hl := run_legal maxClients events
  have hb := (run_sound maxClients events).balanced
  obtain ⟨hword, hle⟩ := exact_of_legal hl hb
  refine ⟨hword, hle, fun before t after hh => ?_⟩
  rw [hh] at hl hb
  obtain ⟨active, hbefore, hu⟩ := hl.at_entry
  have he := exact_of_legal hbefore hb.front
  simp only [slotUpdate] at hu
  split_ifs at hu with hzero hfull
  · cases hu
  · refine ⟨hzero, le_antisymm (he.2 hzero) ?_⟩
    rwa [UInt64.le_iff_toNat_le, he.toNat hzero] at hfull
  · cases hu

end ConnCounter

/-! ## Touches of an entry -/

theorem unpackLfu_packLfu (counter : UInt8) (minute : UInt16) :
    unpackLfu (packLfu counter minute) = (counter, minute) := by
  unfold unpackLfu packLfu
  ext1
  · refine UInt8.eq_of_toBitVec_eq ?_
    simp only [UInt32.toBitVec_toUInt8, UInt32.toBitVec_and, UInt32.toBitVec_or]
    ext i hi
    interval_cases i <;> simp
  · refine UInt16.eq_of_toBitVec_eq ?_
    simp only [UInt32.toBitVec_toUInt16, UInt32.toBitVec_and]
    ext i hi
    interval_cases i <;> simp

namespace SharedEntry

variable {e : ValueEntry}

/-- The word that holds the metadata of an entry. -/
def packed (e : ValueEntry) : UInt32 := packLfu e.lfuCounter e.lfuMinute

theorem update_packed (o : Touch) (e : ValueEntry) :
    o.update (packed e) = some (packed (o.apply e)) := by
  simp only [Touch.update, packed, unpackLfu_packLfu]
  rfl

def applyAll (e : ValueEntry) (touches : List (ℕ × Touch)) : ValueEntry :=
  touches.foldl (fun e p => p.2.apply e) e

theorem legal_packed {h : List (CasLoop.Entry ℕ Touch)} {word : UInt32}
    (hl : Legal Touch.update (packed e) h word) :
    word = packed (applyAll e (h.map CasLoop.Entry.call)) := by
  refine Legal.rule
    (I := fun h word => word = packed (applyAll e (h.map CasLoop.Entry.call))) rfl ?_ ?_ hl
  · rintro h _ w' t o rfl hu
    rw [update_packed] at hu
    rw [List.map_append, applyAll, List.foldl_append]
    exact (Option.some.inj hu).symm
  · rintro h _ t o rfl hu
    rw [update_packed] at hu
    cases hu

theorem run_eq_run (events : List Event) (s : SharedEntry) :
    ∃ xs, (s.run events).lfu = s.lfu.run Touch.update xs := by
  refine exists_run (fun s e => ?_) events s
  cases e with
  | touch t o =>
    simp only [step]
    split
    · exact .inr ⟨.call t o, rfl⟩
    · exact .inl rfl
  | access t spurious => exact .inr ⟨.access t spurious, rfl⟩

theorem run_lastAccess (e : ValueEntry) (events : List Event) :
    ((ofEntry e).run events).lastAccessNs
      = (((ofEntry e).run events).lfu.called.getLast?.map (·.2.ns)).getD e.lastAccessNs := by
  refine Runs.foldl_invariant
    (I := fun s : SharedEntry =>
      s.lastAccessNs = (s.lfu.called.getLast?.map (·.2.ns)).getD e.lastAccessNs) ?_ events rfl
  intro s x hs
  cases x with
  | touch t o =>
    by_cases hidle : (s.lfu.phase t).isIdle = true
    · simp [step, CasLoop.State.step, hidle]
    · simpa [step, hidle] using hs
  | access t spurious =>
    have hcalled : (s.lfu.step Touch.update (.access t spurious)).called = s.lfu.called := by
      simp only [CasLoop.State.step, CasLoop.State.access, CasLoop.State.look]
      repeat' split
      all_goals rfl
    simpa only [step, hcalled] using hs

/-- When the readers of an entry are done, its counter and its minute are those that their touches
leave one after another in some order, each reader's in its own; its time is that of the touch that
was called last. -/
theorem touches_in_some_order (e : ValueEntry) (events : List Event)
    (hidle : ∀ t, ((ofEntry e).run events).lfu.phase t = .idle) :
    ∃ order, order.Perm ((ofEntry e).run events).lfu.called
      ∧ (∀ t, opsOf t order = opsOf t ((ofEntry e).run events).lfu.called)
      ∧ unpackLfu ((ofEntry e).run events).lfu.word
        = ((applyAll e order).lfuCounter, (applyAll e order).lfuMinute)
      ∧ ((ofEntry e).run events).lastAccessNs
        = (((ofEntry e).run events).lfu.called.getLast?.map (·.2.ns)).getD e.lastAccessNs := by
  classical
  have hlast := run_lastAccess e events
  obtain ⟨xs, hxs⟩ := run_eq_run events (ofEntry e)
  rw [hxs] at hidle ⊢
  have hacc : Accounted ((ofEntry e).lfu.run Touch.update xs) := run_accounted _ _ _
  rw [hxs] at hlast
  refine ⟨_, perm_of_idle hacc hidle, fun t => ?_, ?_, hlast⟩
  · rw [hacc t, hidle t, pending_idle, List.append_nil]
  · have hl : Legal Touch.update (packed e) _ _ := CasLoop.run_legal Touch.update (packed e) xs
    have hw := legal_packed hl
    exact (congrArg unpackLfu hw).trans (unpackLfu_packLfu _ _)

/-- Two readers that load the same word: the swap of the second fails and it goes round. -/
def twoReaders : List Event :=
  [.touch 0 ⟨7, 3, fun _ => true⟩, .touch 1 ⟨8, 3, fun _ => true⟩, .access 0 false, .access 1 false,
    .access 0 false, .access 1 false, .access 1 false]

theorem touches_in_some_order_twoReaders :
    ∃ order, order.Perm ((ofEntry (.new ⟨0, 3, false⟩ [])).run twoReaders).lfu.called
      ∧ (∀ t, opsOf t order = opsOf t ((ofEntry (.new ⟨0, 3, false⟩ [])).run twoReaders).lfu.called)
      ∧ unpackLfu ((ofEntry (.new ⟨0, 3, false⟩ [])).run twoReaders).lfu.word
        = ((applyAll (.new ⟨0, 3, false⟩ []) order).lfuCounter,
          (applyAll (.new ⟨0, 3, false⟩ []) order).lfuMinute)
      ∧ ((ofEntry (.new ⟨0, 3, false⟩ [])).run twoReaders).lastAccessNs = 8 :=
  touches_in_some_order _ twoReaders fun t => by
    match t with
    | 0 => rfl
    | 1 => rfl
    | _ + 2 => rfl

end SharedEntry

end FerrumKv
