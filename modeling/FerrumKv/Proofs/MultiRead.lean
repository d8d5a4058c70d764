import FerrumKv.Lib.Runs
import FerrumKv.MultiRead
import FerrumKv.Proofs.Refusal

/-!
# Atomicity of reads of several keys

`MGET` answers with what its section under the shared lock saw, so its list is right at the moment
it began. `EXISTS` counts again what it finds under the exclusive lock: its count is that of the
first moment and, of the keys that had expired there, those that are live at the last one. It is the
right count of one moment as long as the two do not mix (`multiRead_atomic`); a key removed and
another set between the sections give a count that no moment has (`existsMany_torn`).
-/

namespace FerrumKv

open KvEngine

namespace Moment

variable {store : Store} {clock : ℕ} {key : Key} {e : ValueEntry}

theorem holds_of_absent (hl : store.lookup key = none) :
    (⟨store, clock⟩ : Moment).holds key = false := by
  simp [holds, live_of_lookup_none hl]

theorem holds_of_lookup (hl : store.lookup key = some e) :
    (⟨store, clock⟩ : Moment).holds key = !e.isExpired clock := by
  cases hx : e.isExpired clock <;> simp [holds, live_of_lookup hl, ValueEntry.shown, hx]

theorem value_of_lookup (hl : store.lookup key = some e) :
    (⟨store, clock⟩ : Moment).value key = if e.isExpired clock then none else some e.data := by
  cases hx : e.isExpired clock <;> simp [value, live_of_lookup hl, ValueEntry.shown, hx]

theorem expired_of_lookup (hl : store.lookup key = some e) :
    (⟨store, clock⟩ : Moment).expired key = e.isExpired clock := by
  simp [expired, hl]

theorem holds_of_expired {m : Moment} (h : m.expired key = true) : m.holds key = false := by
  cases hl : m.store.lookup key with
  | none => exact holds_of_absent hl
  | some e =>
    have hx : e.isExpired m.clock = true := (expired_of_lookup hl).symm.trans h
    exact (holds_of_lookup hl).trans (by rw [hx]; rfl)

end Moment

section Sections

variable (env : Env)

theorem live_touchAccess (t : ℕ) (s : KvEngine) (r : AccessReading) (key k : Key) :
    live t (s.touchAccess r key).store k = live t s.store k := by
  unfold touchAccess
  split
  · rename_i e he
    refine (live_insert t s.store key (e.touch r) k).trans ?_
    split_ifs with hk
    · subst hk
      exact (live_of_lookup he).symm
    · rfl
  · rfl

theorem mgetShared_values : ∀ (i : ℕ) (keys : List Key) (s : KvEngine),
    (mgetShared env i keys s).1.1 = keys.map (⟨s.store, env.shared⟩ : Moment).value
  | _, [], _ => rfl
  | i, key :: keys, s => by
    unfold mgetShared
    rw [List.map_cons]
    cases hl : s.store.lookup key with
    | none =>
      have hv : (⟨s.store, env.shared⟩ : Moment).value key = none := by
        simp [Moment.value, live_of_lookup_none hl]
      rw [hv]
      exact congrArg _ (mgetShared_values (i + 1) keys s.recordMiss)
    | some e =>
      rw [Moment.value_of_lookup hl]
      simp only []
      split_ifs with hx
      · exact congrArg _ (mgetShared_values (i + 1) keys s)
      · have hrest := mgetShared_values (i + 1) keys ((s.touchAccess (env.access i) key).recordHit)
        refine congrArg _ (hrest.trans (List.map_congr_left fun k _ => ?_))
        exact congrArg (Option.map _) (live_touchAccess _ s _ key k)

theorem existsShared_eq : ∀ (keys : List Key) (s : KvEngine), (existsShared env keys s).1
      = (keys.countP (⟨s.store, env.shared⟩ : Moment).holds,
          keys.filter (⟨s.store, env.shared⟩ : Moment).expired)
  | [], _ => rfl
  | key :: keys, s => by
    unfold existsShared
    rw [List.countP_cons, List.filter_cons]
    cases hl : s.store.lookup key with
    | none =>
      have hx : (⟨s.store, env.shared⟩ : Moment).expired key = false := by
        simp [Moment.expired, hl]
      rw [Moment.holds_of_absent hl, hx]
      exact existsShared_eq keys s.recordMiss
    | some e =>
      rw [Moment.holds_of_lookup hl, Moment.expired_of_lookup hl]
      cases hx : e.isExpired env.shared with
      | true => simp [hx, existsShared_eq keys s]
      | false =>
        have hrest := existsShared_eq keys s.recordHit
        simp only [hx, hrest, Bool.not_false, if_true, Bool.false_eq_true, if_false]
        rfl

theorem containsLive_eq (s : KvEngine) (key : Key) :
    (s.containsLive env key).1 = (⟨s.store, env.now⟩ : Moment).holds key
      ∧ ∀ k, live env.now (s.containsLive env key).2.store k = live env.now s.store k := by
  unfold containsLive
  cases hl : s.store.lookup key with
  | none => exact ⟨(Moment.holds_of_absent hl).symm, fun _ => rfl⟩
  | some e =>
    rw [Moment.holds_of_lookup hl]
    simp only []
    split_ifs with hx
    · exact ⟨by rw [hx]; rfl,
        live_erase_of_none ((live_of_lookup hl).trans (shown_of_expired hx))⟩
    · exact ⟨by simp [hx], fun _ => rfl⟩

/-- The section under the exclusive lock counts what is live there and removes only what is not. -/
theorem existsExclusive_eq : ∀ (keys : List Key) (s : KvEngine),
    (existsExclusive env keys s).1 = keys.countP (⟨s.store, env.now⟩ : Moment).holds
      ∧ ∀ k, live env.now (existsExclusive env keys s).2.store k = live env.now s.store k
  | [], _ => ⟨rfl, fun _ => rfl⟩
  | key :: keys, s => by
    obtain ⟨hc, hlive⟩ := containsLive_eq env s key
    obtain ⟨hrest, hlive'⟩ := existsExclusive_eq keys (s.containsLive env key).2
    have hsame : (⟨(s.containsLive env key).2.store, env.now⟩ : Moment).holds
        = (⟨s.store, env.now⟩ : Moment).holds :=
      funext fun k => congrArg Option.isSome (hlive k)
    rw [hsame] at hrest
    unfold existsExclusive
    refine ⟨?_, fun k => (hlive' k).trans (hlive k)⟩
    rw [List.countP_cons, ← hc]
    simp only [hrest]
    split_ifs <;> rfl

/-- A read of one key that comes back under the exclusive lock does there what the whole command
does at the clock of that section. -/
theorem reads_eq_exclusive (h : env.shared = env.now) (s : KvEngine) (key : Key) :
    s.get env key = s.fetchLive env 0 key ∧ s.existsKey env key = s.containsLive env key
      ∧ s.strlen env key = s.strlenOf env key ∧ s.ttlMs env key = s.ttlOf env key
      ∧ s.memoryUsage env key = s.memoryOf env key := by
  unfold KvEngine.get existsKey strlen ttlMs memoryUsage
  unfold fetchLive containsLive strlenOf ttlOf memoryOf
  rw [h]
  cases s.store.lookup key with
  | none => exact ⟨rfl, rfl, rfl, rfl, rfl⟩
  | some e => cases hx : e.isExpired env.now <;> simp [hx]

end Sections

namespace ReadSystem

variable {s : ReadSystem} {c d : ℕ} {engine : KvEngine} {pc : ReadPc}

@[simp] theorem enter_engine : (s.enter c engine pc).engine = engine := rfl

@[simp] theorem leave_engine : (s.leave c engine pc).engine = engine := rfl

theorem enter_client_self :
    (s.enter c engine pc).client c = ⟨pc, [s.now, ⟨engine.store, s.clock⟩]⟩ :=
  Function.update_self ..

theorem enter_client_of_ne (h : d ≠ c) :
    (s.enter c engine pc).client d = (s.client d).see ⟨engine.store, s.clock⟩ :=
  Function.update_of_ne h ..

theorem leave_client_self (h : (s.client c).pc.busy = true) :
    (s.leave c engine pc).client c = ⟨pc, (s.client c).moments ++ [⟨engine.store, s.clock⟩]⟩ := by
  refine (Function.update_self ..).trans ?_
  simp only [moveTo, ReadClient.see, h, if_true]

theorem leave_client_of_ne (h : d ≠ c) :
    (s.leave c engine pc).client d = (s.client d).see ⟨engine.store, s.clock⟩ :=
  Function.update_of_ne h ..

/-- With nothing in between, the two sections of an `EXISTS` are the command. -/
theorem run_existsMany (env : Env) (keys : List Key) (hfree : (s.client c).pc.busy = false) :
    ((s.run [.existsMany c env keys, .resume c env]).client c).pc
        = .counted keys (s.engine.existsMany env keys).1
      ∧ (s.run [.existsMany c env keys, .resume c env]).engine
        = (s.engine.existsMany env keys).2 := by
  have hmany : s.engine.existsMany env keys
      = ((existsShared env keys s.engine).1.1 + (existsExclusive env (existsShared env keys
          s.engine).1.2 (existsShared env keys s.engine).2).1,
        (existsExclusive env (existsShared env keys s.engine).1.2
          (existsShared env keys s.engine).2).2) := by
    unfold KvEngine.existsMany
    split_ifs with hk
    · subst hk
      rfl
    · rfl
  rw [hmany]
  simp only [run, List.foldl_cons, List.foldl_nil, step, hfree, Bool.false_eq_true, if_false,
    enter_client_self]
  split_ifs with hx
  · simp [enter_client_self, hx, existsExclusive]
  · simp [leave_client_self, enter_client_self, ReadPc.busy]

theorem run_mget (env : Env) (keys : List Key) (hfree : (s.client c).pc.busy = false) :
    ((s.run [.mget c env keys, .resume c env]).client c).pc
        = .fetched keys (s.engine.mget env keys).1
      ∧ (s.run [.mget c env keys, .resume c env]).engine = (s.engine.mget env keys).2 := by
  unfold KvEngine.mget
  simp only [run, List.foldl_cons, List.foldl_nil, step, hfree, Bool.false_eq_true, if_false,
    enter_client_self]
  split_ifs with hx
  · simp [enter_client_self, hx]
  · simp [leave_client_self, enter_client_self, ReadPc.busy]

end ReadSystem

/-! ## What a client knows -/

/-- What the history of a client says about where it stands. -/
def ReadClient.Tracked (r : ReadClient) : Prop :=
  match r.pc with
  | .idle => True
  | .counting keys count expired =>
    ∃ m₀, r.moments.head? = some m₀ ∧ count = keys.countP m₀.holds
      ∧ expired = keys.filter m₀.expired
  | .counted keys count =>
    ∃ m₀ m₁, r.moments.head? = some m₀ ∧ r.moments.getLast? = some m₁
      ∧ count = keys.countP m₀.holds + (keys.filter m₀.expired).countP m₁.holds
  | .fetching keys values _ | .fetched keys values =>
    ∃ m₀, r.moments.head? = some m₀ ∧ values = keys.map m₀.value

theorem head?_concat {α : Type*} {l : List α} {a b : α} (h : l.head? = some a) :
    (l ++ [b]).head? = some a := by
  rw [List.head?_append, h]
  rfl

theorem ReadClient.Tracked.see {r : ReadClient} (h : r.Tracked) (m : Moment) :
    (r.see m).Tracked := by
  obtain ⟨pc, moments⟩ := r
  cases pc with
  | idle => trivial
  | counting keys count expired =>
    obtain ⟨m₀, hm₀, hrest⟩ := h
    exact ⟨m₀, head?_concat hm₀, hrest⟩
  | counted keys count => exact h
  | fetching keys values expired =>
    obtain ⟨m₀, hm₀, hrest⟩ := h
    exact ⟨m₀, head?_concat hm₀, hrest⟩
  | fetched keys values => exact h

namespace ReadSystem

variable {s : ReadSystem}

theorem enter_tracked {c : ℕ} {engine : KvEngine} {pc : ReadPc} (h : ∀ d, (s.client d).Tracked)
    (hc : ReadClient.Tracked ⟨pc, [s.now, ⟨engine.store, s.clock⟩]⟩) (d : ℕ) :
    ((s.enter c engine pc).client d).Tracked := by
  by_cases hd : d = c
  · subst hd
    rw [enter_client_self]
    exact hc
  · rw [enter_client_of_ne hd]
    exact (h d).see _

theorem leave_tracked {c : ℕ} {engine : KvEngine} {pc : ReadPc} (h : ∀ d, (s.client d).Tracked)
    (hbusy : (s.client c).pc.busy = true)
    (hc : ReadClient.Tracked ⟨pc, (s.client c).moments ++ [⟨engine.store, s.clock⟩]⟩) (d : ℕ) :
    ((s.leave c engine pc).client d).Tracked := by
  by_cases hd : d = c
  · subst hd
    rw [leave_client_self hbusy]
    exact hc
  · rw [leave_client_of_ne hd]
    exact (h d).see _

theorem existsMany_tracked {env : Env} (h : ∀ d, (s.client d).Tracked)
    (hclock : env.shared = s.clock) (c : ℕ) (keys : List Key) (d : ℕ) :
    ((s.step (.existsMany c env keys)).client d).Tracked := by
  have heq : (existsShared env keys s.engine).1
      = (keys.countP s.now.holds, keys.filter s.now.expired) := by
    rw [existsShared_eq, hclock]
    rfl
  unfold step
  simp only []
  split_ifs with hbusy hx
  · exact h d
  · have hnone : keys.filter s.now.expired = [] := (congrArg Prod.snd heq).symm.trans hx
    refine enter_tracked h ?_ d
    refine ⟨_, _, rfl, rfl, ?_⟩
    rw [heq, hnone]
    rfl
  · refine enter_tracked h ?_ d
    exact ⟨_, rfl, congrArg Prod.fst heq, congrArg Prod.snd heq⟩

theorem mget_tracked {env : Env} (h : ∀ d, (s.client d).Tracked)
    (hclock : env.shared = s.clock) (c : ℕ) (keys : List Key) (d : ℕ) :
    ((s.step (.mget c env keys)).client d).Tracked := by
  have hv : (mgetShared env 0 keys s.engine).1.1 = keys.map s.now.value := by
    rw [mgetShared_values, hclock]
    rfl
  unfold step
  simp only []
  split_ifs with hbusy hx
  · exact h d
  · refine enter_tracked h ?_ d
    exact ⟨_, rfl, hv⟩
  · refine enter_tracked h ?_ d
    exact ⟨_, rfl, hv⟩

theorem resume_tracked {env : Env} (h : ∀ d, (s.client d).Tracked) (hclock : env.now = s.clock)
    (c d : ℕ) : ((s.step (.resume c env)).client d).Tracked := by
  have hc := h c
  unfold ReadClient.Tracked at hc
  unfold step
  simp only []
  split
  · rename_i keys count expired hpc
    rw [hpc] at hc
    obtain ⟨m₀, hm₀, rfl, rfl⟩ := hc
    refine leave_tracked h (by rw [hpc]; rfl) ?_ d
    refine ⟨m₀, _, head?_concat hm₀, List.getLast?_concat, ?_⟩
    obtain ⟨hn, hlive⟩ := existsExclusive_eq env (keys.filter m₀.expired) s.engine
    rw [hn, ← hclock]
    refine congrArg _ (congrArg (fun p => List.countP p _) (funext fun k => ?_))
    exact congrArg Option.isSome (hlive k).symm
  · rename_i keys values expired hpc
    rw [hpc] at hc
    obtain ⟨m₀, hm₀, hv⟩ := hc
    refine leave_tracked h (by rw [hpc]; rfl) ?_ d
    exact ⟨m₀, head?_concat hm₀, hv⟩
  · exact h d

theorem step_tracked {e : Event} (hclock : s.OnClock e) (h : ∀ d, (s.client d).Tracked) :
    ∀ d, ((s.step e).client d).Tracked := by
  intro d
  cases e with
  | tick => exact (h d).see _
  | command env cmd => exact (h d).see _
  | existsMany c env keys => exact existsMany_tracked h hclock c keys d
  | mget c env keys => exact mget_tracked h hclock c keys d
  | resume c env => exact resume_tracked h hclock c d

theorem run_tracked (engine : KvEngine) (clock : ℕ) (events : List Event)
    (hclock : ∀ n e, events[n]? = some e → ((start engine clock).run (events.take n)).OnClock e)
    (c : ℕ) : (((start engine clock).run events).client c).Tracked := by
  have h : ∀ n d, (((start engine clock).run (events.take n)).client d).Tracked :=
    Runs.forall_take (I := fun s => ∀ d, (ReadSystem.client s d).Tracked) (fun _ => trivial)
      fun n e hn ih => step_tracked (hclock n e hn) ih
  have hlast := h events.length c
  rwa [List.take_length] at hlast

end ReadSystem

/-! ## Atomicity -/

theorem countP_of_unchanged {keys : List Key} {m₀ m₁ : Moment}
    (h : ∀ key ∈ keys, m₀.expired key = false → m₁.holds key = m₀.holds key) :
    keys.countP m₁.holds = keys.countP m₀.holds + (keys.filter m₀.expired).countP m₁.holds := by
  induction keys with
  | nil => rfl
  | cons key keys ih =>
    obtain ⟨hkey, hkeys⟩ := List.forall_mem_cons.1 h
    have ih := ih hkeys
    rw [List.countP_cons, List.countP_cons, List.filter_cons]
    cases hx : m₀.expired key with
    | true =>
      rw [Moment.holds_of_expired hx, if_pos rfl, List.countP_cons]
      simp only [Bool.false_eq_true, if_false]
      omega
    | false =>
      rw [hkey hx]
      simp only [Bool.false_eq_true, if_false]
      omega

/-- The list of an `MGET` is right at the moment the command began. The count of an `EXISTS` is
right at its first or its last moment, unless keys that had expired came back and other keys came
or went. -/
theorem multiRead_atomic (engine : KvEngine) (clock : ℕ) (events : List ReadSystem.Event)
    (hclock : ∀ n e, events[n]? = some e →
      ((ReadSystem.start engine clock).run (events.take n)).OnClock e) (c : ℕ) :
    let r := ((ReadSystem.start engine clock).run events).client c
    (∀ keys values, r.pc = .fetched keys values → r.Atomic) ∧
      ∀ keys count, r.pc = .counted keys count → Undisturbed keys r.moments → r.Atomic := by
  intro r
  have htracked : r.Tracked := ReadSystem.run_tracked engine clock events hclock c
  unfold ReadClient.Tracked at htracked
  constructor
  · intro keys values hpc
    rw [hpc] at htracked
    obtain ⟨m₀, hm₀, hv⟩ := htracked
    unfold ReadClient.Atomic
    rw [hpc]
    exact ⟨m₀, List.mem_of_head? hm₀, hv.symm⟩
  · intro keys count hpc hfree
    rw [hpc] at htracked
    obtain ⟨m₀, m₁, hm₀, hm₁, rfl⟩ := htracked
    unfold ReadClient.Atomic
    rw [hpc]
    rcases hfree m₀ hm₀ m₁ hm₁ with hgone | hsame
    · refine ⟨m₀, List.mem_of_head? hm₀, ?_⟩
      have hnone : (keys.filter m₀.expired).countP m₁.holds = 0 := by
        refine List.countP_eq_zero.2 fun key hkey => ?_
        obtain ⟨hmem, hx⟩ := List.mem_filter.1 hkey
        rw [hgone key hmem hx]
        exact Bool.false_ne_true
      exact (congrArg (List.countP m₀.holds keys + ·) hnone).symm
    · exact ⟨m₁, List.mem_of_getLast? hm₁, countP_of_unchanged hsame⟩

/-- A key without a deadline and one whose deadline is 10. -/
def lapsing : KvEngine :=
  run KvEngine.new
    [⟨Env.steady 0, .set (ascii ['a']) (ascii ['1'])⟩,
      ⟨Env.steady 0, .set (ascii ['b']) (ascii ['2'])⟩,
      ⟨Env.steady 0, .expireAtMs (ascii ['b']) 10⟩]

/-- Between the sections of an `EXISTS` and an `MGET` the live key is overwritten and a millisecond
passes. -/
def calmReads : List ReadSystem.Event :=
  [.existsMany 0 (Env.steady 20) [ascii ['a'], ascii ['b']],
    .mget 1 (Env.steady 20) [ascii ['a'], ascii ['b']],
    .command (Env.steady 20) (.set (ascii ['a']) (ascii ['3'])), .tick, .resume 0 (Env.steady 21),
    .resume 1 (Env.steady 21)]

theorem multiRead_atomic_calmReads :
    let s := (ReadSystem.start lapsing 20).run calmReads
    (s.client 0).pc = .counted [ascii ['a'], ascii ['b']] 1 ∧ (s.client 0).Atomic
      ∧ (s.client 1).pc = .fetched [ascii ['a'], ascii ['b']] [some (ascii ['1']), none]
      ∧ (s.client 1).Atomic := by
  have hclock : ∀ n e, calmReads[n]? = some e →
      ((ReadSystem.start lapsing 20).run (calmReads.take n)).OnClock e := by
    rintro (_ | _ | _ | _ | _ | _ | n) e hn <;> cases hn <;> trivial
  have h0 := multiRead_atomic lapsing 20 calmReads hclock 0
  have h1 := multiRead_atomic lapsing 20 calmReads hclock 1
  have hfree : Undisturbed [ascii ['a'], ascii ['b']]
      (((ReadSystem.start lapsing 20).run calmReads).client 0).moments := by
    unfold Undisturbed
    decide
  exact ⟨rfl, h0.2 [ascii ['a'], ascii ['b']] 1 rfl hfree, rfl,
    h1.1 [ascii ['a'], ascii ['b']] [some (ascii ['1']), none] rfl⟩

/-- The live key is removed and the one that had expired is set between the sections of the
`EXISTS`. -/
def tornReads : List ReadSystem.Event :=
  [.existsMany 0 (Env.steady 20) [ascii ['a'], ascii ['b']],
    .command (Env.steady 20) (.del (ascii ['a'])),
    .command (Env.steady 20) (.set (ascii ['b']) (ascii ['3'])), .resume 0 (Env.steady 20)]

/-- `EXISTS a b` answers 2, and at no moment did both keys exist. -/
theorem existsMany_torn :
    (∀ n e, tornReads[n]? = some e →
      ((ReadSystem.start lapsing 20).run (tornReads.take n)).OnClock e) ∧
    let r := ((ReadSystem.start lapsing 20).run tornReads).client 0
    r.pc = .counted [ascii ['a'], ascii ['b']] 2 ∧ ¬ r.Atomic := by
  refine ⟨?_, rfl, ?_⟩
  · rintro (_ | _ | _ | _ | n) e hn <;> cases hn <;> trivial
  · change ¬ ∃ m ∈ _, List.countP (Moment.holds m) [ascii ['a'], ascii ['b']] = 2
    decide

end FerrumKv
