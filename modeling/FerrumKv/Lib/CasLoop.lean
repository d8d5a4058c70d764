import FerrumKv.Lib.Runs
import Mathlib.Data.List.Perm.Basic
import Mathlib.Logic.Function.Basic

/-!
# Compare-and-swap loops

A word that any number of threads change. An operation computes a new word from the one it sees, or
gives up on it. It is one atomic step, or a loop that loads the word, computes, and swaps if the
word is still the one it loaded; otherwise it goes round with the word that it met there. A swap may
also fail for no reason.

Whatever the schedule, the operations take effect one after another: the history, to which each adds
itself at its last access, is `Legal` (`run_legal`), and what a thread called is in the history or
under way (`run_accounted`).
-/

namespace CasLoop

/-- Where a thread stands in its operation: `swapping` has seen `seen` and is about to put `next` in
its place. -/
inductive Phase (W O : Type*)
  | idle
  | loading (o : O)
  | swapping (o : O) (seen next : W)

/-- An operation that has ended: whose it was, and whether it changed the word or gave up. -/
structure Entry (T O : Type*) where
  thread : T
  op : O
  took : Bool
  deriving DecidableEq, Repr

/-- The word and its threads. What was called and what has ended are history that no step reads. -/
structure State (T W O : Type*) where
  word : W
  phase : T → Phase W O
  called : List (T × O)
  history : List (Entry T O)

inductive Event (T O : Type*)
  | direct (t : T) (o : O)
  | call (t : T) (o : O)
  | access (t : T) (spurious : Bool)

variable {T W O : Type*}

def Phase.pending : Phase W O → List O
  | .idle => []
  | .loading o | .swapping o _ _ => [o]

def Phase.isIdle : Phase W O → Bool
  | .idle => true
  | _ => false

def State.init (w : W) : State T W O := ⟨w, fun _ => .idle, [], []⟩

section Steps

variable [DecidableEq T] [DecidableEq W] (update : O → W → Option W)

namespace State

/-- The operation of `t` ends and leaves `word`. -/
def finish (s : State T W O) (t : T) (o : O) (took : Bool) (word : W) : State T W O :=
  { s with
    word := word
    phase := Function.update s.phase t .idle
    history := s.history ++ [⟨t, o, took⟩] }

/-- The loop computes from the word it sees. -/
def look (s : State T W O) (t : T) (o : O) : State T W O :=
  match update o s.word with
  | none => s.finish t o false s.word
  | some next => { s with phase := Function.update s.phase t (.swapping o s.word next) }

/-- One atomic read-modify-write. -/
def direct (s : State T W O) (t : T) (o : O) : State T W O :=
  match update o s.word with
  | none => s.finish t o false s.word
  | some next => s.finish t o true next

def access (s : State T W O) (t : T) (spurious : Bool) : State T W O :=
  match s.phase t with
  | .idle => s
  | .loading o => s.look update t o
  | .swapping o seen next =>
    if s.word = seen ∧ spurious = false then s.finish t o true next else s.look update t o

def step (s : State T W O) : Event T O → State T W O
  | .direct t o =>
    if (s.phase t).isIdle then { s with called := s.called ++ [(t, o)] }.direct update t o else s
  | .call t o =>
    if (s.phase t).isIdle then
      { s with called := s.called ++ [(t, o)], phase := Function.update s.phase t (.loading o) }
    else s
  | .access t spurious => s.access update t spurious

def run (s : State T W O) (events : List (Event T O)) : State T W O :=
  events.foldl (step update) s

end State

end Steps

/-! ## Operations one after another -/

/-- The operations, one after another, take the word from `w₀` to `w`; one that gave up could make
nothing of the word it found. -/
inductive Legal (update : O → W → Option W) (w₀ : W) : List (Entry T O) → W → Prop
  | start : Legal update w₀ [] w₀
  | took {h : List (Entry T O)} {w w' : W} {o : O} (t : T) (hl : Legal update w₀ h w)
      (hu : update o w = some w') : Legal update w₀ (h ++ [⟨t, o, true⟩]) w'
  | gaveUp {h : List (Entry T O)} {w : W} {o : O} (t : T) (hl : Legal update w₀ h w)
      (hu : update o w = none) : Legal update w₀ (h ++ [⟨t, o, false⟩]) w

/-- What holds at the start and is kept by every operation holds of every legal history. -/
theorem Legal.rule {update : O → W → Option W} {w₀ : W} {I : List (Entry T O) → W → Prop}
    (h0 : I [] w₀)
    (htook : ∀ h w w' t o, I h w → update o w = some w' → I (h ++ [⟨t, o, true⟩]) w')
    (hgave : ∀ h w t o, I h w → update o w = none → I (h ++ [⟨t, o, false⟩]) w)
    {h : List (Entry T O)} {w : W} (hl : Legal update w₀ h w) : I h w := by
  induction hl with
  | start => exact h0
  | took t _ hu ih => exact htook _ _ _ t _ ih hu
  | gaveUp t _ hu ih => exact hgave _ _ t _ ih hu

theorem Legal.last {update : O → W → Option W} {w₀ w : W} {h : List (Entry T O)} {x : Entry T O}
    (hl : Legal update w₀ (h ++ [x]) w) :
    ∃ w', Legal update w₀ h w' ∧ (update x.op w').isSome = x.took := by
  generalize hg : h ++ [x] = g at hl
  cases hl with
  | start => simp at hg
  | took t hbefore hu | gaveUp t hbefore hu =>
    obtain ⟨rfl, he⟩ := List.append_inj' hg rfl
    cases he
    exact ⟨_, hbefore, by rw [hu]; rfl⟩

theorem Legal.at_entry {update : O → W → Option W} {w₀ w : W} {h h' : List (Entry T O)}
    {x : Entry T O} (hl : Legal update w₀ (h ++ x :: h') w) :
    ∃ w', Legal update w₀ h w' ∧ (update x.op w').isSome = x.took := by
  induction h' using List.reverseRecOn generalizing w with
  | nil => exact hl.last
  | append_singleton h' e ih =>
    rw [← List.cons_append, ← List.append_assoc] at hl
    obtain ⟨w', hbefore, -⟩ := hl.last
    exact ih hbefore

@[simp] theorem pending_idle : (Phase.idle : Phase W O).pending = [] := rfl

@[simp] theorem pending_loading (o : O) : (Phase.loading o : Phase W O).pending = [o] := rfl

@[simp] theorem pending_swapping (o : O) (seen next : W) :
    (Phase.swapping o seen next).pending = [o] := rfl

theorem isIdle_iff {p : Phase W O} : p.isIdle = true ↔ p = .idle := by
  cases p <;> simp [Phase.isIdle]

section Runs

variable {update : O → W → Option W} {w₀ : W} {s : State T W O}

/-! ## What a step can do -/

variable [DecidableEq T]

/-- A step is ignored, begins an operation, sees the word, or ends an operation, which a direct one
does as soon as it is called. -/
inductive Moves (update : O → W → Option W) (s : State T W O) : Event T O → State T W O → Prop
  | none (e : Event T O) : Moves update s e s
  | begins (t : T) (o : O) (h : s.phase t = .idle) :
      Moves update s (.call t o)
        { s with called := s.called ++ [(t, o)], phase := Function.update s.phase t (.loading o) }
  | sees {t : T} {o : O} {next : W} (b : Bool) (h : (s.phase t).pending = [o])
      (hu : update o s.word = some next) :
      Moves update s (.access t b)
        { s with phase := Function.update s.phase t (.swapping o s.word next) }
  | takes {t : T} {o : O} {next : W} (b : Bool) (h : (s.phase t).pending = [o])
      (hu : update o s.word = some next) : Moves update s (.access t b) (s.finish t o true next)
  | refuses {t : T} {o : O} (b : Bool) (h : (s.phase t).pending = [o])
      (hu : update o s.word = .none) : Moves update s (.access t b) (s.finish t o false s.word)
  | directTakes {t : T} {o : O} {next : W} (h : s.phase t = .idle)
      (hu : update o s.word = some next) :
      Moves update s (.direct t o)
        ({ s with called := s.called ++ [(t, o)] }.finish t o true next)
  | directRefuses {t : T} {o : O} (h : s.phase t = .idle) (hu : update o s.word = .none) :
      Moves update s (.direct t o)
        ({ s with called := s.called ++ [(t, o)] }.finish t o false s.word)

/-- What a swapping thread is about to write is what it computed from the word it saw. -/
def Computed (update : O → W → Option W) (s : State T W O) : Prop :=
  ∀ t o seen next, s.phase t = .swapping o seen next → update o seen = some next

theorem Moves.look {t : T} {o : O} (b : Bool) (h : (s.phase t).pending = [o]) :
    Moves update s (.access t b) (s.look update t o) := by
  unfold State.look
  split
  · exact .refuses b h ‹_›
  · exact .sees b h ‹_›

section Moves

variable {e : Event T O} {s' : State T W O}

theorem Moves.computed (hm : Moves update s e s') (hc : Computed update s) :
    Computed update s' := by
  have hset : ∀ (t : T) (p : Phase W O), (∀ o seen next, p = .swapping o seen next →
      update o seen = some next) → ∀ t' o seen next,
      Function.update s.phase t p t' = .swapping o seen next → update o seen = some next := by
    intro t p hp t' o seen next h
    by_cases ht : t' = t
    · subst ht
      rw [Function.update_self] at h
      exact hp o seen next h
    · rw [Function.update_of_ne ht] at h
      exact hc t' o seen next h
  cases hm with
  | none => exact hc
  | begins t o _ => exact hset t (.loading o) nofun
  | @sees t o next _ _ hu =>
    refine hset t (.swapping o s.word next) ?_
    intro o' seen next' h
    cases h
    exact hu
  | @takes t | @refuses t | @directTakes t | @directRefuses t => exact hset t .idle nofun

/-- A move ends one operation or none: the one that the thread is about, or a direct one. -/
theorem Moves.history (hm : Moves update s e s') :
    s'.history = s.history ∨ ∃ x : Entry T O, s'.history = s.history ++ [x]
      ∧ (x.op ∈ (s.phase x.thread).pending ∨ e = .direct x.thread x.op) := by
  cases hm with
  | none | begins | sees => exact .inl rfl
  | takes _ h | refuses _ h => exact .inr ⟨_, rfl, .inl (by simp [h])⟩
  | directTakes | directRefuses => exact .inr ⟨_, rfl, .inr rfl⟩

/-- A thread is about what it was about, or about what it called in this step. -/
theorem Moves.pending (hm : Moves update s e s') {t : T} {o : O}
    (ho : o ∈ (s'.phase t).pending) : o ∈ (s.phase t).pending ∨ e = .call t o := by
  cases hm with
  | none => exact .inl ho
  | begins t' =>
    by_cases ht : t = t'
    · subst ht
      simp only [Function.update_self, pending_loading, List.mem_singleton] at ho
      exact .inr (by rw [ho])
    · exact .inl (by simpa [ht] using ho)
  | @sees t' _ _ _ h =>
    by_cases ht : t = t'
    · subst ht
      exact .inl (by simpa [h] using ho)
    · exact .inl (by simpa [ht] using ho)
  | @takes t' | @refuses t' | @directTakes t' | @directRefuses t' =>
    by_cases ht : t = t'
    · subst ht
      simp [State.finish] at ho
    · exact .inl (by simpa [State.finish, ht] using ho)

end Moves

def opsOf (t : T) (l : List (T × O)) : List O := (l.filter (·.1 = t)).map (·.2)

def Entry.call (e : Entry T O) : T × O := (e.thread, e.op)

/-- What a thread called is what it has ended, in its order, and then what it is about. -/
def Accounted (s : State T W O) : Prop :=
  ∀ t, opsOf t s.called = opsOf t (s.history.map Entry.call) ++ (s.phase t).pending

theorem opsOf_append (t : T) (l l' : List (T × O)) :
    opsOf t (l ++ l') = opsOf t l ++ opsOf t l' := by
  simp [opsOf]

theorem opsOf_single (t t' : T) (o : O) :
    opsOf t [(t', o)] = if t = t' then [o] else [] := by
  by_cases h : t = t'
  · subst h
    simp [opsOf]
  · simp [opsOf, h, Ne.symm h]

theorem Accounted.finish (h : Accounted s) {t : T} {o : O} (hp : (s.phase t).pending = [o])
    (took : Bool) (w : W) : Accounted (s.finish t o took w) := by
  intro t'
  simp only [State.finish, List.map_append, List.map_cons, List.map_nil, opsOf_append]
  rw [h t']
  by_cases ht : t' = t
  · subst ht
    simp [hp, Entry.call, opsOf_single]
  · simp [Entry.call, opsOf_single, ht]

theorem Accounted.begin (h : Accounted s) {t : T} {o : O} (hp : s.phase t = .idle) :
    Accounted { s with
      called := s.called ++ [(t, o)], phase := Function.update s.phase t (.loading o) } := by
  intro t'
  simp only [opsOf_append, opsOf_single]
  rw [h t']
  by_cases ht : t' = t
  · subst ht
    simp [hp]
  · simp [ht]

/-- Once nothing is under way, the history lists what was called, each thread's part in its
order. -/
theorem perm_of_idle [DecidableEq O] (h : Accounted s) (hidle : ∀ t, s.phase t = .idle) :
    (s.history.map Entry.call).Perm s.called := by
  rw [List.perm_iff_count]
  rintro ⟨t, o⟩
  have hcount : ∀ l : List (T × O), l.count (t, o) = (opsOf t l).count o := by
    intro l
    induction l with
    | nil => rfl
    | cons p l ih =>
      obtain ⟨t', o'⟩ := p
      by_cases ht : t' = t
      · subst ht
        by_cases ho : o' = o
        · subst ho
          simpa [opsOf] using ih
        · simpa [opsOf, ho, List.count_cons, Prod.ext_iff] using ih
      · simpa [opsOf, ht, List.count_cons, Prod.ext_iff] using ih
  rw [hcount, hcount, h t, hidle t, Phase.pending, List.append_nil]

variable [DecidableEq W]

theorem step_moves (hc : Computed update s) (e : Event T O) : Moves update s e (s.step update e) := by
  cases e with
  | call t o =>
    simp only [State.step]
    split_ifs with h
    · exact .begins t o (isIdle_iff.1 h)
    · exact .none _
  | access t b =>
    simp only [State.step, State.access]
    split
    · exact .none _
    · rename_i o hp
      exact .look b (by rw [hp]; rfl)
    · rename_i o seen next hp
      have hpend : (s.phase t).pending = [o] := by rw [hp]; rfl
      split_ifs with hw
      · exact .takes b hpend (by rw [hw.1]; exact hc t o seen next hp)
      · exact .look b hpend
  | direct t o =>
    simp only [State.step, State.direct]
    split_ifs with h
    · split
      · exact .directRefuses (isIdle_iff.1 h) ‹_›
      · exact .directTakes (isIdle_iff.1 h) ‹_›
    · exact .none _

/-- The invariant rule: what every move keeps holds after every run. -/
theorem run_rule {I : State T W O → Prop}
    (hm : ∀ (s s' : State T W O) e, Moves update s e s' → I s → I s') (h0 : I (.init w₀))
    (events : List (Event T O)) : I ((State.init w₀).run update events) := by
  have hinit : Computed update (.init w₀ : State T W O) := fun t o seen next h => by cases h
  refine (Runs.foldl_invariant (I := fun s => Computed update s ∧ I s) ?_ events ⟨hinit, h0⟩).2
  rintro s e ⟨hc, hi⟩
  have hstep := step_moves hc e
  exact ⟨hstep.computed hc, hm _ _ e hstep hi⟩

/-- What changes the word only by its steps runs it. -/
theorem exists_run {S E : Type*} {f : S → E → S} {g : S → State T W O}
    (h : ∀ s e, g (f s e) = g s ∨ ∃ x, g (f s e) = (g s).step update x) :
    ∀ (es : List E) (s : S), ∃ xs, g (es.foldl f s) = (g s).run update xs
  | [], _ => ⟨[], rfl⟩
  | e :: es, s => by
    obtain ⟨xs, hxs⟩ := exists_run h es (f s e)
    rcases h s e with he | ⟨x, he⟩
    · exact ⟨xs, by rw [List.foldl_cons, hxs, he]⟩
    · exact ⟨x :: xs, by rw [List.foldl_cons, hxs, he]; rfl⟩

/-- Whatever the schedule, the operations that have ended took effect one after another. -/
theorem run_legal (update : O → W → Option W) (w₀ : W) (events : List (Event T O)) :
    Legal update w₀ ((State.init w₀).run update events).history
      ((State.init w₀).run update events).word := by
  refine run_rule (I := fun s => Legal update w₀ s.history s.word) ?_ .start events
  intro s s' e hm hl
  cases hm with
  | none | begins | sees => exact hl
  | takes _ _ hu | directTakes _ hu => exact hl.took _ hu
  | refuses _ _ hu | directRefuses _ hu => exact hl.gaveUp _ hu

theorem run_accounted (update : O → W → Option W) (w₀ : W) (events : List (Event T O)) :
    Accounted ((State.init w₀).run update events) := by
  refine run_rule (I := Accounted) ?_ (fun t => rfl) events
  intro s s' e hm h
  cases hm with
  | none => exact h
  | begins t o hp => exact h.begin hp
  | @sees t o _ _ hp =>
    intro t'
    by_cases ht : t' = t
    · subst ht
      simp only [Function.update_self]
      rw [h t', hp]
      rfl
    · simp only [Function.update_of_ne ht]
      exact h t'
  | takes _ hp | refuses _ hp => exact h.finish hp _ _
  | @directTakes t o next hp | @directRefuses t o hp =>
    have hbegun := (h.begin (o := o) hp).finish (t := t) (o := o) (by simp)
    simpa only [State.finish, Function.update_idem] using hbegun _ _

end Runs

end CasLoop
