import Mathlib.Logic.Relation
import Mathlib.Data.Fintype.Basic
import Mathlib.Data.Finset.Max
import Mathlib.Tactic

/-!
# Locks taken in order

Programs that take locks by scoped guards, run by any number of threads under any scheduler. A thread
waits for another when the lock its next guard takes is held by the other. If every guard takes a
lock that ranks above all those around it, no thread ever waits in a cycle (`not_deadlocked`) and
some call can always go on (`exists_enabled`).
-/

namespace LockOrder

/-- How a guard takes its lock: with others of its kind, or alone. -/
inductive Mode
  | shared
  | exclusive
  deriving DecidableEq, Repr

/-- What code does with locks: branches and loops go either way, and a guard holds its lock until
the end of its body. -/
inductive Prog (L : Type*)
  | skip
  | seq (p q : Prog L)
  | choice (p q : Prog L)
  | loop (p : Prog L)
  | guard (l : L) (mode : Mode) (body : Prog L)

/-- What a thread has left to do. -/
inductive Task (L : Type*)
  | prog (p : Prog L)
  | release (l : L)

/-- A thread: the call it is in, the locks it holds, the last one first, and the rest of its code. -/
structure Thread (C L : Type*) where
  call : Option C := none
  held : List (L × Mode) := []
  todo : List (Task L) := []

inductive Event (T C : Type*)
  | call (t : T) (c : C)
  | step (t : T) (b : Bool)

namespace Prog

variable {L : Type*}

/-- A branch that may not be taken. -/
def opt (p : Prog L) : Prog L := .choice p .skip

def block (ps : List (Prog L)) : Prog L := ps.foldr .seq .skip

/-- Takes the lock and lets it go. -/
def lock (l : L) : Prog L := .guard l .exclusive .skip

/-- Every guard takes a lock that ranks `n` at least, and above the guards around it. -/
def ascends (rank : L → ℕ) : ℕ → Prog L → Bool
  | _, .skip => true
  | n, .seq p q => p.ascends rank n && q.ascends rank n
  | n, .choice p q => p.ascends rank n && q.ascends rank n
  | n, .loop p => p.ascends rank n
  | n, .guard l _ p => decide (n ≤ rank l) && p.ascends rank (rank l + 1)

end Prog

variable {T C L : Type*}

namespace Thread

def wants (x : Thread C L) : Option (L × Mode) :=
  match x.todo with
  | .prog (.guard l mode _) :: _ => some (l, mode)
  | _ => none

/-- The next step; `b` is the way of a branch or a loop. -/
def advance [DecidableEq L] (x : Thread C L) (b : Bool) : Thread C L :=
  match x.todo with
  | [] => { x with call := none }
  | .prog .skip :: k => { x with todo := k }
  | .prog (.seq p q) :: k => { x with todo := .prog p :: .prog q :: k }
  | .prog (.choice p q) :: k => { x with todo := .prog (if b then p else q) :: k }
  | .prog (.loop p) :: k => { x with todo := if b then .prog p :: .prog (.loop p) :: k else k }
  | .prog (.guard l mode p) :: k =>
    { x with held := (l, mode) :: x.held, todo := .prog p :: .release l :: k }
  | .release l :: k => { x with held := x.held.eraseP (·.1 = l), todo := k }

end Thread

/-- No guard in force excludes one of this mode. -/
def Free (s : T → Thread C L) (l : L) (mode : Mode) : Prop :=
  ∀ u, ∀ h ∈ (s u).held, h.1 = l → mode = .shared ∧ h.2 = .shared

instance [Fintype T] [DecidableEq L] (s : T → Thread C L) (l : L) (mode : Mode) :
    Decidable (Free s l mode) :=
  inferInstanceAs (Decidable (∀ u, ∀ h ∈ (s u).held, h.1 = l → mode = .shared ∧ h.2 = .shared))

/-- The next step of the thread is not blocked. -/
def Enabled (s : T → Thread C L) (t : T) : Prop :=
  match (s t).wants with
  | none => True
  | some r => Free s r.1 r.2

instance [Fintype T] [DecidableEq L] (s : T → Thread C L) (t : T) : Decidable (Enabled s t) :=
  match h : (s t).wants with
  | none => isTrue (by simp only [Enabled, h])
  | some r => decidable_of_iff (Free s r.1 r.2) (by simp only [Enabled, h])

/-- A call that a thread without one starts, or a step that a thread makes unless it is blocked. -/
def step [Fintype T] [DecidableEq T] [DecidableEq L] (code : C → Prog L) (s : T → Thread C L) :
    Event T C → T → Thread C L
  | .call t c =>
    if (s t).call.isNone then
      Function.update s t { call := some c, held := (s t).held, todo := [.prog (code c)] }
    else s
  | .step t b => if Enabled s t then Function.update s t ((s t).advance b) else s

/-- The next guard of `t` takes a lock that `u` holds, in whatever mode: a reader may also have to
wait behind a writer that waits for a reader. -/
def WaitsFor (s : T → Thread C L) (t u : T) : Prop :=
  ∃ r, (s t).wants = some r ∧ ∃ h ∈ (s u).held, h.1 = r.1

/-- Some threads wait in a cycle. -/
def Deadlocked (s : T → Thread C L) : Prop := ∃ t, Relation.TransGen (WaitsFor s) t t

section Ordered

variable (rank : L → ℕ)

/-- The rest of the code lets go of the held locks, the last one first, and takes only locks that
rank above those held at the time. -/
def Stacked : List (L × Mode) → List (Task L) → Prop
  | held, [] => held = []
  | held, .prog p :: k =>
    (∃ n, p.ascends rank n = true ∧ ∀ h ∈ held, rank h.1 < n) ∧ Stacked held k
  | held, .release l :: k => ∃ mode rest, held = (l, mode) :: rest ∧ Stacked rest k

structure Thread.Ordered (x : Thread C L) : Prop where
  stacked : Stacked rank x.held x.todo
  idle : x.call = none → x.todo = []

variable {rank}

theorem Stacked.held_nil {held : List (L × Mode)} (h : Stacked rank held []) : held = [] := h

theorem Stacked.prog_of {held : List (L × Mode)} {p : Prog L} {k : List (Task L)} {n : ℕ}
    (hp : p.ascends rank n = true) (hn : ∀ h ∈ held, rank h.1 < n) (hk : Stacked rank held k) :
    Stacked rank held (.prog p :: k) := ⟨⟨n, hp, hn⟩, hk⟩

namespace Thread

theorem Ordered.held_of_idle {x : Thread C L} (h : x.Ordered rank) (hx : x.call = none) :
    x.held = [] := by
  have hs := h.stacked
  rw [h.idle hx] at hs
  exact hs.held_nil

theorem Ordered.start {x : Thread C L} (h : x.Ordered rank) (hx : x.call = none) (c : C)
    {p : Prog L} (hp : p.ascends rank 0 = true) :
    Ordered rank { call := some c, held := x.held, todo := [.prog p] } := by
  rw [h.held_of_idle hx]
  exact ⟨Stacked.prog_of hp (by simp) rfl, nofun⟩

theorem Ordered.advance [DecidableEq L] {x : Thread C L} (h : x.Ordered rank) (b : Bool) :
    (x.advance b).Ordered rank := by
  obtain ⟨call, held, todo⟩ := x
  obtain ⟨hs, hidle⟩ := h
  have hcall : todo ≠ [] → call ≠ none := fun hne hc => hne (hidle hc)
  rcases todo with _ | ⟨task, k⟩
  · exact ⟨hs, fun _ => rfl⟩
  have hbusy : ∀ {todo' : List (Task L)}, call = none → todo' = [] := fun hc =>
    absurd hc (hcall (List.cons_ne_nil task k))
  rcases task with p | l
  · obtain ⟨⟨n, hp, hn⟩, hk⟩ := hs
    rcases p with _ | ⟨p, q⟩ | ⟨p, q⟩ | p | ⟨l, mode, p⟩
    · exact ⟨hk, hbusy⟩
    · simp only [Prog.ascends, Bool.and_eq_true] at hp
      exact ⟨Stacked.prog_of hp.1 hn (Stacked.prog_of hp.2 hn hk), hbusy⟩
    · simp only [Prog.ascends, Bool.and_eq_true] at hp
      refine ⟨Stacked.prog_of ?_ hn hk, hbusy⟩
      cases b
      · exact hp.2
      · exact hp.1
    · refine ⟨?_, hbusy⟩
      cases b
      · exact hk
      · exact Stacked.prog_of hp hn (Stacked.prog_of hp hn hk)
    · simp only [Prog.ascends, Bool.and_eq_true, decide_eq_true_eq] at hp
      refine ⟨Stacked.prog_of hp.2 ?_ ⟨mode, held, rfl, hk⟩, hbusy⟩
      intro h hh
      rcases List.mem_cons.1 hh with rfl | hh
      · exact Nat.lt_succ_self _
      · have hlt := hn h hh
        omega
  · obtain ⟨mode, rest, rfl, hk⟩ := hs
    have hpop : ((l, mode) :: rest).eraseP (fun h => decide (h.1 = l)) = rest :=
      List.eraseP_cons_of_pos (by simp)
    refine ⟨?_, hbusy⟩
    simp only [Thread.advance, hpop]
    exact hk

theorem advance_call [DecidableEq L] (x : Thread C L) (b : Bool) :
    x.todo = [] ∧ x.advance b = { x with call := none } ∨ (x.advance b).call = x.call := by
  obtain ⟨call, held, todo⟩ := x
  rcases todo with _ | ⟨task, k⟩
  · exact .inl ⟨rfl, rfl⟩
  · right
    rcases task with p | l
    · cases p <;> rfl
    · rfl

theorem Ordered.rank_lt {x : Thread C L} (h : x.Ordered rank) {r : L × Mode}
    (hr : x.wants = some r) : ∀ g ∈ x.held, rank g.1 < rank r.1 := by
  obtain ⟨call, held, todo⟩ := x
  have hs := h.stacked
  simp only [wants] at hr
  split at hr
  · obtain rfl := Option.some.inj hr
    obtain ⟨⟨n, hp, hn⟩, -⟩ := hs
    simp only [Prog.ascends, Bool.and_eq_true, decide_eq_true_eq] at hp
    intro g hg
    have hlt := hn g hg
    exact lt_of_lt_of_le hlt hp.1
  · cases hr

end Thread

variable {s : T → Thread C L}

/-- Along a chain of waiting threads, the locks rank higher and higher. -/
theorem rank_le_of_waits (h : ∀ t, (s t).Ordered rank) {t u : T}
    (hw : Relation.TransGen (WaitsFor s) t u) :
    ∃ r, (s t).wants = some r ∧ ∃ g ∈ (s u).held, rank r.1 ≤ rank g.1 := by
  induction hw with
  | single hw =>
    obtain ⟨r, hr, g, hg, he⟩ := hw
    exact ⟨r, hr, g, hg, by rw [he]⟩
  | tail _ hw ih =>
    obtain ⟨r, hr, g, hg, hle⟩ := ih
    obtain ⟨r', hr', g', hg', he⟩ := hw
    have hlt := (h _).rank_lt hr' g hg
    refine ⟨r, hr, g', hg', ?_⟩
    rw [he]
    omega

/-- Ordered threads never wait in a cycle. -/
theorem not_deadlocked (h : ∀ t, (s t).Ordered rank) : ¬Deadlocked s := by
  rintro ⟨t, hw⟩
  obtain ⟨r, hr, g, hg, hle⟩ := rank_le_of_waits h hw
  have hlt := (h t).rank_lt hr g hg
  omega

theorem exists_holder (h : ∀ t, (s t).Ordered rank) {t : T} (ht : ¬Enabled s t) :
    ∃ r, (s t).wants = some r ∧ ∃ u, (s u).call ≠ none ∧ ∃ g ∈ (s u).held, g.1 = r.1 := by
  unfold Enabled at ht
  split at ht
  · exact absurd trivial ht
  · rename_i r hr
    simp only [Free, not_forall] at ht
    obtain ⟨u, g, hg, he, -⟩ := ht
    refine ⟨r, hr, u, fun hc => ?_, g, hg, he⟩
    rw [(h u).held_of_idle hc] at hg
    cases hg

/-- While some thread is in a call, some call can go on. -/
theorem exists_enabled [Fintype T] (h : ∀ t, (s t).Ordered rank) {t : T}
    (ht : (s t).call ≠ none) : ∃ u, (s u).call ≠ none ∧ Enabled s u := by
  classical
  by_contra hno
  have hblocked : ∀ u, (s u).call ≠ none → ¬Enabled s u := fun u hu he => hno ⟨u, hu, he⟩
  let wanted : T → ℕ := fun u => ((s u).wants.map fun r => rank r.1).getD 0
  obtain ⟨u, hu, hmax⟩ := (Finset.univ.filter fun u => (s u).call ≠ none).exists_max_image wanted
    ⟨t, by simpa using ht⟩
  have hu' : (s u).call ≠ none := by simpa using hu
  obtain ⟨r, hr, v, hv, g, hg, he⟩ := exists_holder h (hblocked u hu')
  obtain ⟨r', hr', -⟩ := exists_holder h (hblocked v hv)
  have hlt := (h v).rank_lt hr' g hg
  have hle := hmax v (by simpa using hv)
  simp only [wanted, hr, hr', Option.map_some, Option.getD_some] at hle
  rw [he] at hlt
  omega

end Ordered

end LockOrder
