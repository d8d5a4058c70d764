import FerrumKv.Locks
import FerrumKv.Lib.Runs

/-!
# Deadlocks of the engine

Every entry point takes its locks in one order, but for the indexes: a switch to SIEVE holds `sieve`
while it takes `ac`, a switch to AdaptiveClimb the other way round, and both run under the shared
keyspace lock. While no two switches to different families overlap, no threads wait in a cycle and
some call can always go on (`no_deadlock`); two that overlap can block each other for good
(`switches_deadlock`).
-/

namespace FerrumKv

open LockOrder

namespace Locks

/-! ## Two orders -/

/-- The order of the locks, with the places of the two indexes left open. -/
def rankWith (sieve ac : ℕ) : LockId → ℕ
  | .store => 0
  | .eviction => 1
  | .sieve => sieve
  | .ac => ac
  | .syncLock => 4
  | .rewriteLock => 5
  | .inner => 6
  | .syncFile => 7
  | .delta => 8

def sieveFirst : LockId → ℕ := rankWith 2 3

def acFirst : LockId → ℕ := rankWith 3 2

theorem code_sieveFirst (c : EntryPoint) (h : c.toAc = false) :
    c.code.ascends sieveFirst 0 = true := by
  cases c with
  | setEvictionConfig new old =>
    revert h
    cases new <;> cases old <;> decide
  | _ => rfl

theorem code_acFirst (c : EntryPoint) (h : c.toSieve = false) :
    c.code.ascends acFirst 0 = true := by
  cases c with
  | setEvictionConfig new old =>
    revert h
    cases new <;> cases old <;> decide
  | _ => rfl

theorem toSieve_of_toAc {c : EntryPoint} (h : c.toAc = true) : c.toSieve = false := by
  cases c with
  | setEvictionConfig new old =>
    revert h
    cases new <;> cases old <;> decide
  | _ => rfl

end Locks

namespace Threads

open Locks

variable {T : Type*}

/-! ## The invariant -/

/-- A thread keeps either order, but for a switch, which keeps only its own. -/
structure Kept (x : Thread EntryPoint LockId) : Prop where
  sieveFirst : (∀ c, x.call = some c → c.toAc = false) → x.Ordered sieveFirst
  acFirst : (∀ c, x.call = some c → c.toSieve = false) → x.Ordered acFirst

structure Inv (s : Threads T) : Prop where
  kept : ∀ t, Kept (s t)
  apart : ∀ t u c d, (s t).call = some c → (s u).call = some d →
    ¬(c.toSieve = true ∧ d.toAc = true)

/-- One of the two orders is kept by all threads. -/
theorem Inv.ordered {s : Threads T} (h : Inv s) : ∃ rank, ∀ t, (s t).Ordered rank := by
  by_cases hac : ∃ u d, (s u).call = some d ∧ d.toAc = true
  · obtain ⟨u, d, hu, hd⟩ := hac
    refine ⟨Locks.acFirst, fun t => (h.kept t).acFirst fun c hc => ?_⟩
    by_contra hne
    exact h.apart t u c d hc hu ⟨by simpa using hne, hd⟩
  · refine ⟨Locks.sieveFirst, fun t => (h.kept t).sieveFirst fun c hc => ?_⟩
    by_contra hne
    exact hac ⟨t, c, hc, by simpa using hne⟩

theorem inv_start : Inv (start : Threads T) := by
  have hidle : ∀ rank, Thread.Ordered rank ({} : Thread EntryPoint LockId) := fun _ =>
    ⟨rfl, fun _ => rfl⟩
  exact ⟨fun _ => ⟨fun _ => hidle _, fun _ => hidle _⟩, fun _ _ _ _ hc => nomatch hc⟩

theorem Kept.start {x : Thread EntryPoint LockId} (h : Kept x) (hx : x.call = none)
    (c : EntryPoint) : Kept { call := some c, held := x.held, todo := [.prog c.code] } := by
  have hnone : ∀ {P : EntryPoint → Prop} (d : EntryPoint), x.call = some d → P d := fun d hd => by
    rw [hx] at hd
    cases hd
  exact ⟨fun hc => (h.sieveFirst hnone).start hx c (code_sieveFirst c (hc c rfl)),
    fun hc => (h.acFirst hnone).start hx c (code_acFirst c (hc c rfl))⟩

theorem Kept.ordered {x : Thread EntryPoint LockId} (h : Kept x) : ∃ rank, x.Ordered rank := by
  by_cases hac : ∃ c, x.call = some c ∧ c.toAc = true
  · obtain ⟨c, hc, ht⟩ := hac
    refine ⟨Locks.acFirst, h.acFirst fun d hd => ?_⟩
    obtain rfl := Option.some.inj (hc.symm.trans hd)
    exact toSieve_of_toAc ht
  · refine ⟨Locks.sieveFirst, h.sieveFirst fun c hc => ?_⟩
    by_contra hne
    exact hac ⟨c, hc, by simpa using hne⟩

theorem Kept.advance {x : Thread EntryPoint LockId} (h : Kept x) (b : Bool) :
    Kept (x.advance b) := by
  rcases x.advance_call b with ⟨hnil, he⟩ | he
  · obtain ⟨rank, ho⟩ := h.ordered
    have hheld : x.held = [] := by
      have hs := ho.stacked
      rw [hnil] at hs
      exact hs.held_nil
    have hidle : ∀ rank, ({ x with call := none } : Thread EntryPoint LockId).Ordered rank :=
      fun rank => ⟨by rw [hnil, hheld]; rfl, fun _ => hnil⟩
    rw [he]
    exact ⟨fun _ => hidle _, fun _ => hidle _⟩
  · exact ⟨fun hc => (h.sieveFirst (he ▸ hc)).advance b, fun hc => (h.acFirst (he ▸ hc)).advance b⟩

section Step

variable [Fintype T] [DecidableEq T] {s : Threads T}

theorem inv_call (h : Inv s) {t : T} {c : EntryPoint} (ha : Apart s (.call t c)) :
    Inv (step EntryPoint.code s (.call t c)) := by
  simp only [step]
  split
  · rename_i hidle
    have hnone : (s t).call = none := Option.isNone_iff_eq_none.1 hidle
    refine ⟨fun u => ?_, fun u v d e hu hv => ?_⟩
    · by_cases hut : u = t
      · rw [hut, Function.update_self]
        exact (h.kept t).start hnone c
      · rw [Function.update_of_ne hut]
        exact h.kept u
    · by_cases hut : u = t <;> by_cases hvt : v = t
      · rw [hut, Function.update_self] at hu
        rw [hvt, Function.update_self] at hv
        obtain rfl := Option.some.inj hu
        obtain rfl := Option.some.inj hv
        rintro ⟨hs, hc⟩
        rw [toSieve_of_toAc hc] at hs
        cases hs
      · rw [hut, Function.update_self] at hu
        rw [Function.update_of_ne hvt] at hv
        obtain rfl := Option.some.inj hu
        exact (ha v e hv).1
      · rw [Function.update_of_ne hut] at hu
        rw [hvt, Function.update_self] at hv
        obtain rfl := Option.some.inj hv
        exact fun hboth => (ha u d hu).2 hboth.symm
      · rw [Function.update_of_ne hut] at hu
        rw [Function.update_of_ne hvt] at hv
        exact h.apart u v d e hu hv
  · exact h

theorem call_of_step {t u : T} {b : Bool} {c : EntryPoint}
    (hc : (step EntryPoint.code s (.step t b) u).call = some c) : (s u).call = some c := by
  simp only [step] at hc
  split at hc
  · by_cases hut : u = t
    · rw [hut, Function.update_self] at hc
      rw [hut]
      rcases (s t).advance_call b with ⟨-, he⟩ | he <;> rw [he] at hc
      · cases hc
      · exact hc
    · rw [Function.update_of_ne hut] at hc
      exact hc
  · exact hc

theorem inv_step (h : Inv s) : ∀ {e : Event T EntryPoint}, Apart s e →
    Inv (step EntryPoint.code s e)
  | .call _ _, ha => inv_call h ha
  | .step t b, _ => by
    refine ⟨fun u => ?_, fun u v c d hc hd => h.apart u v c d (call_of_step hc) (call_of_step hd)⟩
    simp only [step]
    split
    · by_cases hut : u = t
      · rw [hut, Function.update_self]
        exact (h.kept t).advance b
      · rw [Function.update_of_ne hut]
        exact h.kept u
    · exact h.kept u

end Step

/-- While no two switches to different index families overlap, no threads wait in a cycle, and some
call can always go on. -/
theorem no_deadlock [Fintype T] [DecidableEq T] (events : List (Event T EntryPoint))
    (hapart : ∀ n e, events[n]? = some e → Apart ((start : Threads T).run (events.take n)) e)
    (n : ℕ) :
    ¬Deadlocked ((start : Threads T).run (events.take n))
      ∧ ∀ t, ((start : Threads T).run (events.take n) t).call ≠ none →
        ∃ u, ((start : Threads T).run (events.take n) u).call ≠ none
          ∧ Enabled ((start : Threads T).run (events.take n)) u := by
  have h : Inv ((start : Threads T).run (events.take n)) :=
    Runs.forall_take inv_start (fun n e hn hi => inv_step hi (hapart n e hn)) n
  obtain ⟨rank, ho⟩ := h.ordered
  exact ⟨not_deadlocked ho, fun _ ht => exists_enabled ho ht⟩

/-- Two switches, each up to its second index lock. -/
def switches : List (Event (Fin 2) EntryPoint) :=
  [.call 0 (.setEvictionConfig .sieveAll .none), .call 1 (.setEvictionConfig .acAll .none)]
    ++ List.replicate 3 (.step 0 true) ++ List.replicate 3 (.step 1 true)

/-- Thread `0` holds `sieve` and waits for `ac`, thread `1` the other way round, and nothing that
happens after that changes it. -/
theorem switches_deadlock :
    Deadlocked ((start : Threads (Fin 2)).run switches)
      ∧ ∀ events, ((start : Threads (Fin 2)).run switches).run events
        = (start : Threads (Fin 2)).run switches := by
  have h01 : WaitsFor ((start : Threads (Fin 2)).run switches) 0 1 :=
    ⟨(.ac, .exclusive), rfl, (.ac, .exclusive), by decide, rfl⟩
  have h10 : WaitsFor ((start : Threads (Fin 2)).run switches) 1 0 :=
    ⟨(.sieve, .exclusive), rfl, (.sieve, .exclusive), by decide, rfl⟩
  refine ⟨⟨0, .tail (.single h01) h10⟩, fun events => ?_⟩
  have hstuck : ∀ e, step EntryPoint.code ((start : Threads (Fin 2)).run switches) e
      = (start : Threads (Fin 2)).run switches := by
    rintro (⟨t, c⟩ | ⟨t, b⟩)
    · refine if_neg ?_
      revert t
      decide
    · refine if_neg ?_
      revert t
      decide
  induction events with
  | nil => rfl
  | cons e events ih =>
    show run (step EntryPoint.code _ e) events = _
    rw [hstuck e]
    exact ih

/-- A switch to SIEVE holds both indexes while a `SET` waits for the keyspace. -/
def switchAndSet : List (Event (Fin 2) EntryPoint) :=
  [.call 0 (.setEvictionConfig .sieveAll .none), .step 0 true, .step 0 true, .call 1 .set,
    .step 1 true, .step 1 true, .step 0 true, .step 0 true]

theorem no_deadlock_switchAndSet :
    WaitsFor ((start : Threads (Fin 2)).run switchAndSet) 1 0
      ∧ ¬Deadlocked ((start : Threads (Fin 2)).run switchAndSet) := by
  have hapart : ∀ n e, switchAndSet[n]? = some e →
      Apart ((start : Threads (Fin 2)).run (switchAndSet.take n)) e := by
    rintro (_ | _ | _ | _ | _ | _ | _ | _ | n) e he <;> cases he
    all_goals first
      | trivial
      | (intro u d hd; exact absurd (show (none : Option EntryPoint) = some d from hd) nofun)
      | (intro u d hd; exact ⟨nofun, nofun⟩)
  refine ⟨⟨(.store, .exclusive), rfl, (.store, .shared), by decide, rfl⟩, ?_⟩
  exact (no_deadlock switchAndSet hapart 8).1

end Threads

end FerrumKv
