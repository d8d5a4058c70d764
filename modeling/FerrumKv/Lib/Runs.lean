import Mathlib.Tactic

/-!
# Runs and their initial parts

A run is a fold of a step function over a list of inputs. `foldl_take_succ` says what one more
input does, and `forall_take` is the invariant rule: what holds at the start and is kept by every
step of the run holds after every initial part of it.
-/

namespace Runs

variable {σ α : Type*} {step : σ → α → σ} {s : σ} {inputs : List α}

theorem foldl_take_succ {n : ℕ} {a : α} (h : inputs[n]? = some a) :
    (inputs.take (n + 1)).foldl step s = step ((inputs.take n).foldl step s) a := by
  rw [List.take_add_one, h, Option.toList_some, List.foldl_append, List.foldl_cons, List.foldl_nil]

theorem forall_take {I : σ → Prop} (h0 : I s)
    (hstep : ∀ n a, inputs[n]? = some a → I ((inputs.take n).foldl step s) →
      I (step ((inputs.take n).foldl step s) a)) :
    ∀ n, I ((inputs.take n).foldl step s)
  | 0 => h0
  | n + 1 => by
    have ih := forall_take h0 hstep n
    cases hn : inputs[n]? with
    | none =>
      rw [List.take_add_one, hn, Option.toList_none, List.append_nil]
      exact ih
    | some a =>
      rw [foldl_take_succ hn]
      exact hstep n a hn ih

theorem foldl_take_drop (n : ℕ) :
    (inputs.drop n).foldl step ((inputs.take n).foldl step s) = inputs.foldl step s := by
  rw [← List.foldl_append, List.take_append_drop]

/-- What does not hold at the start and does at the end begins to hold at a step. -/
theorem exists_turn {P : σ → Prop} (h0 : ¬ P s) (h : P (inputs.foldl step s)) :
    ∃ n a, inputs[n]? = some a ∧ ¬ P ((inputs.take n).foldl step s)
      ∧ P (step ((inputs.take n).foldl step s) a) := by
  by_contra hnone
  have hnever := @forall_take _ _ step s inputs (¬ P ·) h0
    (fun n a ha hn hp => hnone ⟨n, a, ha, hn, hp⟩) inputs.length
  rw [List.take_length] at hnever
  exact hnever h

/-- What every step keeps holds at the end of every run. -/
theorem foldl_invariant {I : σ → Prop} (hstep : ∀ s a, I s → I (step s a)) :
    ∀ (inputs : List α) {s : σ}, I s → I (inputs.foldl step s)
  | [], _, h => h
  | a :: inputs, s, h => foldl_invariant hstep inputs (hstep s a h)

/-- Where every step keeps an invariant and a step of one's own takes from what one has left, a run
leaves so much less as it has steps of one's own. -/
theorem foldl_countdown {I : σ → Prop} {m : σ → ℕ} {p : α → Bool} :
    ∀ (inputs : List α) {s : σ}, I s →
      (∀ a ∈ inputs, ∀ s, I s → I (step s a) ∧ m (step s a) ≤ m s - (p a).toNat) →
        I (inputs.foldl step s) ∧ m (inputs.foldl step s) ≤ m s - inputs.countP p
  | [], _, h, _ => ⟨h, Nat.le_refl _⟩
  | a :: inputs, s, h, hstep => by
    obtain ⟨hi, hle⟩ := hstep a List.mem_cons_self s h
    obtain ⟨hi', hle'⟩ := foldl_countdown inputs hi fun b hb => hstep b (List.mem_cons_of_mem a hb)
    refine ⟨hi', hle'.trans ?_⟩
    rw [List.countP_cons]
    cases ha : p a <;> simp only [ha, Bool.toNat_true, Bool.toNat_false, if_true, if_false,
      Bool.false_eq_true] at hle ⊢ <;> omega

end Runs
