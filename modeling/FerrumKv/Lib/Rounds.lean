import FerrumKv.Lib.Cyclic
import Mathlib.Data.Nat.Log
import Mathlib.Tactic

/-!
# Rounds over a ring that shrinks under its hand

A round looks at the first `n` elements of a ring, takes the bad ones out and moves the hand behind
them by the places they had before. Elements that move down are skipped then, no more of them than
were taken out (`round_of_order`). So a pass over the ring leaves at most half of its bad elements
(`halve`), and a number of passes that is logarithmic in them leaves none (`clear`).
-/

namespace Rounds

variable {α : Type*} {bad : α → Bool} {n : ℕ} {l l' : List α}

/-- One round: the first `n` elements are looked at, the bad ones are taken out and the others go to
the end, and at most as many more are skipped as were taken out. -/
def Round (bad : α → Bool) (n : ℕ) (l l' : List α) : Prop :=
  ∃ d ≤ (l.take n).countP bad,
    l' = (l.drop n ++ (l.take n).filter fun a => !bad a).rotate d

/-- Where elements before the hand are dropped and the hand keeps its place, it skips as many as
were dropped there. -/
theorem order_filter_skip (keep : α → Bool) {hand : ℕ} (h : hand ≤ l.length) :
    Cyclic.order (hand % (l.filter keep).length) (l.filter keep)
      = ((Cyclic.order hand l).filter keep).rotate ((l.take hand).countP fun a => !keep a) := by
  have hsplit : ((l.take hand).filter keep).length + (l.take hand).countP (fun a => !keep a)
      = hand := by
    have hcount := List.length_eq_countP_add_countP keep (l := l.take hand)
    rw [List.length_take, Nat.min_eq_left h] at hcount
    rw [← List.countP_eq_length_filter]
    simpa using hcount.symm
  have hle : ((l.take hand).filter keep).length ≤ (l.filter keep).length :=
    ((List.take_sublist hand l).filter keep).length_le
  by_cases hnil : l.filter keep = []
  · rw [← Cyclic.order_filter, hnil]
    simp [Cyclic.order]
  · have hmod := (Nat.mod_lt hand (List.length_pos_iff.2 hnil)).le
    rw [← Cyclic.order_filter, Cyclic.order_eq_rotate hle, List.rotate_rotate, hsplit,
      Cyclic.order_eq_rotate hmod, List.rotate_mod]

theorem take_drop_min (l : List α) (n : ℕ) :
    l.drop (min n l.length) = l.drop n ∧ l.take (min n l.length) = l.take n := by
  rcases Nat.le_total n l.length with h | h
  · rw [Nat.min_eq_left h]
    exact ⟨rfl, rfl⟩
  · rw [Nat.min_eq_right h, List.drop_length, List.take_length, List.drop_eq_nil_of_le h,
      List.take_of_length_le h]
    exact ⟨rfl, rfl⟩

/-- The hand moves behind the elements that it looked at, by the places from before the bad ones
among them are dropped. -/
theorem round_of_order {start : ℕ} (hs : start ≤ l.length)
    {keep : α → Bool} (hkeep : ∀ a ∈ (Cyclic.order start l).take n, keep a = !bad a)
    (hrest : ∀ a ∈ (Cyclic.order start l).drop n, keep a = true) :
    Round bad n (Cyclic.order start l)
      (Cyclic.order ((start + min n l.length) % l.length % (l.filter keep).length)
        (l.filter keep)) := by
  have hring := Cyclic.order_order hs (Nat.min_le_right n l.length)
  generalize hhand : (start + min n l.length) % l.length = hand at *
  have hle : hand ≤ l.length := by
    rcases Nat.eq_zero_or_pos l.length with h0 | hpos
    · rw [h0, Nat.mod_zero] at hhand
      omega
    · exact hhand ▸ (Nat.mod_lt _ hpos).le
  have hmin := take_drop_min (Cyclic.order start l) n
  rw [Cyclic.length_order] at hmin
  have hround : (Cyclic.order hand l).filter keep = (Cyclic.order start l).drop n
      ++ ((Cyclic.order start l).take n).filter fun a => !bad a := by
    rw [← hring, Cyclic.order.eq_def (min n l.length), hmin.1, hmin.2, List.filter_append,
      List.filter_eq_self.2 hrest, List.filter_congr hkeep]
  rw [order_filter_skip keep hle, hround]
  refine ⟨_, ?_, rfl⟩
  have hnone : ((Cyclic.order start l).drop n).countP (fun a => !keep a) = 0 :=
    List.countP_eq_zero.2 fun a ha => by simp [hrest a ha]
  calc (l.take hand).countP (fun a => !keep a)
      ≤ l.countP fun a => !keep a := (List.take_sublist hand l).countP_le
    _ = (Cyclic.order start l).countP fun a => !keep a :=
        ((Cyclic.order_perm start l).countP_eq _).symm
    _ = ((Cyclic.order start l).take n).countP (fun a => !keep a)
        + ((Cyclic.order start l).drop n).countP fun a => !keep a := by
        rw [← List.countP_append, List.take_append_drop]
    _ = ((Cyclic.order start l).take n).countP bad := by
        rw [hnone, Nat.add_zero]
        exact List.countP_congr fun a ha => by simp [hkeep a ha]

theorem Round.countP (h : Round bad n l l') :
    l'.countP bad + (l.take n).countP bad = l.countP bad := by
  obtain ⟨d, -, rfl⟩ := h
  have hgood : ((l.take n).filter fun a => !bad a).countP bad = 0 :=
    List.countP_eq_zero.2 fun a ha => by simpa using (List.mem_filter.1 ha).2
  rw [(List.rotate_perm _ d).countP_eq, List.countP_append, hgood, Nat.add_zero, Nat.add_comm,
    ← List.countP_append, List.take_append_drop]

theorem Round.length_le (h : Round bad n l l') : l'.length ≤ l.length := by
  obtain ⟨d, -, rfl⟩ := h
  have hfilter := List.length_filter_le (fun a => !bad a) (l.take n)
  rw [List.length_rotate, List.length_append, List.length_drop]
  rw [List.length_take] at hfilter
  omega

/-- In the middle of a pass: the ring is at most `m` elements that were not yet passed, and then
elements of which no more are bad than were taken out. -/
def Passed (bad : α → Bool) (total m : ℕ) (l : List α) : Prop :=
  ∃ todo done, l = todo ++ done ∧ todo.length ≤ m ∧ done.countP bad + l.countP bad ≤ total

theorem Passed.round {total m : ℕ} (h : Passed bad total m l) (hr : Round bad n l l') :
    Passed bad total (m - n) l' := by
  have hcount := hr.countP
  obtain ⟨todo, done, rfl, htodo, hdone⟩ := h
  obtain ⟨d, hd, rfl⟩ := hr
  have hrest : (done.drop (n - todo.length)).countP bad ≤ done.countP bad :=
    (List.drop_sublist _ done).countP_le
  generalize hkept : ((todo ++ done).take n).filter (fun a => !bad a) = kept at hcount ⊢
  have hgood : kept.countP bad = 0 :=
    List.countP_eq_zero.2 fun a ha => by
      rw [← hkept] at ha
      simpa using (List.mem_filter.1 ha).2
  rw [List.drop_append] at hcount ⊢
  by_cases hle : d ≤ (todo.drop n).length
  · refine ⟨(todo.drop n).drop d,
      done.drop (n - todo.length) ++ kept ++ (todo.drop n).take d, ?_, ?_, ?_⟩
    · rw [List.append_assoc, List.rotate_eq_drop_append_take (by rw [List.length_append]; omega),
        List.drop_append_of_le_length hle, List.take_append_of_le_length hle]
      simp only [List.append_assoc]
    · rw [List.length_drop, List.length_drop]
      omega
    · have hskip : ((todo.drop n).take d).countP bad ≤ d :=
        List.countP_le_length.trans (List.length_take_le _ _)
      rw [List.countP_append, List.countP_append, hgood]
      omega
  · refine ⟨[], _, (List.nil_append _).symm, Nat.zero_le _, ?_⟩
    have hskip : (todo.drop n).countP bad ≤ (todo.drop n).length := List.countP_le_length
    have hall : ((todo.drop n ++ done.drop (n - todo.length) ++ kept).rotate d).countP bad
        = (todo.drop n).countP bad + (done.drop (n - todo.length)).countP bad := by
      rw [(List.rotate_perm _ d).countP_eq, List.countP_append, List.countP_append, hgood,
        Nat.add_zero]
    omega

section Runs

variable {f : ℕ → List α}

theorem passed_run (hf : ∀ j, Round bad n (f j) (f (j + 1))) :
    ∀ j, Passed bad ((f 0).countP bad) ((f 0).length - j * n) (f j)
  | 0 => ⟨f 0, [], (List.append_nil _).symm, by omega, by simp⟩
  | j + 1 => by
    have h := (passed_run hf j).round (hf j)
    rwa [Nat.sub_sub, ← Nat.succ_mul] at h

/-- As many rounds as it takes to look at every element leave at most half of the bad ones. -/
theorem halve (hf : ∀ j, Round bad n (f j) (f (j + 1))) {m : ℕ} (hm : (f 0).length ≤ m * n) :
    2 * (f m).countP bad ≤ (f 0).countP bad := by
  obtain ⟨todo, done, heq, htodo, hcount⟩ := passed_run hf m
  obtain rfl : todo = [] := List.length_eq_zero_iff.1 (by omega)
  rw [List.nil_append] at heq
  rw [← heq] at hcount
  omega

theorem countP_le (hf : ∀ j, Round bad n (f j) (f (j + 1))) (i : ℕ) :
    ∀ j, (f (i + j)).countP bad ≤ (f i).countP bad
  | 0 => le_rfl
  | j + 1 => by
    have h := (hf (i + j)).countP
    have ih := countP_le hf i j
    rw [← Nat.add_assoc]
    omega

theorem length_le (hf : ∀ j, Round bad n (f j) (f (j + 1))) : ∀ j, (f j).length ≤ (f 0).length
  | 0 => le_rfl
  | j + 1 => (hf j).length_le.trans (length_le hf j)

theorem countP_passes (hf : ∀ j, Round bad n (f j) (f (j + 1))) {m : ℕ}
    (hm : (f 0).length ≤ m * n) : ∀ k, 2 ^ k * (f (m * k)).countP bad ≤ (f 0).countP bad
  | 0 => by simp
  | k + 1 => by
    have ih := countP_passes hf hm k
    have hhalf := halve (f := fun j => f (m * k + j)) (fun j => hf (m * k + j))
      ((length_le hf (m * k)).trans hm)
    rw [Nat.mul_succ, pow_succ, Nat.mul_assoc]
    exact (Nat.mul_le_mul_left _ hhalf).trans ih

/-- One pass more than the bad elements can be halved leaves none of them, and none comes back. -/
theorem clear (hf : ∀ j, Round bad n (f j) (f (j + 1))) {m j : ℕ} (hm : (f 0).length ≤ m * n)
    (hj : m * (Nat.log 2 ((f 0).countP bad) + 1) ≤ j) : (f j).countP bad = 0 := by
  have hpass := countP_passes hf hm (Nat.log 2 ((f 0).countP bad) + 1)
  have hlog := Nat.lt_pow_succ_log_self Nat.one_lt_two ((f 0).countP bad)
  have hzero : (f (m * (Nat.log 2 ((f 0).countP bad) + 1))).countP bad = 0 := by
    by_contra hne
    have hpos := Nat.le_mul_of_pos_right (2 ^ (Nat.log 2 ((f 0).countP bad) + 1))
      (Nat.pos_of_ne_zero hne)
    exact absurd (hpos.trans hpass) (Nat.not_le.2 hlog)
  have hle := countP_le hf (m * (Nat.log 2 ((f 0).countP bad) + 1))
    (j - m * (Nat.log 2 ((f 0).countP bad) + 1))
  rw [Nat.add_sub_cancel' hj, hzero] at hle
  exact Nat.le_zero.1 hle

end Runs

end Rounds
