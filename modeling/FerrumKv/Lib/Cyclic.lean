import Mathlib.Data.List.Basic
import Mathlib.Data.List.Rotate

/-!
# Sweeping a ring

A list read cyclically from a hand, and the sweep that goes around it: elements that are not to be
kept are dropped, the first one that is ripe is taken out, and the others are reset and passed. If
resetting makes an element ripe, one look more than there are elements suffices (`sweep_eq`). A hand
that moves on by rounds finds the rest of the ring where it left it (`order_round`).
-/

namespace Cyclic

variable {α : Type*}

/-- The elements in cyclic order from index `hand`; a hand beyond the end stands at the front. -/
def order (hand : ℕ) (l : List α) : List α := l.drop hand ++ l.take hand

theorem order_of_le {hand : ℕ} {l : List α} (h : l.length ≤ hand) : order hand l = l := by
  simp [order, List.drop_eq_nil_of_le h, List.take_of_length_le h]

theorem order_wrap (hand : ℕ) (l : List α) :
    order (if l.length ≤ hand then 0 else hand) l = order hand l := by
  split_ifs with h
  · rw [order_of_le h]
    simp [order]
  · rfl

theorem order_append {hand : ℕ} {front back : List α} (h : front.length = hand) :
    order hand (front ++ back) = back ++ front := by
  subst h
  simp [order]

theorem order_perm (hand : ℕ) (l : List α) : (order hand l).Perm l := by
  have h : (order hand l).Perm (l.take hand ++ l.drop hand) := List.perm_append_comm
  rwa [List.take_append_drop] at h

theorem length_order (hand : ℕ) (l : List α) : (order hand l).length = l.length :=
  (order_perm hand l).length_eq

theorem mem_order {hand : ℕ} {l : List α} {a : α} : a ∈ order hand l ↔ a ∈ l :=
  (order_perm hand l).mem_iff

/-- Elements filtered out of a list leave its ring, if the hand moves down by those before it. -/
theorem order_filter (p : α → Bool) (hand : ℕ) (l : List α) :
    order ((l.take hand).filter p).length (l.filter p) = (order hand l).filter p := by
  have hl : l.filter p = (l.take hand).filter p ++ (l.drop hand).filter p := by
    rw [← List.filter_append, List.take_append_drop]
  rw [hl, order_append rfl, order, List.filter_append]

theorem order_eq_rotate {hand : ℕ} {l : List α} (h : hand ≤ l.length) :
    order hand l = l.rotate hand :=
  (List.rotate_eq_drop_append_take h).symm

theorem order_mod {hand : ℕ} {l : List α} (h : hand ≤ l.length) :
    order (hand % l.length) l = order hand l := by
  rw [order_eq_rotate ((Nat.mod_le _ _).trans h), List.rotate_mod, order_eq_rotate h]

theorem order_order {a b : ℕ} {l : List α} (ha : a ≤ l.length) (hb : b ≤ l.length) :
    order b (order a l) = order ((a + b) % l.length) l := by
  have hmod : (a + b) % l.length ≤ l.length := by
    rcases Nat.eq_zero_or_pos l.length with h0 | hpos
    · rw [h0, Nat.mod_zero]
      omega
    · exact (Nat.mod_lt _ hpos).le
  have hb' : b ≤ (order a l).length := by rwa [length_order]
  rw [order_eq_rotate hb', order_eq_rotate ha, List.rotate_rotate, order_eq_rotate hmod,
    List.rotate_mod]

/-- A round looks at the first `n` of the ring and moves the hand behind them. If nothing is
dropped after them in the ring or before the hand's new place, the ring goes on with what the round
did not look at, and ends with what it looked at and kept. -/
theorem order_round {keep : α → Bool} {start n : ℕ} {l : List α} (hs : start ≤ l.length)
    (hrest : ∀ a ∈ (order start l).drop n, keep a = true)
    (hfront : ∀ a ∈ l.take ((start + min n l.length) % l.length), keep a = true) :
    order ((start + min n l.length) % l.length % (l.filter keep).length) (l.filter keep)
      = (order start l).drop n ++ ((order start l).take n).filter keep := by
  have hw : min n l.length ≤ l.length := Nat.min_le_right _ _
  have hring := order_order hs hw
  generalize hhand : (start + min n l.length) % l.length = hand at *
  have hle : hand ≤ l.length := by
    rcases Nat.eq_zero_or_pos l.length with h0 | hpos
    · rw [h0, Nat.mod_zero] at hhand
      omega
    · exact hhand ▸ (Nat.mod_lt _ hpos).le
  have htake : (l.take hand).filter keep = l.take hand := List.filter_eq_self.2 hfront
  have hlen : ((l.take hand).filter keep).length = hand := by
    rw [htake, List.length_take, Nat.min_eq_left hle]
  have hle' : hand ≤ (l.filter keep).length := by
    rw [← hlen]
    exact ((List.take_sublist hand l).filter keep).length_le
  have hfilter := order_filter keep hand l
  rw [hlen] at hfilter
  have hsame : (order start l).drop (min n l.length) = (order start l).drop n
      ∧ (order start l).take (min n l.length) = (order start l).take n := by
    rcases Nat.le_total n l.length with h | h
    · rw [Nat.min_eq_left h]
      exact ⟨rfl, rfl⟩
    · have hlong : (order start l).length ≤ n := by rwa [length_order]
      rw [Nat.min_eq_right h, ← length_order start l, List.drop_length, List.take_length,
        List.drop_eq_nil_of_le hlong, List.take_of_length_le hlong]
      exact ⟨rfl, rfl⟩
  rw [order_mod hle', hfilter, ← hring, order, List.filter_append, hsame.1, hsame.2,
    List.filter_eq_self.2 hrest]

theorem head?_order {hand : ℕ} {l : List α} (h : hand < l.length) :
    (order hand l).head? = l[hand]? := by
  rw [order, List.drop_eq_getElem_cons h, List.cons_append, List.head?_cons,
    List.getElem?_eq_getElem h]

variable (keep ripe : α → Bool) (reset : α → α)

/-- Looks at the elements in turn, at most `looks` times. -/
def sweep : ℕ → List α → Option α × List α
  | 0, l => (none, l)
  | _ + 1, [] => (none, [])
  | looks + 1, a :: l =>
    if keep a = false then sweep looks l
    else if ripe a then (some a, l)
    else sweep looks (l ++ [reset a])

theorem sweep_pass (n : ℕ) : ∀ (pre l : List α), (∀ a ∈ pre, keep a = true → ripe a = false) →
    sweep keep ripe reset (pre.length + n) (pre ++ l)
      = sweep keep ripe reset n (l ++ (pre.filter keep).map reset)
  | [], l, _ => by simp
  | a :: pre, l, h => by
    obtain ⟨ha, hpre⟩ := List.forall_mem_cons.1 h
    rw [List.length_cons, show pre.length + 1 + n = (pre.length + n) + 1 by omega, List.cons_append,
      sweep, List.filter_cons]
    by_cases hk : keep a = true
    · rw [if_neg (by simp [hk]), if_neg (by simp [ha hk]), if_pos hk, List.append_assoc,
        sweep_pass n pre _ hpre, List.map_cons, List.append_assoc, List.singleton_append]
    · rw [if_pos (by simpa using hk), if_neg hk, sweep_pass n pre _ hpre]

variable {keep ripe reset} {looks : ℕ} {pre post l : List α} {a : α}

theorem sweep_ripe (hpre : ∀ b ∈ pre, keep b = true → ripe b = false) (hk : keep a = true)
    (hr : ripe a = true) (hn : pre.length < looks) :
    sweep keep ripe reset looks (pre ++ a :: post)
      = (some a, post ++ (pre.filter keep).map reset) := by
  obtain ⟨n, rfl⟩ : ∃ n, looks = pre.length + (n + 1) := ⟨looks - pre.length - 1, by omega⟩
  rw [sweep_pass keep ripe reset _ pre _ hpre, List.cons_append, sweep, if_neg (by simp [hk]),
    if_pos hr]

theorem sweep_none (h : ∀ b ∈ l, keep b = false) (hn : l.length < looks) :
    sweep keep ripe reset looks l = (none, []) := by
  obtain ⟨n, rfl⟩ : ∃ n, looks = l.length + (n + 1) := ⟨looks - l.length - 1, by omega⟩
  have hpass := sweep_pass keep ripe reset (n + 1) l [] fun b hb hk => by
    rw [h b hb] at hk
    cases hk
  have hnil : l.filter keep = [] := List.filter_eq_nil_iff.2 fun b hb => by simp [h b hb]
  rw [List.append_nil, hnil] at hpass
  exact hpass

/-- With nothing ripe the sweep comes around to the first element that is kept. -/
theorem sweep_around (hkeep : ∀ b, keep (reset b) = keep b) (hripe : ∀ b, ripe (reset b) = true)
    (hall : ∀ b ∈ pre ++ a :: post, keep b = true → ripe b = false)
    (hpre : ∀ b ∈ pre, keep b = false) (hk : keep a = true)
    (hn : (pre ++ a :: post).length < looks) :
    sweep keep ripe reset looks (pre ++ a :: post)
      = (some (reset a), (post.filter keep).map reset) := by
  obtain ⟨n, rfl⟩ : ∃ n, looks = (pre ++ a :: post).length + (n + 1) :=
    ⟨looks - (pre ++ a :: post).length - 1, by omega⟩
  have hpass := sweep_pass keep ripe reset (n + 1) (pre ++ a :: post) [] hall
  have hnil : pre.filter keep = [] := List.filter_eq_nil_iff.2 fun b hb => by simp [hpre b hb]
  rw [List.append_nil, List.filter_append, hnil, List.nil_append, List.nil_append, List.filter_cons,
    if_pos hk, List.map_cons] at hpass
  rw [hpass, sweep, if_neg (by simp [hkeep, hk]), if_pos (hripe a)]

/-- The three ways in which a sweep with enough looks ends. -/
theorem sweep_eq (hkeep : ∀ b, keep (reset b) = keep b) (hripe : ∀ b, ripe (reset b) = true)
    (l : List α) :
    (∀ b ∈ l, keep b = false) ∧ (∀ looks, l.length < looks →
        sweep keep ripe reset looks l = (none, [])) ∨
      (∃ pre a post, l = pre ++ a :: post ∧ (∀ b ∈ pre, keep b = true → ripe b = false)
        ∧ keep a = true ∧ ripe a = true ∧ ∀ looks, l.length < looks →
          sweep keep ripe reset looks l = (some a, post ++ (pre.filter keep).map reset)) ∨
      ∃ pre a post, l = pre ++ a :: post ∧ (∀ b ∈ l, keep b = true → ripe b = false)
        ∧ (∀ b ∈ pre, keep b = false) ∧ keep a = true ∧ ∀ looks, l.length < looks →
          sweep keep ripe reset looks l = (some (reset a), (post.filter keep).map reset) := by
  by_cases hfirst : ∃ b ∈ l, (keep b && ripe b) = true
  · obtain ⟨a, ha⟩ := Option.isSome_iff_exists.1 (List.find?_isSome.2 hfirst)
    obtain ⟨hp, pre, post, rfl, hpre⟩ := List.find?_eq_some_iff_append.1 ha
    rw [Bool.and_eq_true] at hp
    refine .inr (.inl ⟨pre, a, post, rfl, fun b hb hkb => ?_, hp.1, hp.2, fun looks hn => ?_⟩)
    · simpa [hkb] using hpre b hb
    · refine sweep_ripe (fun b hb hkb => ?_) hp.1 hp.2 ?_
      · simpa [hkb] using hpre b hb
      · rw [List.length_append, List.length_cons] at hn
        omega
  · have hall : ∀ b ∈ l, keep b = true → ripe b = false := by
      intro b hb hkb
      rw [Bool.eq_false_iff]
      exact fun hr => hfirst ⟨b, hb, by simp [hkb, hr]⟩
    by_cases hkept : ∃ b ∈ l, keep b = true
    · obtain ⟨a, ha⟩ := Option.isSome_iff_exists.1 (List.find?_isSome.2 hkept)
      obtain ⟨hk, pre, post, rfl, hpre⟩ := List.find?_eq_some_iff_append.1 ha
      have hpre' : ∀ b ∈ pre, keep b = false := fun b hb => by simpa using hpre b hb
      exact .inr (.inr ⟨pre, a, post, rfl, hall, hpre', hk, fun looks hn =>
        sweep_around hkeep hripe hall hpre' hk hn⟩)
    · have hnone : ∀ b ∈ l, keep b = false := fun b hb =>
        Bool.eq_false_iff.2 fun hkb => hkept ⟨b, hb, hkb⟩
      exact .inl ⟨hnone, fun looks hn => sweep_none hnone hn⟩

end Cyclic
