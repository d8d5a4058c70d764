import Mathlib.Data.List.Basic
import Mathlib.Order.Basic

/-!
# Recency lists

A recency list has the elements of a sequence of uses by their last use, the oldest first
(`Recency.ofUses`). A table of stamps agrees with it (`Recency.Sorted`) where the stamps increase
along the list; a use with a later stamp keeps the agreement (`Sorted.touch`), and so does losing
stamps (`Sorted.mono`). Then a stamped element with the least stamp of those that satisfy `p` is the
first of the list that does (`Sorted.head_filter`).
-/

namespace Recency

variable {α τ : Type*} [DecidableEq α]

/-- A use takes an element to the end. -/
def touch (l : List α) (a : α) : List α :=
  l.filter (fun b => !(b == a)) ++ [a]

/-- The elements used, by their last use, oldest first. -/
def ofUses (used : List α) : List α :=
  used.foldl touch []

/-- Every element with a stamp is in `l`, and the stamps increase along `l`. -/
structure Sorted [LT τ] (stamp : α → Option τ) (l : List α) : Prop where
  pairwise : l.Pairwise fun a b => ∀ x y, stamp a = some x → stamp b = some y → x < y
  mem : ∀ a x, stamp a = some x → a ∈ l

namespace Sorted

variable {stamp stamp' : α → Option τ} {l : List α}

omit [DecidableEq α] in
theorem mono [LT τ] (h : Sorted stamp l) (hle : ∀ a x, stamp' a = some x → stamp a = some x) :
    Sorted stamp' l where
  pairwise := h.pairwise.imp fun hab x y hx hy => hab x y (hle _ _ hx) (hle _ _ hy)
  mem a x hx := h.mem a x (hle a x hx)

theorem touch [LT τ] (h : Sorted stamp l) {a : α} {r : τ} (hr : ∀ b x, stamp b = some x → x < r)
    (ha : stamp' a = some r) (hne : ∀ b, b ≠ a → stamp' b = stamp b) :
    Sorted stamp' (touch l a) where
  pairwise := by
    refine List.pairwise_append.2 ⟨?_, List.pairwise_singleton _ _, ?_⟩
    · refine (h.pairwise.filter _).imp_of_mem ?_
      intro b c hb hc hbc x y hx hy
      have hb' : b ≠ a := by simpa using List.of_mem_filter hb
      have hc' : c ≠ a := by simpa using List.of_mem_filter hc
      rw [hne b hb'] at hx
      rw [hne c hc'] at hy
      exact hbc x y hx hy
    · intro b hb c hc x y hx hy
      have hb' : b ≠ a := by simpa using List.of_mem_filter hb
      rw [List.mem_singleton] at hc
      subst hc
      rw [ha, Option.some.injEq] at hy
      subst hy
      rw [hne b hb'] at hx
      exact hr b x hx
  mem := by
    intro b x hx
    by_cases hb : b = a
    · simp [Recency.touch, hb]
    · rw [hne b hb] at hx
      simp [Recency.touch, hb, h.mem b x hx]

omit [DecidableEq α] in
theorem head_filter [Preorder τ] (h : Sorted stamp l) {p : α → Bool} {v : α} {y : τ}
    (hv : p v = true) (hy : stamp v = some y)
    (hleast : ∀ a, p a = true → ∃ x, stamp a = some x ∧ y ≤ x) :
    (l.filter p).head? = some v := by
  have hmem : v ∈ l.filter p := List.mem_filter.2 ⟨h.mem v y hy, hv⟩
  have hsorted := h.pairwise.filter p
  rcases hl : l.filter p with _ | ⟨a, rest⟩
  · rw [hl] at hmem
    cases hmem
  · rw [hl] at hmem hsorted
    rcases List.mem_cons.1 hmem with rfl | hrest
    · rfl
    · have hpa : p a = true := List.of_mem_filter (hl ▸ List.mem_cons_self)
      obtain ⟨x, hx, hyx⟩ := hleast a hpa
      have hxy := (List.pairwise_cons.1 hsorted).1 v hrest x y hx hy
      exact absurd (hxy.trans_le hyx) (lt_irrefl x)

end Sorted

end Recency
