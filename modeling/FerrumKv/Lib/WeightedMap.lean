import Mathlib.Data.List.AList
import Mathlib.Algebra.BigOperators.Group.List.Basic
import Mathlib.Tactic

/-!
# Weights of association lists

The weight of a finite map is the sum of a weight over its bindings. Inserting a binding adds its
weight and takes away that of the binding it replaces (`weight_insert`); erasing a key takes away
the weight of its binding (`weight_erase`). A map with fewer bindings weighs no more
(`weight_mono`).
-/

namespace AList

variable {α : Type*} {β : Type*} [DecidableEq α]

def weight (w : α → β → ℕ) (s : AList fun _ : α => β) : ℕ :=
  (s.entries.map fun e => w e.1 e.2).sum

/-- The weight `w` gives to what `s` binds to `a`. -/
def weightAt (w : α → β → ℕ) (s : AList fun _ : α => β) (a : α) : ℕ :=
  ((s.lookup a).map (w a)).getD 0

variable (w : α → β → ℕ) (s : AList fun _ : α => β)

theorem weightAt_of_lookup {a : α} {b : β} (h : s.lookup a = some b) : weightAt w s a = w a b := by
  simp [weightAt, h]

theorem weightAt_of_lookup_none {a : α} (h : s.lookup a = none) : weightAt w s a = 0 := by
  simp [weightAt, h]

theorem sum_kerase (a : α) :
    ∀ l : List (Σ _ : α, β), l.NodupKeys →
      ((l.kerase a).map fun e => w e.1 e.2).sum + ((l.dlookup a).map (w a)).getD 0
        = (l.map fun e => w e.1 e.2).sum
  | [], _ => by simp
  | ⟨a', b⟩ :: l, h => by
    by_cases ha : a = a'
    · subst ha
      simp [List.kerase, List.dlookup_cons_eq, Nat.add_comm]
    · have ih := sum_kerase a l (List.nodupKeys_of_nodupKeys_cons h)
      have hk : List.kerase a (⟨a', b⟩ :: l) = (⟨a', b⟩ : Σ _ : α, β) :: List.kerase a l := by
        simp [List.kerase, ha]
      have hl : List.dlookup a ((⟨a', b⟩ : Σ _ : α, β) :: l) = List.dlookup a l :=
        List.dlookup_cons_ne l (⟨a', b⟩ : Σ _ : α, β) ha
      rw [hk, hl]
      simp only [List.map_cons, List.sum_cons]
      omega

theorem weight_erase (a : α) : weight w (s.erase a) + weightAt w s a = weight w s :=
  sum_kerase w a s.entries s.nodupKeys

theorem weight_insert (a : α) (b : β) :
    weight w (s.insert a b) + weightAt w s a = weight w s + w a b := by
  have h := weight_erase w s a
  have he : (s.erase a).entries = s.entries.kerase a := rfl
  have hi : weight w (s.insert a b) = w a b + weight w (s.erase a) := by
    simp [weight, entries_insert, he]
  omega

theorem weight_insert_of_eq {a : α} {b b' : β} (h : s.lookup a = some b) (hw : w a b' = w a b) :
    weight w (s.insert a b') = weight w s := by
  have hi := weight_insert w s a b'
  rw [weightAt_of_lookup w s h] at hi
  omega

variable {s} in
theorem weight_mono {t : AList fun _ : α => β}
    (h : ∀ a b, s.lookup a = some b → t.lookup a = some b) : weight w s ≤ weight w t := by
  have hsub : s.entries ⊆ t.entries := fun e he =>
    mem_lookup_iff.1 (h e.1 e.2 (mem_lookup_iff.2 he))
  obtain ⟨l, hperm, hl⟩ := s.nodupKeys.nodup.subperm hsub
  unfold weight
  rw [← (hperm.map _).sum_eq]
  exact (hl.map _).sum_le_sum fun _ _ => Nat.zero_le _

omit [DecidableEq α] in
theorem weight_le_weight {v : α → β → ℕ} {c : ℕ} (h : ∀ a b, w a b ≤ c * v a b) :
    weight w s ≤ c * weight v s := by
  unfold weight
  induction s.entries with
  | nil => simp
  | cons e l ih =>
    have := h e.1 e.2
    simp only [List.map_cons, List.sum_cons, Nat.mul_add]
    omega

end AList
