import Mathlib.Tactic

/-!
# Operations that fail for some operands

The operations of a program on a 64-bit machine that stop it for some operands, with their operands:
arithmetic that overflows, an allocation above the largest size, an instant beyond the range of the
clock, an index out of range, an absent value that is taken. `Safe` says that none of a list of them
fails.
-/

namespace Partial

inductive Op
  | addU64 (a b : ℕ)
  | subU64 (a b : ℕ)
  | mulU64 (a b : ℕ)
  | addU8 (a b : ℕ)
  | addI64 (a b : ℤ)
  | subI64 (a b : ℤ)
  | negI64 (a : ℤ)
  | withCapacity (n size : ℕ)
  | instantAdd (ms delta : ℕ)
  | index (len i : ℕ)
  | insertBefore (len i : ℕ)
  | moveIndex (len i j : ℕ)
  | clamp (lo hi : ℕ)
  | unwrap (present : Bool)
  deriving DecidableEq, Repr

def IsI64 (z : ℤ) : Prop := -2 ^ 63 ≤ z ∧ z < 2 ^ 63

instance (z : ℤ) : Decidable (IsI64 z) := inferInstanceAs (Decidable (_ ∧ _))

/-- The largest size of an allocation, `isize::MAX`. -/
def maxAllocation : ℕ := 2 ^ 63 - 1

/-- Whether the operation takes an index of a list. -/
def Op.takesIndex : Op → Bool
  | .index _ _ | .insertBefore _ _ | .moveIndex _ _ _ => true
  | _ => false

/-- When an operation succeeds. An instant counts its seconds in an `i64`. -/
def Op.Succeeds : Op → Prop
  | .addU64 a b => a + b < 2 ^ 64
  | .subU64 a b => b ≤ a
  | .mulU64 a b => a * b < 2 ^ 64
  | .addU8 a b => a + b < 2 ^ 8
  | .addI64 a b => IsI64 (a + b)
  | .subI64 a b => IsI64 (a - b)
  | .negI64 a => IsI64 (-a)
  | .withCapacity n size => n * size ≤ maxAllocation
  | .instantAdd ms delta => (ms + delta) / 1000 < 2 ^ 63
  | .index len i => i < len
  | .insertBefore len i => i ≤ len
  | .moveIndex len i j => i < len ∧ j < len
  | .clamp lo hi => lo ≤ hi
  | .unwrap present => present = true

instance : DecidablePred Op.Succeeds
  | .addU64 a b => inferInstanceAs (Decidable (a + b < 2 ^ 64))
  | .subU64 a b => inferInstanceAs (Decidable (b ≤ a))
  | .mulU64 a b => inferInstanceAs (Decidable (a * b < 2 ^ 64))
  | .addU8 a b => inferInstanceAs (Decidable (a + b < 2 ^ 8))
  | .addI64 a b => inferInstanceAs (Decidable (IsI64 (a + b)))
  | .subI64 a b => inferInstanceAs (Decidable (IsI64 (a - b)))
  | .negI64 a => inferInstanceAs (Decidable (IsI64 (-a)))
  | .withCapacity n size => inferInstanceAs (Decidable (n * size ≤ maxAllocation))
  | .instantAdd ms delta => inferInstanceAs (Decidable ((ms + delta) / 1000 < 2 ^ 63))
  | .index len i => inferInstanceAs (Decidable (i < len))
  | .insertBefore len i => inferInstanceAs (Decidable (i ≤ len))
  | .moveIndex len i j => inferInstanceAs (Decidable (i < len ∧ j < len))
  | .clamp lo hi => inferInstanceAs (Decidable (lo ≤ hi))
  | .unwrap present => inferInstanceAs (Decidable (present = true))

def Safe (ops : List Op) : Prop := ∀ op ∈ ops, op.Succeeds

@[simp]
theorem safe_nil : Safe [] := by simp [Safe]

@[simp]
theorem safe_cons {op : Op} {ops : List Op} : Safe (op :: ops) ↔ op.Succeeds ∧ Safe ops := by
  simp [Safe]

@[simp]
theorem safe_append {a b : List Op} : Safe (a ++ b) ↔ Safe a ∧ Safe b := by
  simp only [Safe, List.mem_append]
  exact ⟨fun h => ⟨fun op ho => h op (.inl ho), fun op ho => h op (.inr ho)⟩,
    fun h op ho => ho.elim (h.1 op) (h.2 op)⟩

theorem safe_map {α : Type} {f : α → Op} {l : List α} (h : ∀ x ∈ l, (f x).Succeeds) :
    Safe (l.map f) := by
  intro op ho
  obtain ⟨x, hx, rfl⟩ := List.mem_map.1 ho
  exact h x hx

end Partial
