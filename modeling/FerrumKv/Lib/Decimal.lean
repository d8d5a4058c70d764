import Mathlib.Tactic

/-!
# Decimal numerals as bytes

Numbers written in ASCII decimal, with an optional sign, and read back. Reading a rendered number
gives the number (`toNat?_ofNat`, `toInt?_ofInt`), and a rendered number is all digits after its
sign, so no other byte delimits it early. What is read at all is a numeral (`toInt?_eq_some`).
-/

namespace Decimal

def isDigit (b : UInt8) : Bool := decide (48 ≤ b.toNat ∧ b.toNat ≤ 57)

/-- The digits of `n`, most significant first. -/
def ofNat (n : ℕ) : List UInt8 := (Nat.toDigits 10 n).map fun c => UInt8.ofNat c.toNat

def value (bs : List UInt8) : ℕ := bs.foldl (fun acc b => 10 * acc + (b.toNat - 48)) 0

/-- The number a non-empty run of digits denotes. -/
def toNat? (bs : List UInt8) : Option ℕ :=
  if bs ≠ [] ∧ bs.all isDigit then some (value bs) else none

def ofInt (z : ℤ) : List UInt8 := if z < 0 then 45 :: ofNat z.natAbs else ofNat z.natAbs

/-- `bs` is a non-empty run of digits with at most one sign before it, and denotes `z`. -/
inductive Numeral : List UInt8 → ℤ → Prop
  | plain (ds : List UInt8) (hne : ds ≠ []) (hd : ∀ b ∈ ds, isDigit b = true) :
    Numeral ds (value ds)
  | plus (ds : List UInt8) (hne : ds ≠ []) (hd : ∀ b ∈ ds, isDigit b = true) :
    Numeral (43 :: ds) (value ds)
  | minus (ds : List UInt8) (hne : ds ≠ []) (hd : ∀ b ∈ ds, isDigit b = true) :
    Numeral (45 :: ds) (-(value ds))

/-- The number an optional sign and a non-empty run of digits denote. -/
def toInt? : List UInt8 → Option ℤ
  | [] => none
  | b :: ds =>
    if b = 45 then (toNat? ds).map fun n : ℕ => -(n : ℤ)
    else if b = 43 then (toNat? ds).map fun n : ℕ => (n : ℤ)
    else (toNat? (b :: ds)).map fun n : ℕ => (n : ℤ)

theorem toNat_of_isDigit {c : Char} (h : c.isDigit) :
    (UInt8.ofNat c.toNat).toNat = c.toNat ∧ 48 ≤ c.toNat ∧ c.toNat ≤ 57 := by
  simp only [Char.isDigit, Bool.and_eq_true, decide_eq_true_eq] at h
  obtain ⟨h1, h2⟩ := h
  have h1' : 48 ≤ c.toNat := h1
  have h2' : c.toNat ≤ 57 := h2
  refine ⟨?_, h1', h2'⟩
  rw [UInt8.toNat_ofNat', Nat.mod_eq_of_lt (by omega)]

theorem isDigit_of_mem_ofNat {n : ℕ} {b : UInt8} (h : b ∈ ofNat n) : isDigit b = true := by
  obtain ⟨c, hc, rfl⟩ := List.mem_map.1 h
  obtain ⟨h1, h2⟩ := toNat_of_isDigit (Nat.isDigit_of_mem_toDigits (by omega) (by omega) hc)
  simp [isDigit, h1, h2]

theorem ofNat_ne_nil (n : ℕ) : ofNat n ≠ [] := by
  simp [ofNat, Nat.toDigits_ne_nil]

theorem ofNat_of_ten_le {n : ℕ} (h : 10 ≤ n) : ∃ b, ofNat n = ofNat (n / 10) ++ [b] := by
  refine ⟨UInt8.ofNat (Nat.digitChar (n % 10)).toNat, ?_⟩
  rw [ofNat, Nat.toDigits_of_base_le (by decide) h, List.map_append]
  rfl

theorem head?_ofNat : ∀ {n : ℕ}, n ≠ 0 → (ofNat n).head? ≠ some 48
  | n, hn => by
    by_cases h : n < 10
    · rw [ofNat, Nat.toDigits_of_lt_base h]
      have hdigits : ∀ m < 10, m ≠ 0 →
          ([m.digitChar].map fun c => UInt8.ofNat c.toNat).head? ≠ some 48 := by decide
      exact hdigits n h hn
    · obtain ⟨b, hb⟩ := ofNat_of_ten_le (Nat.not_lt.1 h)
      have ih := @head?_ofNat (n / 10) (by omega)
      rw [hb, List.head?_append_of_ne_nil _ (ofNat_ne_nil _)]
      exact ih

theorem value_map (l : List Char) (h : ∀ c ∈ l, c.isDigit) (acc : ℕ) :
    (l.map fun c => UInt8.ofNat c.toNat).foldl (fun acc b => 10 * acc + (b.toNat - 48)) acc
      = Nat.ofDigitChars 10 l acc := by
  induction l generalizing acc with
  | nil => simp
  | cons c l ih =>
    rw [List.map_cons, List.foldl_cons, Nat.ofDigitChars_cons,
      ih fun x hx => h x (List.mem_cons_of_mem _ hx)]
    rw [(toNat_of_isDigit (h c List.mem_cons_self)).1]
    rfl

theorem value_ofNat (n : ℕ) : value (ofNat n) = n := by
  unfold value ofNat
  rw [value_map _ fun c hc => Nat.isDigit_of_mem_toDigits (by omega) (by omega) hc]
  exact Nat.ofDigitChars_ten_toDigits

theorem toNat?_ofNat (n : ℕ) : toNat? (ofNat n) = some n := by
  have h : (ofNat n).all isDigit = true := List.all_eq_true.2 fun _ hb => isDigit_of_mem_ofNat hb
  simp [toNat?, ofNat_ne_nil, h, value_ofNat]

theorem toInt?_of_isDigit {b : UInt8} {ds : List UInt8} (h : isDigit b = true) :
    toInt? (b :: ds) = (toNat? (b :: ds)).map fun n : ℕ => (n : ℤ) := by
  simp only [isDigit, decide_eq_true_eq] at h
  have h45 : b ≠ 45 := by rintro rfl; simp at h
  have h43 : b ≠ 43 := by rintro rfl; simp at h
  simp [toInt?, h45, h43]

theorem toInt?_ofNat (n : ℕ) : toInt? (ofNat n) = some (n : ℤ) := by
  cases hn : ofNat n with
  | nil => exact absurd hn (ofNat_ne_nil n)
  | cons b ds =>
    have hb : isDigit b = true := isDigit_of_mem_ofNat (n := n) (by rw [hn]; exact List.mem_cons_self)
    rw [toInt?_of_isDigit hb, ← hn, toNat?_ofNat]
    rfl

theorem toInt?_ofInt (z : ℤ) : toInt? (ofInt z) = some z := by
  unfold ofInt
  split_ifs with h
  · rw [toInt?, if_pos rfl, toNat?_ofNat, Option.map_some, Option.some.injEq]
    omega
  · rw [toInt?_ofNat, Option.some.injEq]
    omega

theorem length_ofNat_le {n k : ℕ} (hk : 0 < k) (h : n < 10 ^ k) : (ofNat n).length ≤ k := by
  rw [ofNat, List.length_map]
  exact (Nat.length_toDigits_le_iff (by omega) hk).2 h

theorem toNat?_eq_some {bs : List UInt8} {n : ℕ} :
    toNat? bs = some n ↔ bs ≠ [] ∧ (∀ b ∈ bs, isDigit b = true) ∧ value bs = n := by
  unfold toNat?
  split_ifs with h
  · obtain ⟨hne, hd⟩ := h
    rw [Option.some.injEq]
    exact ⟨fun hv => ⟨hne, List.all_eq_true.1 hd, hv⟩, fun hv => hv.2.2⟩
  · constructor
    · intro hn
      cases hn
    · rintro ⟨hne, hd, -⟩
      exact absurd ⟨hne, List.all_eq_true.2 hd⟩ h

theorem toInt?_eq_some {bs : List UInt8} {z : ℤ} : toInt? bs = some z ↔ Numeral bs z := by
  constructor
  · intro h
    rcases bs with _ | ⟨b, ds⟩
    · cases h
    rw [toInt?] at h
    split_ifs at h with hminus hplus
    · obtain ⟨n, hn, rfl⟩ := Option.map_eq_some_iff.1 h
      obtain ⟨hne, hd, rfl⟩ := toNat?_eq_some.1 hn
      exact hminus ▸ .minus ds hne hd
    · obtain ⟨n, hn, rfl⟩ := Option.map_eq_some_iff.1 h
      obtain ⟨hne, hd, rfl⟩ := toNat?_eq_some.1 hn
      exact hplus ▸ .plus ds hne hd
    · obtain ⟨n, hn, rfl⟩ := Option.map_eq_some_iff.1 h
      obtain ⟨hne, hd, rfl⟩ := toNat?_eq_some.1 hn
      exact .plain _ hne hd
  · intro h
    rcases h with ⟨_, hne, hd⟩ | ⟨ds, hne, hd⟩ | ⟨ds, hne, hd⟩
    · rcases bs with _ | ⟨b, ds⟩
      · exact absurd rfl hne
      rw [toInt?_of_isDigit (hd b List.mem_cons_self), toNat?_eq_some.2 ⟨hne, hd, rfl⟩]
      rfl
    · rw [toInt?, if_neg (by decide), if_pos rfl, toNat?_eq_some.2 ⟨hne, hd, rfl⟩]
      rfl
    · rw [toInt?, if_pos rfl, toNat?_eq_some.2 ⟨hne, hd, rfl⟩]
      rfl

theorem bounds_of_toNat? {bs : List UInt8} {n : ℕ} (h : toNat? bs = some n) :
    ∀ b ∈ bs, 48 ≤ b.toNat ∧ b.toNat ≤ 57 := by
  unfold toNat? at h
  split_ifs at h with hd
  intro b hb
  simpa only [isDigit, decide_eq_true_eq] using List.all_eq_true.1 hd.2 b hb

theorem bounds_of_toInt? {bs : List UInt8} {z : ℤ} (h : toInt? bs = some z) :
    ∀ b ∈ bs, 43 ≤ b.toNat ∧ b.toNat ≤ 57 := by
  rcases bs with _ | ⟨d, ds⟩
  · simp
  have hwide : ∀ {l : List UInt8} {n : ℕ}, toNat? l = some n →
      ∀ b ∈ l, 43 ≤ b.toNat ∧ b.toNat ≤ 57 := by
    intro l n hn b hb
    have := bounds_of_toNat? hn b hb
    omega
  rw [toInt?] at h
  split_ifs at h with hminus hplus
  · obtain ⟨n, hn, -⟩ := Option.map_eq_some_iff.1 h
    rw [List.forall_mem_cons, hminus]
    exact ⟨by decide, hwide hn⟩
  · obtain ⟨n, hn, -⟩ := Option.map_eq_some_iff.1 h
    rw [List.forall_mem_cons, hplus]
    exact ⟨by decide, hwide hn⟩
  · obtain ⟨n, hn, -⟩ := Option.map_eq_some_iff.1 h
    exact hwide hn

end Decimal
