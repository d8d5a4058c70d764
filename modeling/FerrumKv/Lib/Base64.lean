import Mathlib.Tactic

/-!
# Base64

The encoding of RFC 4648 with padding, by quanta of three bytes and four digits: `encode`, and
`decode`, which takes a padding sign only at the end of the last quantum. Which texts are decoded is
said without the decoder by `Padded` (`decode_isSome_iff`), and `decode_encode` is the round trip.
-/

namespace Base64

def digit (k : ℕ) : UInt8 :=
  if k < 26 then UInt8.ofNat (k + 65)
  else if k < 52 then UInt8.ofNat (k + 71)
  else if k < 62 then UInt8.ofNat (k - 4)
  else if k = 62 then 43
  else 47

def value (c : UInt8) : Option ℕ :=
  if 65 ≤ c ∧ c ≤ 90 then some (c.toNat - 65)
  else if 97 ≤ c ∧ c ≤ 122 then some (c.toNat - 97 + 26)
  else if 48 ≤ c ∧ c ≤ 57 then some (c.toNat - 48 + 52)
  else if c = 43 then some 62
  else if c = 47 then some 63
  else none

/-- The bytes of a quantum whose digits have the values `a`, `b`, `c` and `d`. -/
def first (a b : ℕ) : UInt8 := UInt8.ofNat (a * 4 + b / 16)

def second (b c : ℕ) : UInt8 := UInt8.ofNat (b % 16 * 16 + c / 4)

def third (c d : ℕ) : UInt8 := UInt8.ofNat (c % 4 * 64 + d)

def encode : List UInt8 → List UInt8
  | [] => []
  | [x] => [digit (x.toNat / 4), digit (x.toNat % 4 * 16), 61, 61]
  | [x, y] =>
    [digit (x.toNat / 4), digit (x.toNat % 4 * 16 + y.toNat / 16), digit (y.toNat % 16 * 4), 61]
  | x :: y :: z :: rest =>
    digit (x.toNat / 4) :: digit (x.toNat % 4 * 16 + y.toNat / 16)
      :: digit (y.toNat % 16 * 4 + z.toNat / 64) :: digit (z.toNat % 64) :: encode rest

/-- The quanta with two, one and no padding signs. -/
def oneByte (a b : UInt8) : Option (List UInt8) :=
  (value a).bind fun a => (value b).map fun b => [first a b]

def twoBytes (a b c : UInt8) : Option (List UInt8) :=
  (value a).bind fun a => (value b).bind fun b => (value c).map fun c => [first a b, second b c]

def threeBytes (a b c d : UInt8) : Option (List UInt8) :=
  (value a).bind fun a => (value b).bind fun b => (value c).bind fun c =>
    (value d).map fun d => [first a b, second b c, third c d]

/-- The bytes of a text; the padding stands at its end. -/
def decode : List UInt8 → Option (List UInt8)
  | [] => some []
  | [a, b, 61, 61] => oneByte a b
  | [a, b, c, 61] => twoBytes a b c
  | a :: b :: c :: d :: rest =>
    (threeBytes a b c d).bind fun bytes => (decode rest).map (bytes ++ ·)
  | _ => none

def IsDigit (c : UInt8) : Prop := value c ≠ none

/-- Digits and, as the last one or two signs, the padding; in quanta of four. -/
def Padded (t : List UInt8) : Prop :=
  t.length % 4 = 0 ∧ ∃ digits padding, t = digits ++ padding ∧ (∀ c ∈ digits, IsDigit c)
    ∧ (padding = [] ∨ padding = [61] ∨ padding = [61, 61])

theorem value_digit : ∀ k < 64, value (digit k) = some k := by decide

theorem lt_of_value {c : UInt8} {n : ℕ} (h : value c = some n) : n < 64 := by
  unfold value at h
  split_ifs at h with h1 h2 h3 <;> cases h
  · have := UInt8.le_iff_toNat_le.1 h1.2
    simp only [UInt8.reduceToNat] at this
    omega
  · have := UInt8.le_iff_toNat_le.1 h2.2
    simp only [UInt8.reduceToNat] at this
    omega
  · have := UInt8.le_iff_toNat_le.1 h3.2
    simp only [UInt8.reduceToNat] at this
    omega
  · decide
  · decide

theorem ne_padding_of_isDigit {c : UInt8} (h : IsDigit c) : c ≠ 61 := by
  rintro rfl
  exact h (by decide)

theorem isDigit_ascii {c : UInt8} (h : IsDigit c) : c < 0x80 := by
  by_contra hlow
  refine h ?_
  have hhigh := UInt8.le_iff_toNat_le.1 (UInt8.not_lt.1 hlow)
  unfold value
  split_ifs with h1 h2 h3 h4 h5
  · have := UInt8.le_iff_toNat_le.1 h1.2
    simp only [UInt8.reduceToNat] at this hhigh
    omega
  · have := UInt8.le_iff_toNat_le.1 h2.2
    simp only [UInt8.reduceToNat] at this hhigh
    omega
  · have := UInt8.le_iff_toNat_le.1 h3.2
    simp only [UInt8.reduceToNat] at this hhigh
    omega
  · exact absurd hlow (by simp [h4])
  · exact absurd hlow (by simp [h5])
  · rfl

theorem isDigit_digit {k : ℕ} (h : k < 64) : IsDigit (digit k) := by
  rw [IsDigit, value_digit k h]
  exact Option.some_ne_none k

theorem oneByte_isSome {a b : UInt8} : (oneByte a b).isSome ↔ IsDigit a ∧ IsDigit b := by
  unfold oneByte IsDigit
  cases value a <;> cases value b <;> simp

theorem twoBytes_isSome {a b c : UInt8} :
    (twoBytes a b c).isSome ↔ IsDigit a ∧ IsDigit b ∧ IsDigit c := by
  unfold twoBytes IsDigit
  cases value a <;> cases value b <;> cases value c <;> simp

theorem threeBytes_isSome {a b c d : UInt8} :
    (threeBytes a b c d).isSome ↔ IsDigit a ∧ IsDigit b ∧ IsDigit c ∧ IsDigit d := by
  unfold threeBytes IsDigit
  cases value a <;> cases value b <;> cases value c <;> cases value d <;> simp

theorem decode_cons (a b c : UInt8) {d : UInt8} {rest : List UInt8} (h : d ≠ 61 ∨ rest ≠ []) :
    decode (a :: b :: c :: d :: rest)
      = (threeBytes a b c d).bind fun bytes => (decode rest).map (bytes ++ ·) := by
  rw [decode]
  · rintro - rfl rfl
    rcases h with h | h
    · exact h rfl
    · exact h rfl
  · rintro rfl rfl
    rcases h with h | h
    · exact h rfl
    · exact h rfl

theorem padded_nil : Padded [] := ⟨rfl, [], [], rfl, by simp, .inl rfl⟩

theorem padded_last {a b c d : UInt8} :
    Padded [a, b, c, d] ↔ IsDigit a ∧ IsDigit b
      ∧ (IsDigit c ∧ IsDigit d ∨ IsDigit c ∧ d = 61 ∨ c = 61 ∧ d = 61) := by
  constructor
  · rintro ⟨-, digits, padding, heq, hdigits, hpadding⟩
    rcases hpadding with rfl | rfl | rfl
    · rw [List.append_nil] at heq
      subst heq
      simp only [List.forall_mem_cons] at hdigits
      exact ⟨hdigits.1, hdigits.2.1, .inl ⟨hdigits.2.2.1, hdigits.2.2.2.1⟩⟩
    · have hsplit : [a, b, c] ++ [d] = digits ++ [61] := heq
      obtain ⟨rfl, hd⟩ := List.append_inj' hsplit rfl
      simp only [List.forall_mem_cons] at hdigits
      exact ⟨hdigits.1, hdigits.2.1, .inr (.inl ⟨hdigits.2.2.1, (List.cons.inj hd).1⟩)⟩
    · have hsplit : [a, b] ++ [c, d] = digits ++ [61, 61] := heq
      obtain ⟨rfl, hcd⟩ := List.append_inj' hsplit rfl
      simp only [List.forall_mem_cons] at hdigits
      simp only [List.cons.injEq, and_true] at hcd
      exact ⟨hdigits.1, hdigits.2.1, .inr (.inr hcd)⟩
  · rintro ⟨ha, hb, ⟨hc, hd⟩ | ⟨hc, rfl⟩ | ⟨rfl, rfl⟩⟩
    · exact ⟨by simp, [a, b, c, d], [], rfl, by simp [ha, hb, hc, hd], .inl rfl⟩
    · exact ⟨by simp, [a, b, c], [61], rfl, by simp [ha, hb, hc], .inr (.inl rfl)⟩
    · exact ⟨by simp, [a, b], [61, 61], rfl, by simp [ha, hb], .inr (.inr rfl)⟩

theorem padded_cons {a b c d : UInt8} {rest : List UInt8} (hne : rest ≠ []) :
    Padded (a :: b :: c :: d :: rest)
      ↔ (IsDigit a ∧ IsDigit b ∧ IsDigit c ∧ IsDigit d) ∧ Padded rest := by
  have hpos := List.length_pos_iff.2 hne
  constructor
  · rintro ⟨hlen, digits, padding, heq, hdigits, hpadding⟩
    have hshort : padding.length ≤ 2 := by
      rcases hpadding with rfl | rfl | rfl <;> simp
    have hlong := congrArg List.length heq
    simp only [List.length_cons, List.length_append] at hlen hlong
    obtain ⟨a', b', c', d', digits, rfl⟩ : ∃ a' b' c' d' ds,
        digits = a' :: b' :: c' :: d' :: ds := by
      rcases digits with _ | ⟨a', _ | ⟨b', _ | ⟨c', _ | ⟨d', ds⟩⟩⟩⟩
      · simp only [List.length_nil] at hlong
        omega
      · simp only [List.length_cons, List.length_nil] at hlong
        omega
      · simp only [List.length_cons, List.length_nil] at hlong
        omega
      · simp only [List.length_cons, List.length_nil] at hlong
        omega
      · exact ⟨a', b', c', d', ds, rfl⟩
    simp only [List.cons_append, List.cons.injEq] at heq
    obtain ⟨rfl, rfl, rfl, rfl, rfl⟩ := heq
    simp only [List.forall_mem_cons] at hdigits
    exact ⟨⟨hdigits.1, hdigits.2.1, hdigits.2.2.1, hdigits.2.2.2.1⟩, by omega, digits, padding, rfl,
      hdigits.2.2.2.2, hpadding⟩
  · rintro ⟨⟨ha, hb, hc, hd⟩, hlen, digits, padding, rfl, hdigits, hpadding⟩
    refine ⟨?_, a :: b :: c :: d :: digits, padding, rfl, ?_, hpadding⟩
    · simp only [List.length_cons, List.length_append] at hlen ⊢
      omega
    · simpa [ha, hb, hc, hd] using hdigits

/-- Exactly the padded texts are decoded. -/
theorem decode_isSome_iff : ∀ t : List UInt8, (decode t).isSome ↔ Padded t
  | [] => by simp [decode, padded_nil]
  | [_] => by simp [decode, Padded]
  | [_, _] => by simp [decode, Padded]
  | [_, _, _] => by simp [decode, Padded]
  | [a, b, c, d] => by
    rw [padded_last]
    by_cases hd : d = 61
    · subst hd
      have hpad : ¬ IsDigit 61 := fun h => ne_padding_of_isDigit h rfl
      by_cases hc : c = 61
      · subst hc
        simp [decode, oneByte_isSome, hpad]
      · rw [decode]
        · simp [twoBytes_isSome, hc, hpad]
        · exact hc
    · rw [decode_cons a b c (.inl hd)]
      simp [decode, threeBytes_isSome, hd]
  | a :: b :: c :: d :: e :: rest => by
    rw [padded_cons (List.cons_ne_nil e rest), ← decode_isSome_iff (e :: rest),
      decode_cons a b c (.inr (List.cons_ne_nil e rest)), ← threeBytes_isSome]
    cases threeBytes a b c d <;> cases decode (e :: rest) <;> simp

theorem Padded.sign {t : List UInt8} (h : Padded t) : ∀ b ∈ t, IsDigit b ∨ b = 61 := by
  obtain ⟨-, digits, padding, rfl, hdigits, hpadding⟩ := h
  intro b hb
  rcases List.mem_append.1 hb with hb | hb
  · exact .inl (hdigits b hb)
  · right
    rcases hpadding with rfl | rfl | rfl
    · exact absurd hb List.not_mem_nil
    · simpa using hb
    · simpa using hb

theorem Padded.ascii {t : List UInt8} (h : Padded t) : ∀ b ∈ t, b < 0x80 := by
  intro b hb
  rcases h.sign b hb with hdigit | rfl
  · exact isDigit_ascii hdigit
  · decide

theorem ofNat_eq {n : ℕ} {x : UInt8} (h : n = x.toNat) : UInt8.ofNat n = x := by
  subst h
  exact UInt8.ofNat_toNat

theorem decode_encode : ∀ bytes : List UInt8, decode (encode bytes) = some bytes
  | [] => rfl
  | [x] => by
    have hx := x.toNat_lt
    simp only [encode, decode, oneByte, value_digit _ (show x.toNat / 4 < 64 by omega),
      value_digit _ (show x.toNat % 4 * 16 < 64 by omega), Option.bind_some, Option.map_some]
    rw [first, @ofNat_eq _ x (by omega)]
  | [x, y] => by
    have hx := x.toNat_lt
    have hy := y.toNat_lt
    have hc : digit (y.toNat % 16 * 4) ≠ 61 :=
      ne_padding_of_isDigit (isDigit_digit (by omega))
    rw [encode, decode]
    · simp only [twoBytes, value_digit _ (show x.toNat / 4 < 64 by omega),
        value_digit _ (show x.toNat % 4 * 16 + y.toNat / 16 < 64 by omega),
        value_digit _ (show y.toNat % 16 * 4 < 64 by omega), Option.bind_some, Option.map_some]
      rw [first, second, @ofNat_eq _ x (by omega),
        @ofNat_eq _ y (by omega)]
    · exact hc
  | x :: y :: z :: rest => by
    have hx := x.toNat_lt
    have hy := y.toNat_lt
    have hz := z.toNat_lt
    have hd : digit (z.toNat % 64) ≠ 61 := ne_padding_of_isDigit (isDigit_digit (by omega))
    rw [encode, decode_cons _ _ _ (.inl hd), decode_encode rest]
    simp only [threeBytes, value_digit _ (show x.toNat / 4 < 64 by omega),
      value_digit _ (show x.toNat % 4 * 16 + y.toNat / 16 < 64 by omega),
      value_digit _ (show y.toNat % 16 * 4 + z.toNat / 64 < 64 by omega),
      value_digit _ (show z.toNat % 64 < 64 by omega), Option.bind_some, Option.map_some]
    rw [first, second, third, @ofNat_eq _ x (by omega),
      @ofNat_eq _ y (by omega), @ofNat_eq _ z (by omega)]
    rfl

theorem padded_encode (bytes : List UInt8) : Padded (encode bytes) := by
  rw [← decode_isSome_iff, decode_encode]
  rfl

end Base64
