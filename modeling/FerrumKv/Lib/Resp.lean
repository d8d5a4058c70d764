import FerrumKv.Lib.Decimal

/-!
# The values of the RESP protocol

`Value typed bs` says that `bs` is exactly one value, of RESP2 or, with `typed`, of RESP3: a scalar is
one line after its mark, a bulk string carries its length, an array or a map the number of its
elements. No value goes on into another (`Value.append_inj`), so a stream of values is split in one
way only (`Value.flatten_inj`).
-/

namespace Resp

def crlf : List UInt8 := [13, 10]

/-- A text of one line. -/
def Line (bs : List UInt8) : Prop := 13 ∉ bs ∧ 10 ∉ bs

instance (bs : List UInt8) : Decidable (Line bs) := inferInstanceAs (Decidable (_ ∧ _))

def Digits (bs : List UInt8) : Prop := bs ≠ [] ∧ ∀ b ∈ bs, Decimal.isDigit b = true

/-- The scalars by their mark and their line. The last four are RESP3's; RESP2 has a null of its own.
A double is written without an exponent. -/
inductive Scalar (typed : Bool) : UInt8 → List UInt8 → Prop
  | simple {line : List UInt8} (h : Line line) : Scalar typed 43 line
  | error {line : List UInt8} (h : Line line) : Scalar typed 45 line
  | integer {z : ℤ} (h : -2 ^ 63 ≤ z ∧ z < 2 ^ 63) : Scalar typed 58 (Decimal.ofInt z)
  | nullBulk (h : typed = false) : Scalar typed 36 [45, 49]
  | null (h : typed = true) : Scalar typed 95 []
  | boolean (h : typed = true) (b : Bool) : Scalar typed 35 [if b then 116 else 102]
  | double (h : typed = true) (negative : Bool) {whole frac : List UInt8} (hw : Digits whole)
      (hf : Digits frac) :
      Scalar typed 44 ((if negative then [45] else []) ++ whole ++ 46 :: frac)

def header (mark : UInt8) (n : ℕ) : List UInt8 := mark :: (Decimal.ofNat n ++ crlf)

/-- The byte strings that are one value. -/
inductive Value (typed : Bool) : List UInt8 → Prop
  | scalar {mark : UInt8} {line : List UInt8} (h : Scalar typed mark line) :
      Value typed (mark :: (line ++ crlf))
  | bulk (payload : List UInt8) : Value typed (header 36 payload.length ++ (payload ++ crlf))
  | array {items : List (List UInt8)} (h : ∀ x ∈ items, Value typed x) :
      Value typed (header 42 items.length ++ items.flatten)
  | map (typed_eq : typed = true) {n : ℕ} {items : List (List UInt8)} (hn : items.length = 2 * n)
      (h : ∀ x ∈ items, Value typed x) : Value typed (header 37 n ++ items.flatten)

/-! ## Lines -/

theorem Digits.line {bs : List UInt8} (h : Digits bs) : Line bs := by
  constructor
  · exact fun hm => absurd (h.2 _ hm) (by decide)
  · exact fun hm => absurd (h.2 _ hm) (by decide)

theorem digits_ofNat (n : ℕ) : Digits (Decimal.ofNat n) :=
  ⟨Decimal.ofNat_ne_nil n, fun _ hb => Decimal.isDigit_of_mem_ofNat hb⟩

theorem line_append_iff {a b : List UInt8} : Line (a ++ b) ↔ Line a ∧ Line b := by
  simp only [Line, List.mem_append, not_or]
  tauto

theorem Line.append {a b : List UInt8} (ha : Line a) (hb : Line b) : Line (a ++ b) :=
  line_append_iff.2 ⟨ha, hb⟩

theorem line_intercalate_iff {sep : List UInt8} (h : Line sep) :
    ∀ lines : List (List UInt8), Line (List.intercalate sep lines) ↔ ∀ l ∈ lines, Line l
  | [] => by simp [Line]
  | [l] => by simp
  | l :: l' :: lines => by
    have ih := line_intercalate_iff h (l' :: lines)
    rw [List.intercalate_cons_cons, line_append_iff, line_append_iff, ih,
      List.forall_mem_cons (l := l' :: lines)]
    tauto

theorem Line.cons {c : UInt8} {bs : List UInt8} (h : Line bs) (h1 : c ≠ 13) (h2 : c ≠ 10) :
    Line (c :: bs) := by
  constructor
  · simp [h.1, h1.symm]
  · simp [h.2, h2.symm]

theorem line_ofInt (z : ℤ) : Line (Decimal.ofInt z) := by
  unfold Decimal.ofInt
  split_ifs
  · exact (digits_ofNat _).line.cons (by decide) (by decide)
  · exact (digits_ofNat _).line

theorem Scalar.line {typed : Bool} {mark : UInt8} {line : List UInt8}
    (h : Scalar typed mark line) : Line line := by
  rcases h with h | h | _ | _ | _ | ⟨_, b⟩ | ⟨_, negative, hw, hf⟩
  · exact h
  · exact h
  · exact line_ofInt _
  · decide
  · decide
  · cases b <;> decide
  · refine Line.append (Line.append ?_ hw.line) (hf.line.cons (by decide) (by decide))
    cases negative <;> decide

theorem line_append_inj : ∀ {l l' x y : List UInt8}, Line l → Line l' →
    l ++ crlf ++ x = l' ++ crlf ++ y → l = l' ∧ x = y
  | [], [], x, y, _, _, h => by simpa [crlf] using h
  | [], c :: l', x, y, _, h', h => by
    simp only [crlf, List.nil_append, List.cons_append, List.cons.injEq] at h
    exact absurd h'.1 (by simp [← h.1])
  | c :: l, [], x, y, h', _, h => by
    simp only [crlf, List.nil_append, List.cons_append, List.cons.injEq] at h
    exact absurd h'.1 (by simp [h.1])
  | c :: l, c' :: l', x, y, h1, h2, h => by
    simp only [List.cons_append, List.cons.injEq] at h
    obtain ⟨rfl, h⟩ := h
    have hl : Line l := ⟨fun hm => h1.1 (.tail _ hm), fun hm => h1.2 (.tail _ hm)⟩
    have hl' : Line l' := ⟨fun hm => h2.1 (.tail _ hm), fun hm => h2.2 (.tail _ hm)⟩
    obtain ⟨rfl, hxy⟩ := line_append_inj hl hl' h
    exact ⟨rfl, hxy⟩

theorem ofNat_injective {m n : ℕ} (h : Decimal.ofNat m = Decimal.ofNat n) : m = n := by
  rw [← Decimal.value_ofNat m, h, Decimal.value_ofNat]

/-! ## Where a value ends -/

/-- A value by its first line: the mark, the rest of the line, and what follows the line. -/
theorem Value.first_line {typed : Bool} {a : List UInt8} (h : Value typed a) :
    ∃ mark line rest, Line line ∧ a = mark :: (line ++ crlf) ++ rest := by
  rcases h with h | payload | h | ⟨_, hn, h⟩
  · exact ⟨_, _, [], h.line, (List.append_nil _).symm⟩
  · exact ⟨_, _, _, (digits_ofNat _).line, rfl⟩
  · exact ⟨_, _, _, (digits_ofNat _).line, rfl⟩
  · exact ⟨_, _, _, (digits_ofNat _).line, rfl⟩

theorem Value.ne_nil {typed : Bool} {a : List UInt8} (h : Value typed a) : a ≠ [] := by
  obtain ⟨mark, line, rest, -, rfl⟩ := h.first_line
  simp

/-- Two byte strings that go on alike after the first line have equal first lines. -/
theorem first_line_inj {mark mark' : UInt8} {l l' x y : List UInt8} (h1 : Line l) (h2 : Line l')
    (h : mark :: (l ++ crlf) ++ x = mark' :: (l' ++ crlf) ++ y) : mark = mark' ∧ l = l' ∧ x = y := by
  simp only [List.cons_append, List.cons.injEq] at h
  obtain ⟨hm, h⟩ := h
  exact ⟨hm, line_append_inj h1 h2 h⟩

theorem header_inj {mark : UInt8} {m n : ℕ} {x y : List UInt8}
    (h : header mark m ++ x = header mark n ++ y) : m = n ∧ x = y := by
  obtain ⟨-, hl, hxy⟩ := first_line_inj (digits_ofNat m).line (digits_ofNat n).line h
  exact ⟨ofNat_injective hl, hxy⟩

/-- Elements that each end in one place, as many on both sides, are the same elements. -/
theorem items_inj {typed : Bool} : ∀ {items items' : List (List UInt8)} {x y : List UInt8},
    (∀ a ∈ items, ∀ b x y, Value typed b → a ++ x = b ++ y → a = b) →
    (∀ b ∈ items', Value typed b) → items.length = items'.length →
    items.flatten ++ x = items'.flatten ++ y → items = items'
  | [], [], _, _, _, _, _, _ => rfl
  | [], _ :: _, _, _, _, _, hl, _ => by simp at hl
  | _ :: _, [], _, _, _, _, hl, _ => by simp at hl
  | a :: items, b :: items', x, y, ih, hb, hl, h => by
    simp only [List.flatten_cons, List.append_assoc] at h
    have hab : a = b := ih a List.mem_cons_self b _ _ (hb b List.mem_cons_self) h
    subst hab
    rw [List.append_cancel_left_eq] at h
    simp only [List.length_cons, Nat.add_right_cancel_iff] at hl
    rw [items_inj (fun c hc => ih c (.tail _ hc)) (fun c hc => hb c (.tail _ hc)) hl h]

theorem scalar_header {typed : Bool} {mark mark' : UInt8} {n : ℕ} {line x y : List UInt8}
    (h : Scalar typed mark line)
    (heq : mark :: (line ++ crlf) ++ x = header mark' n ++ y)
    (hm : mark' = 36 ∨ mark' = 42 ∨ mark' = 37) : False := by
  obtain ⟨rfl, rfl, -⟩ := first_line_inj h.line (digits_ofNat n).line heq
  have hd := (digits_ofNat n).2
  generalize hl : Decimal.ofNat n = line at h hd
  cases h with
  | nullBulk => exact absurd (hd 45 List.mem_cons_self) (by decide)
  | _ => simp at hm

/-- A value does not go on into another. -/
theorem Value.append_inj {typed : Bool} {a : List UInt8} (ha : Value typed a) :
    ∀ b x y, Value typed b → a ++ x = b ++ y → a = b := by
  induction ha with
  | scalar h =>
    intro b x y hb heq
    rcases hb with h' | payload | h' | ⟨_, hn, h'⟩
    · obtain ⟨rfl, rfl, -⟩ := first_line_inj h.line h'.line heq
      rfl
    · rw [List.append_assoc] at heq
      exact (scalar_header h heq (by simp)).elim
    · rw [List.append_assoc] at heq
      exact (scalar_header h heq (by simp)).elim
    · rw [List.append_assoc] at heq
      exact (scalar_header h heq (by simp)).elim
  | bulk payload =>
    intro b x y hb heq
    rw [List.append_assoc] at heq
    rcases hb with h' | payload' | h' | ⟨_, hn, h'⟩
    · exact (scalar_header h' heq.symm (by simp)).elim
    · simp only [List.append_assoc] at heq
      obtain ⟨hlen, heq'⟩ := header_inj heq
      rw [(List.append_inj heq' hlen).1]
    · simp [header] at heq
    · simp [header] at heq
  | array h ih =>
    intro b x y hb heq
    rw [List.append_assoc] at heq
    rcases hb with h' | payload' | h' | ⟨_, hn, h'⟩
    · exact (scalar_header h' heq.symm (by simp)).elim
    · simp [header] at heq
    · rw [List.append_assoc] at heq
      obtain ⟨hlen, heq'⟩ := header_inj heq
      rw [items_inj ih h' hlen heq']
    · simp [header] at heq
  | map _ hn h ih =>
    intro b x y hb heq
    rw [List.append_assoc] at heq
    rcases hb with h' | payload' | h' | ⟨_, hn', h'⟩
    · exact (scalar_header h' heq.symm (by simp)).elim
    · simp [header] at heq
    · simp [header] at heq
    · rw [List.append_assoc] at heq
      obtain ⟨rfl, heq'⟩ := header_inj heq
      rw [items_inj ih h' (hn.trans hn'.symm) heq']

/-- A stream of values is split into values in one way only. -/
theorem Value.flatten_inj {typed : Bool} : ∀ {vs ws : List (List UInt8)},
    (∀ v ∈ vs, Value typed v) → (∀ w ∈ ws, Value typed w) → vs.flatten = ws.flatten → vs = ws
  | [], [], _, _, _ => rfl
  | [], w :: ws, _, hw, h => by
    have := (hw w List.mem_cons_self).ne_nil
    simp_all
  | v :: vs, [], hv, _, h => by
    have := (hv v List.mem_cons_self).ne_nil
    simp_all
  | v :: vs, w :: ws, hv, hw, h => by
    rw [List.flatten_cons, List.flatten_cons] at h
    have hvw : v = w :=
      (hv v List.mem_cons_self).append_inj w _ _ (hw w List.mem_cons_self) h
    subst hvw
    rw [List.append_cancel_left_eq] at h
    rw [flatten_inj (fun x hx => hv x (.tail _ hx)) (fun x hx => hw x (.tail _ hx)) h]

end Resp
