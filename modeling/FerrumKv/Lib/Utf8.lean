import Mathlib.Tactic

/-!
# UTF-8 byte strings

Which byte strings are UTF-8 (`valid`), and the text that replaces every maximal ill-formed part by
U+FFFD (`lossy`), both by one scan; and a text without the white space around it (`trim`). UTF-8 is
its own text (`lossy_of_valid`), a text has the ASCII bytes of what it was made from (`mem_lossy`),
and UTF-8 stays UTF-8 when it is joined (`valid_append`) or when its ASCII bytes are written in
other ASCII bytes (`valid_flatMap`).
-/

namespace Utf8

def isContinuation (b : UInt8) : Bool := decide (0x80 ≤ b ∧ b ≤ 0xBF)

/-- Whether `c` may follow the leading byte `b` of a sequence of three or four bytes: neither an
overlong form, nor a surrogate, nor a value above U+10FFFF. -/
def isSecond (b c : UInt8) : Bool :=
  if b = 0xE0 then decide (0xA0 ≤ c ∧ c ≤ 0xBF)
  else if b = 0xED then decide (0x80 ≤ c ∧ c ≤ 0x9F)
  else if b = 0xF0 then decide (0x90 ≤ c ∧ c ≤ 0xBF)
  else if b = 0xF4 then decide (0x80 ≤ c ∧ c ≤ 0x8F)
  else isContinuation c

/-- How many of the bytes pass the tests in turn, and whether every test was passed. -/
def follow : List (UInt8 → Bool) → List UInt8 → ℕ × Bool
  | [], _ => (0, true)
  | _ :: _, [] => (0, false)
  | p :: ps, c :: rest =>
    if p c then ((follow ps rest).1 + 1, (follow ps rest).2) else (0, false)

/-- How many of the bytes after `b` belong to the sequence that `b` leads, and whether it is
complete. -/
def sequence (b : UInt8) (rest : List UInt8) : ℕ × Bool :=
  if b < 0x80 then (0, true)
  else if 0xC2 ≤ b ∧ b ≤ 0xDF then follow [isContinuation] rest
  else if 0xE0 ≤ b ∧ b ≤ 0xEF then follow [isSecond b, isContinuation] rest
  else if 0xF0 ≤ b ∧ b ≤ 0xF4 then follow [isSecond b, isContinuation, isContinuation] rest
  else (0, false)

def validFrom : ℕ → List UInt8 → Bool
  | _, [] => true
  | skip + 1, _ :: rest => validFrom skip rest
  | 0, b :: rest => (sequence b rest).2 && validFrom (sequence b rest).1 rest

def valid (bs : List UInt8) : Bool := validFrom 0 bs

theorem ascii_of_all {bytes : List UInt8} (h : bytes.all (fun b => decide (b < 0x80)) = true) :
    ∀ b ∈ bytes, b < 0x80 := fun b hb => of_decide_eq_true (List.all_eq_true.1 h b hb)

theorem valid_of_ascii : ∀ bs : List UInt8, (∀ b ∈ bs, b < 0x80) → valid bs = true
  | [], _ => rfl
  | b :: bs, h => by
    rw [List.forall_mem_cons] at h
    have := valid_of_ascii bs h.2
    unfold valid validFrom sequence
    rwa [if_pos h.1]

def replacement : List UInt8 := [0xEF, 0xBF, 0xBD]

def lossyFrom : ℕ → List UInt8 → List UInt8
  | _, [] => []
  | skip + 1, _ :: rest => lossyFrom skip rest
  | 0, b :: rest =>
    (if (sequence b rest).2 then b :: rest.take (sequence b rest).1 else replacement)
      ++ lossyFrom (sequence b rest).1 rest

/-- The text of a byte string, with U+FFFD in the place of every ill-formed part. -/
def lossy (bs : List UInt8) : List UInt8 := lossyFrom 0 bs

theorem follow_le : ∀ (ps : List (UInt8 → Bool)) (rest : List UInt8),
    (follow ps rest).1 ≤ rest.length
  | [], _ => Nat.zero_le _
  | _ :: _, [] => Nat.zero_le _
  | p :: ps, c :: rest => by
    rw [follow]
    split_ifs
    · exact Nat.succ_le_succ (follow_le ps rest)
    · exact Nat.zero_le _

theorem passed_of_follow : ∀ (ps : List (UInt8 → Bool)) (rest : List UInt8),
    ∀ c ∈ rest.take (follow ps rest).1, ∃ p ∈ ps, p c = true
  | [], _, c, hc => by simp [follow] at hc
  | _ :: _, [], c, hc => by simp [follow] at hc
  | p :: ps, d :: rest, c, hc => by
    rw [follow] at hc
    split_ifs at hc with hp
    · rw [List.take_succ_cons, List.mem_cons] at hc
      rcases hc with rfl | hc
      · exact ⟨p, List.mem_cons_self, hp⟩
      · obtain ⟨q, hq, hqc⟩ := passed_of_follow ps rest c hc
        exact ⟨q, List.mem_cons_of_mem _ hq, hqc⟩
    · simp at hc

theorem follow_append : ∀ (ps : List (UInt8 → Bool)) (rest more : List UInt8),
    (follow ps rest).2 = true → follow ps (rest ++ more) = follow ps rest
  | [], _, _, _ => by simp [follow]
  | _ :: _, [], _, h => by simp [follow] at h
  | p :: ps, c :: rest, more, h => by
    rw [follow] at h
    rw [List.cons_append, follow, follow]
    split_ifs at h ⊢ with hp
    rw [follow_append ps rest more h]

theorem follow_take : ∀ (ps : List (UInt8 → Bool)) (rest : List UInt8), (follow ps rest).2 = true →
    follow ps (rest.take (follow ps rest).1) = follow ps rest
  | [], _, _ => by simp [follow]
  | _ :: _, [], h => by simp [follow] at h
  | p :: ps, c :: rest, h => by
    rw [follow] at h ⊢
    split_ifs at h ⊢ with hp
    rw [List.take_succ_cons, follow, if_pos hp, follow_take ps rest h]

theorem isSecond_high {b c : UInt8} (h : isSecond b c = true) : 0x80 ≤ c := by
  unfold isSecond isContinuation at h
  split_ifs at h <;> simp only [decide_eq_true_eq] at h
  · exact UInt8.le_trans (b := 0xA0) (by decide) h.1
  · exact h.1
  · exact UInt8.le_trans (b := 0x90) (by decide) h.1
  · exact h.1
  · exact h.1

/-- A leading byte asks for bytes above ASCII by the same tests, whatever follows it. -/
theorem sequence_eq (b : UInt8) :
    (∃ ps : List (UInt8 → Bool), (∀ p ∈ ps, ∀ c, p c = true → 0x80 ≤ c) ∧ sequence b = follow ps)
      ∨ 0x80 ≤ b ∧ sequence b = fun _ => (0, false) := by
  have hcont : ∀ c, isContinuation c = true → 0x80 ≤ c := by
    intro c hc
    unfold isContinuation at hc
    exact (of_decide_eq_true hc).1
  have hsecond : ∀ c, isSecond b c = true → 0x80 ≤ c := fun c => isSecond_high
  unfold sequence
  split_ifs with h1 h2 h3 h4
  · exact .inl ⟨[], by simp, by funext rest; rfl⟩
  · exact .inl ⟨[isContinuation], by simpa using hcont, rfl⟩
  · exact .inl ⟨[isSecond b, isContinuation], by simpa using ⟨hsecond, hcont⟩, rfl⟩
  · exact .inl ⟨[isSecond b, isContinuation, isContinuation], by simpa using ⟨hsecond, hcont⟩, rfl⟩
  · exact .inr ⟨UInt8.not_lt.1 h1, rfl⟩

theorem sequence_le (b : UInt8) (rest : List UInt8) : (sequence b rest).1 ≤ rest.length := by
  rcases sequence_eq b with ⟨ps, -, h⟩ | ⟨-, h⟩ <;> rw [h]
  · exact follow_le ps rest
  · exact Nat.zero_le _

theorem high_of_sequence {b c : UInt8} {rest : List UInt8}
    (hc : c ∈ rest.take (sequence b rest).1) : 0x80 ≤ c := by
  rcases sequence_eq b with ⟨ps, hps, h⟩ | ⟨-, h⟩ <;> rw [h] at hc
  · obtain ⟨p, hp, hpc⟩ := passed_of_follow ps rest c hc
    exact hps p hp c hpc
  · simp at hc

theorem sequence_append {b : UInt8} {rest : List UInt8} (h : (sequence b rest).2 = true)
    (more : List UInt8) : sequence b (rest ++ more) = sequence b rest := by
  rcases sequence_eq b with ⟨ps, -, hs⟩ | ⟨-, hs⟩ <;> rw [hs] at h ⊢
  exact follow_append ps rest more h

theorem sequence_take {b : UInt8} {rest : List UInt8} (h : (sequence b rest).2 = true) :
    sequence b (rest.take (sequence b rest).1) = sequence b rest := by
  rcases sequence_eq b with ⟨ps, -, hs⟩ | ⟨-, hs⟩ <;> rw [hs] at h ⊢
  exact follow_take ps rest h

theorem sequence_taken {b : UInt8} {rest : List UInt8} (h : (sequence b rest).2 = true) :
    sequence b (rest.take (sequence b rest).1)
      = ((rest.take (sequence b rest).1).length, true) := by
  rw [sequence_take h, List.length_take, min_eq_left (sequence_le b rest), ← h]

theorem high_of_incomplete {b : UInt8} {rest : List UInt8} (h : (sequence b rest).2 = false) :
    0x80 ≤ b := by
  by_contra hb
  rw [sequence, if_pos (UInt8.not_le.1 hb)] at h
  cases h

theorem validFrom_eq : ∀ (skip : ℕ) (bs : List UInt8), validFrom skip bs = valid (bs.drop skip)
  | 0, _ => rfl
  | _ + 1, [] => rfl
  | skip + 1, _ :: rest => validFrom_eq skip rest

theorem lossyFrom_eq : ∀ (skip : ℕ) (bs : List UInt8), lossyFrom skip bs = lossy (bs.drop skip)
  | 0, _ => rfl
  | _ + 1, [] => rfl
  | skip + 1, _ :: rest => lossyFrom_eq skip rest

theorem valid_cons (b : UInt8) (rest : List UInt8) :
    valid (b :: rest) = ((sequence b rest).2 && valid (rest.drop (sequence b rest).1)) := by
  rw [← validFrom_eq]
  rfl

theorem lossy_cons (b : UInt8) (rest : List UInt8) :
    lossy (b :: rest)
      = (if (sequence b rest).2 then b :: rest.take (sequence b rest).1 else replacement)
        ++ lossy (rest.drop (sequence b rest).1) := by
  rw [← lossyFrom_eq]
  rfl

/-- A text of UTF-8 is empty, or a complete sequence and such a text. -/
theorem valid_induction {P : List UInt8 → Prop} (nil : P [])
    (char : ∀ b cs rest, sequence b cs = (cs.length, true) → valid rest = true → P rest →
      P (b :: cs ++ rest)) : ∀ bs, valid bs = true → P bs
  | [], _ => nil
  | b :: rest, h => by
    rw [valid_cons, Bool.and_eq_true] at h
    have ih := valid_induction nil char (rest.drop (sequence b rest).1) h.2
    have hP := char b _ _ (sequence_taken h.1) h.2 ih
    rwa [List.cons_append, List.take_append_drop] at hP
termination_by bs => bs.length
decreasing_by
  rw [List.length_drop, List.length_cons]
  omega

theorem valid_char {b : UInt8} {cs : List UInt8} (h : sequence b cs = (cs.length, true))
    (more : List UInt8) : valid (b :: cs ++ more) = valid more := by
  rw [List.cons_append, valid_cons, sequence_append (by rw [h]), h]
  simp

theorem valid_append {bs : List UInt8} (h : valid bs = true) (more : List UInt8) :
    valid (bs ++ more) = valid more := by
  refine valid_induction (P := fun bs => valid (bs ++ more) = valid more) rfl ?_ bs h
  intro b cs rest hseq _ ih
  rw [List.append_assoc, valid_char hseq, ih]

/-- UTF-8 is its own text. -/
theorem lossy_of_valid {bs : List UInt8} (h : valid bs = true) : lossy bs = bs := by
  refine valid_induction (P := fun bs => lossy bs = bs) rfl ?_ bs h
  intro b cs rest hseq _ ih
  rw [List.cons_append, lossy_cons, sequence_append (by rw [hseq]), hseq]
  simp [ih]

theorem valid_lossy : ∀ bs : List UInt8, valid (lossy bs) = true
  | [] => rfl
  | b :: rest => by
    have ih := valid_lossy (rest.drop (sequence b rest).1)
    rw [lossy_cons]
    split_ifs with h
    · rw [valid_char (sequence_taken h), ih]
    · rw [valid_append (show valid replacement = true by decide), ih]
termination_by bs => bs.length
decreasing_by
  rw [List.length_drop, List.length_cons]
  omega

theorem lossy_eq_self_iff {bs : List UInt8} : lossy bs = bs ↔ valid bs = true :=
  ⟨fun h => h ▸ valid_lossy bs, lossy_of_valid⟩

theorem valid_of_lossy_ascii : ∀ bs : List UInt8, (∀ b ∈ lossy bs, b < 0x80) → valid bs = true
  | [], _ => rfl
  | b :: rest, hlow => by
    rw [lossy_cons, List.forall_mem_append] at hlow
    have ih := valid_of_lossy_ascii (rest.drop (sequence b rest).1) hlow.2
    by_cases h : (sequence b rest).2 = true
    · rw [valid_cons, h, ih]
      rfl
    · rw [if_neg h] at hlow
      exact absurd (hlow.1 0xEF (by decide)) (by decide)
termination_by bs => bs.length
decreasing_by
  rw [List.length_drop, List.length_cons]
  omega

theorem lossy_eq_iff_of_ascii {t : List UInt8} (ht : ∀ b ∈ t, b < 0x80) {bs : List UInt8} :
    lossy bs = t ↔ bs = t := by
  constructor
  · intro h
    rw [← h, lossy_of_valid (valid_of_lossy_ascii bs (h ▸ ht))]
  · rintro rfl
    exact lossy_of_valid (valid_of_ascii bs ht)

theorem valid_flatMap {f : UInt8 → List UInt8} (hlow : ∀ b < 0x80, ∀ c ∈ f b, c < 0x80)
    (hhigh : ∀ b, 0x80 ≤ b → f b = [b]) {bs : List UInt8} (h : valid bs = true) :
    valid (bs.flatMap f) = true := by
  refine valid_induction (P := fun bs => valid (bs.flatMap f) = true) rfl ?_ bs h
  intro b cs rest hseq _ ih
  rw [List.flatMap_append]
  by_cases hb : b < 0x80
  · have hcs : cs = [] := by
      rw [sequence, if_pos hb, Prod.mk.injEq] at hseq
      exact List.length_eq_zero_iff.1 hseq.1.symm
    subst hcs
    rw [valid_append (valid_of_ascii _ (by simpa using hlow b hb)), ih]
  · have hsame : (b :: cs).flatMap f = b :: cs := by
      have hcs : ∀ c ∈ cs, f c = [c] := by
        intro c hc
        have htake : c ∈ cs.take (sequence b cs).1 := by rwa [hseq, List.take_length]
        exact hhigh c (high_of_sequence htake)
      rw [List.flatMap_cons, hhigh b (UInt8.not_lt.1 hb), List.flatMap_congr hcs]
      simp
    rw [hsame, valid_char hseq, ih]

theorem mem_lossy {a : UInt8} (ha : a < 0x80) : ∀ bs : List UInt8, a ∈ lossy bs ↔ a ∈ bs
  | [] => Iff.rfl
  | b :: rest => by
    have ih := mem_lossy ha (rest.drop (sequence b rest).1)
    have htaken : a ∉ rest.take (sequence b rest).1 :=
      fun h => absurd (high_of_sequence h) (UInt8.not_le.2 ha)
    have hrest : a ∈ rest ↔ a ∈ rest.drop (sequence b rest).1 := by
      rw [← List.take_append_drop (sequence b rest).1 rest, List.mem_append,
        List.take_append_drop]
      exact or_iff_right htaken
    rw [lossy_cons, List.mem_append, ih, List.mem_cons, hrest]
    rcases hs : (sequence b rest).2 with _ | _
    · have hb : a ≠ b := fun h => absurd (high_of_incomplete hs) (UInt8.not_le.2 (h ▸ ha))
      have hnot : a ∉ replacement := by
        intro h
        revert ha
        fin_cases h <;> decide
      simp [hb, hnot]
    · simp [htaken]
termination_by bs => bs.length
decreasing_by
  rw [List.length_drop, List.length_cons]
  omega

def whiteSpace : List (List UInt8) :=
  [[9], [10], [11], [12], [13], [32], [0xC2, 0x85], [0xC2, 0xA0], [0xE1, 0x9A, 0x80],
    [0xE2, 0x80, 0x80], [0xE2, 0x80, 0x81], [0xE2, 0x80, 0x82], [0xE2, 0x80, 0x83],
    [0xE2, 0x80, 0x84], [0xE2, 0x80, 0x85], [0xE2, 0x80, 0x86], [0xE2, 0x80, 0x87],
    [0xE2, 0x80, 0x88], [0xE2, 0x80, 0x89], [0xE2, 0x80, 0x8A], [0xE2, 0x80, 0xA8],
    [0xE2, 0x80, 0xA9], [0xE2, 0x80, 0xAF], [0xE2, 0x81, 0x9F], [0xE3, 0x80, 0x80]]

/-- Drops `skip` bytes and then every leading occurrence of one of the words. -/
def dropWords (words : List (List UInt8)) : ℕ → List UInt8 → List UInt8
  | _, [] => []
  | skip + 1, _ :: rest => dropWords words skip rest
  | 0, b :: rest =>
    match words.find? fun w => w.isPrefixOf (b :: rest) with
    | some w => dropWords words (w.length - 1) rest
    | none => b :: rest

/-- A text without the white space at its two ends. Read backwards, a character of UTF-8 is its bytes
backwards. -/
def trim (bs : List UInt8) : List UInt8 :=
  (dropWords (whiteSpace.map List.reverse) 0 (dropWords whiteSpace 0 bs).reverse).reverse

end Utf8
