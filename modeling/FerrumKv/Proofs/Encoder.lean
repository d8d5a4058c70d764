import FerrumKv.Encoder
import FerrumKv.Lib.Resp

/-!
# Every encoder writes one value

Each encoder of a scalar or a bulk string writes a value of the protocol version it is used in, the
text of a scalar error must be one line (`value_error_iff`), and `write_ferrum_error` makes it one
(`value_writeFerrumError`). A header followed by as many values as it announces is a value. The double
of a finite number is a sign, digits, a point and at least one digit (`value_double`).
-/

namespace FerrumKv

/-- The version has the typed values of RESP3. -/
def ProtocolVersion.typed : ProtocolVersion → Bool
  | .resp2 => false
  | .resp3 => true

namespace Encoder

open Resp (Value Line Scalar Digits)

section Scalars

variable {typed : Bool}

theorem value_simple {t : Bytes} (h : Line t) : Value typed (encodeSimpleString t) :=
  .scalar (.simple h)

/-- An error is a value exactly if its text is one line. -/
theorem value_error_iff {t : Bytes} : Value typed (encodeError t) ↔ Line t := by
  constructor
  · intro h
    generalize hb : encodeError t = bs at h
    rcases h with @⟨mark, line, h⟩ | payload | h | ⟨_, hn, h⟩
    · simp only [encodeError, List.cons.injEq] at hb
      obtain ⟨rfl, hb⟩ := hb
      rw [show crlf = Resp.crlf from rfl, List.append_cancel_right_eq] at hb
      rw [hb]
      exact h.line
    · simp [encodeError, Resp.header] at hb
    · simp [encodeError, Resp.header] at hb
    · simp [encodeError, Resp.header] at hb
  · intro h
    exact .scalar (.error h)

theorem value_integer (n : Int64) : Value typed (encodeInteger n) :=
  .scalar (.integer ⟨n.le_toInt, n.toInt_lt⟩)

theorem value_bulk (payload : Bytes) : Value typed (encodeBulkString payload) := .bulk payload

theorem value_nullBulk : Value false encodeNullBulk := .scalar (.nullBulk rfl)

theorem value_null : Value true encodeNull := .scalar (.null rfl)

theorem value_boolean (b : Bool) : Value true (encodeBoolean b) := .scalar (.boolean rfl b)

end Scalars

section Aggregates

variable {typed : Bool}

theorem value_array {items : List Bytes} (h : ∀ x ∈ items, Value typed x) :
    Value typed (encodeArrayHeader items.length ++ items.flatten) := .array h

theorem value_map {n : ℕ} {items : List Bytes} (hn : items.length = 2 * n)
    (h : ∀ x ∈ items, Value true x) : Value true (encodeMapHeader n ++ items.flatten) :=
  .map rfl hn h

theorem value_array_flatMap {α : Type} (f : α → Bytes) (xs : List α)
    (h : ∀ x ∈ xs, Value typed (f x)) :
    Value typed (encodeArrayHeader xs.length ++ xs.flatMap f) := by
  have := @value_array typed (xs.map f) (by simpa using h)
  simpa [List.flatMap] using this

end Aggregates

section Doubles

theorem trimEndMatches_append {c : UInt8} {a b : Bytes} (h : a.getLast? ≠ some c) :
    trimEndMatches c (a ++ b) = a ++ trimEndMatches c b := by
  have ha : a.reverse.dropWhile (· = c) = a.reverse := by
    rw [List.getLast?_eq_head?_reverse] at h
    rcases hr : a.reverse with _ | ⟨x, xs⟩
    · rfl
    · rw [hr] at h
      simp only [List.head?_cons, ne_eq, Option.some.injEq] at h
      rw [List.dropWhile_cons_of_neg (by simpa using h)]
  unfold trimEndMatches
  rw [List.reverse_append, List.dropWhile_append]
  split_ifs with hb
  · rw [ha, List.isEmpty_iff.1 hb]
    simp
  · rw [List.reverse_append, List.reverse_reverse]

theorem mem_of_mem_trimEndMatches {c b : UInt8} {bytes : Bytes} (h : b ∈ trimEndMatches c bytes) :
    b ∈ bytes := by
  unfold trimEndMatches at h
  rw [List.mem_reverse] at h
  exact List.mem_reverse.1 ((List.dropWhile_sublist _).mem h)

theorem trim_fixed {x : UInt64} (h : Binary64.isFinite x = true) :
    ∃ (negative : Bool) (whole frac : Bytes), Digits whole ∧ (∀ b ∈ frac, Decimal.isDigit b = true) ∧
      trimEndMatches 48 (Binary64.fixed 17 x)
        = ((if negative then [45] else []) ++ whole ++ [46]) ++ frac := by
  refine ⟨Binary64.negative x, Decimal.ofNat (Binary64.scaled 17 x / 10 ^ 17),
    trimEndMatches 48 (Binary64.pad 17 (Binary64.scaled 17 x % 10 ^ 17)), Resp.digits_ofNat _,
    fun b hb => Binary64.isDigit_of_mem_pad (mem_of_mem_trimEndMatches hb), ?_⟩
  rw [← trimEndMatches_append (by simp), Binary64.fixed, if_pos h]
  simp

theorem value_double {x : UInt64} (h : Binary64.isFinite x = true) : Value true (encodeDouble x) := by
  obtain ⟨negative, whole, frac, hw, hf, heq⟩ := trim_fixed h
  unfold encodeDouble
  simp only [heq]
  rcases List.eq_nil_or_concat frac with rfl | ⟨init, last, rfl⟩
  · have hzero : Digits [48] := ⟨by simp, by simp [Decimal.isDigit]⟩
    rw [if_pos (by simp), List.append_nil, List.append_assoc _ [46] [48]]
    exact .scalar (.double rfl negative hw hzero)
  · have hlast : last ≠ 46 := by
      rintro rfl
      exact absurd (hf 46 (by simp)) (by decide)
    have hfrac : Digits (init ++ [last]) := ⟨by simp, by simpa using hf⟩
    have hend : ∀ a : Bytes, (a ++ (init ++ [last])).getLast? ≠ some 46 := by
      intro a
      rw [← List.append_assoc, List.getLast?_concat]
      simpa using hlast
    rw [List.concat_eq_append, if_neg (hend _), List.append_assoc _ [46]]
    exact .scalar (.double rfl negative hw hfrac)

end Doubles

theorem line_sanitise (detail : Bytes) : Line (sanitise detail) := by
  have hne : ∀ b ∈ sanitise detail, b ≠ 13 ∧ b ≠ 10 := by
    intro b hb
    obtain ⟨c, -, rfl⟩ := List.mem_map.1 hb
    split_ifs with hc
    · decide
    · exact not_or.1 hc
  exact ⟨fun h => (hne 13 h).1 rfl, fun h => (hne 10 h).2 rfl⟩

theorem line_code (e : ServerError) : Line e.code := by
  unfold ServerError.code
  split
  · decide
  · decide

theorem value_writeFerrumError {typed : Bool} (e : ServerError) :
    Value typed (writeFerrumError e) :=
  value_error_iff.2 ((line_code e).append ((line_sanitise _).cons (by decide) (by decide)))

end Encoder

end FerrumKv
