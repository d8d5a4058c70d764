import FerrumKv.Entry

/-!
# Facts about entries and machine integers

Printing and parsing an `i64` are inverse, and a deadline that fits an `i64` survives the conversion
to epoch milliseconds when both clocks read the same.
-/

namespace FerrumKv

theorem i64_ofInt_toInt (n : Int64) : Int64.ofInt n.toInt = n := by
  simp

theorem parseI64_i64ToString (n : Int64) : parseI64 (i64ToString n) = some n := by
  have h1 := n.le_toInt
  have h2 := n.toInt_lt
  unfold parseI64 i64ToString
  rw [Decimal.toInt?_ofInt, Option.bind_some, if_pos ⟨h1, h2⟩, i64_ofInt_toInt]

theorem length_i64ToString_le (n : Int64) : (i64ToString n).length ≤ 20 := by
  have h1 := n.le_toInt
  have h2 := n.toInt_lt
  have hlen : (Decimal.ofNat n.toInt.natAbs).length ≤ 19 :=
    Decimal.length_ofNat_le (by omega) (by omega)
  unfold i64ToString Decimal.ofInt
  split_ifs
  · rw [List.length_cons]
    omega
  · omega

theorem isExpired_iff {e : ValueEntry} {now : ℕ} :
    e.isExpired now = true ↔ ∃ d, e.expireAt = some d ∧ d ≤ now := by
  unfold ValueEntry.isExpired
  cases e.expireAt <;> simp

theorem isExpired_mono {e : ValueEntry} {t T : ℕ} (hT : t ≤ T) (h : e.isExpired t = true) :
    e.isExpired T = true := by
  rw [isExpired_iff] at h ⊢
  obtain ⟨d, hd, hle⟩ := h
  exact ⟨d, hd, hle.trans hT⟩

theorem toInt_saturatingAdd {a b : Int64} (h : a.toInt + b.toInt < 2 ^ 63)
    (h' : -2 ^ 63 ≤ a.toInt + b.toInt) : (saturatingAdd a b).toInt = a.toInt + b.toInt := by
  unfold saturatingAdd
  rw [Int64.toInt_ofInt_of_le] <;> omega

/-- A deadline after `now` is converted exactly by clocks that read the same. -/
theorem deadlineToEpochMs_eq {d now : ℕ} {epochMs : Int64} (he : epochMs.toInt = now)
    (hlt : now < d) (hd : d < 2 ^ 63) :
    ∃ absMs, deadlineToEpochMs d now epochMs = some absMs ∧ absMs.toInt = d := by
  obtain ⟨n, rfl⟩ : ∃ n, d = now + n := ⟨d - now, by omega⟩
  have hn : (Int64.ofInt n).toInt = n := Int64.toInt_ofInt_of_le (by omega) (by omega)
  unfold deadlineToEpochMs
  rw [if_neg (by omega), Nat.add_sub_cancel_left]
  refine ⟨_, rfl, ?_⟩
  rw [toInt_saturatingAdd] <;> omega

end FerrumKv
