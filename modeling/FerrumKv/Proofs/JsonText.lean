import FerrumKv.Proofs.Codec

/-!
# The JSON that the dashboard writes

`json_string` is inverted by every reader of JSON strings (`text_jsonString`), and an object of the
dashboard is read as the fields it was made of (`text_jsonObject`).
-/

namespace FerrumKv.Dashboard

open Json (Spells Text Reads)

theorem spells_escape {b : UInt8} {body s : Bytes} (h : Spells body s) :
    Spells (jsonEscape b ++ body) (b :: s) := by
  unfold jsonEscape
  split_ifs with h1 h2 h3 h4 h5 h6
  · subst h1
    exact @Json.Spells.cons 92 [34] [34] body s (by decide) (fun _ => rfl) h
  · subst h2
    exact @Json.Spells.cons 92 [92] [92] body s (by decide) (fun _ => rfl) h
  · subst h3
    exact @Json.Spells.cons 92 [110] [10] body s (by decide) (fun _ => rfl) h
  · subst h4
    exact @Json.Spells.cons 92 [114] [13] body s (by decide) (fun _ => rfl) h
  · subst h5
    exact @Json.Spells.cons 92 [116] [9] body s (by decide) (fun _ => rfl) h
  · obtain ⟨hhi, hlo⟩ := hexValue_digits b
    have hsmall : b.toNat < 32 := UInt8.lt_iff_toNat_lt.1 h6
    have hunit : Json.codeUnit 48 48 (hexLower (b / 16)) (hexLower (b % 16)) = some b.toNat := by
      have hzero : Json.hexValue 48 = some 0 := by decide
      simp only [Json.codeUnit, hzero, hhi, hlo, Option.bind_some, Option.map_some,
        Option.some.injEq]
      omega
    refine @Json.Spells.cons 92 [117, 48, 48, hexLower (b / 16), hexLower (b % 16)] [b] body s
      (by decide) (fun rest => ?_) h
    show (Json.codeUnit 48 48 (hexLower (b / 16)) (hexLower (b % 16))).bind
      (fun u => Json.unicode u rest) = some ([b], 6)
    unfold Json.unicode Json.utf8
    rw [hunit, Option.bind_some, if_pos (.inl (by omega)), if_pos (by omega), UInt8.ofNat_toNat]
  · exact h.plain h6 h1 h2

theorem spells_flatMap : ∀ s : Bytes, Spells (s.flatMap jsonEscape) s
  | [] => Json.spells_nil
  | b :: s => by
    rw [List.flatMap_cons]
    exact spells_escape (spells_flatMap s)

theorem ascii_jsonEscape {b : UInt8} (hb : b < 0x80) : ∀ c ∈ jsonEscape b, c < 0x80 := by
  obtain ⟨hhi, hlo⟩ := hexValue_digits b
  unfold jsonEscape
  split_ifs
  · exact Utf8.ascii_of_all rfl
  · exact Utf8.ascii_of_all rfl
  · exact Utf8.ascii_of_all rfl
  · exact Utf8.ascii_of_all rfl
  · exact Utf8.ascii_of_all rfl
  · intro c hc
    rcases List.mem_append.1 hc with hc | hc
    · have hlow : ∀ c ∈ text "\\u00", c < 0x80 := Utf8.ascii_of_all rfl
      exact hlow c hc
    · simp only [List.mem_cons, List.not_mem_nil, or_false] at hc
      rcases hc with rfl | rfl
      · exact ascii_of_hexValue hhi
      · exact ascii_of_hexValue hlo
  · simpa using hb

theorem jsonEscape_high {b : UInt8} (hb : 0x80 ≤ b) : jsonEscape b = [b] := by
  have hne : ∀ c : UInt8, c < 0x80 → b ≠ c := by
    rintro c hc rfl
    exact absurd hb (UInt8.not_le.2 hc)
  unfold jsonEscape
  rw [if_neg (hne _ (by decide)), if_neg (hne _ (by decide)), if_neg (hne _ (by decide)),
    if_neg (hne _ (by decide)), if_neg (hne _ (by decide)), if_neg]
  intro hlow
  exact absurd (UInt8.lt_trans hlow (by decide)) (UInt8.not_lt.2 hb)

/-- JSON string parsing inverts `json_string`. -/
theorem text_jsonString {s : Bytes} (h : Utf8.valid s = true) :
    Text (jsonString s) (.string s) :=
  ⟨(spells_flatMap s).reads, Json.valid_bracketed (by decide) (by decide)
    (Utf8.valid_flatMap (fun _ hb => ascii_jsonEscape hb) (fun _ hb => jsonEscape_high hb) h)⟩

theorem text_jsonBool (b : Bool) : Text (jsonBool b) (.bool b) := by
  cases b with
  | true => exact ⟨Json.reads_true, rfl⟩
  | false => exact ⟨Json.reads_false, rfl⟩

theorem text_null : Text (text "null") .null := ⟨Json.reads_null, rfl⟩

theorem ascii_ofNat (n : ℕ) : ∀ b ∈ Decimal.ofNat n, b < 0x80 := by
  intro b hb
  have hdigit : 48 ≤ b.toNat ∧ b.toNat ≤ 57 := by
    simpa [Decimal.isDigit] using Decimal.isDigit_of_mem_ofNat hb
  exact UInt8.lt_iff_toNat_lt.2 (Nat.lt_of_le_of_lt hdigit.2 (by decide))

theorem text_nat (n : ℕ) : Text (Decimal.ofNat n) (.number (Decimal.ofNat n)) :=
  ⟨Json.reads_nat n, Utf8.valid_of_ascii _ (ascii_ofNat n)⟩

theorem text_i64 (n : Int64) : Text (i64ToString n) (.number (i64ToString n)) := by
  refine ⟨Json.reads_int n.toInt, Utf8.valid_of_ascii _ ?_⟩
  unfold i64ToString Decimal.ofInt
  split_ifs
  · rw [List.forall_mem_cons]
    exact ⟨by decide, ascii_ofNat _⟩
  · exact ascii_ofNat _

theorem text_base64 (bytes : Bytes) :
    Text (jsonString (base64Encode bytes)) (.string (base64Encode bytes)) :=
  text_jsonString (Utf8.valid_of_ascii _ (padded_base64Encode bytes).ascii)

def PlainName (name : String) : Prop :=
  ∀ b ∈ text name, b < 0x80 ∧ ¬ b < 32 ∧ b ≠ 34 ∧ b ≠ 92

instance (name : String) : Decidable (PlainName name) :=
  List.decidableBAll (fun b => b < 0x80 ∧ ¬ b < 32 ∧ b ≠ 34 ∧ b ≠ 92) (text name)

theorem text_jsonObject {fields : List (String × Bytes × Json)}
    (h : ∀ f ∈ fields, PlainName f.1 ∧ Text f.2.1 f.2.2) :
    Text (jsonObject (fields.map fun f => (f.1, f.2.1)))
      (.object (fields.map fun f => (text f.1, f.2.2))) := by
  have hobject := @Json.text_object (fields.map fun f => (text f.1, f.2.1, f.2.2))
    (by
      intro m hm
      obtain ⟨f, hf, rfl⟩ := List.mem_map.1 hm
      exact (h f hf).1)
    (by
      intro m hm
      obtain ⟨f, hf, rfl⟩ := List.mem_map.1 hm
      exact (h f hf).2)
  rw [List.map_map, List.map_map] at hobject
  have hbytes : jsonObject (fields.map fun f => (f.1, f.2.1))
      = 123 :: (Json.joined (fields.map fun f =>
          (34 :: (text f.1 ++ 34 :: 58 :: f.2.1), text f.1, f.2.2)) ++ [125]) := by
    have hquote : text "\"" = [34] := rfl
    have hcolon : text "\":" = [34, 58] := rfl
    have hmember : ((fun f : String × Bytes => text "\"" ++ text f.1 ++ text "\":" ++ f.2)
          ∘ fun f : String × Bytes × Json => (f.1, f.2.1))
        = (fun e : Bytes × Bytes × Json => e.1) ∘ fun f : String × Bytes × Json =>
          (34 :: (text f.1 ++ 34 :: 58 :: f.2.1), text f.1, f.2.2) := by
      funext f
      simp [hquote, hcolon]
    unfold jsonObject Json.joined
    rw [List.map_map, List.map_map, hmember]
    rfl
  rw [hbytes]
  exact hobject

end FerrumKv.Dashboard
