import Mathlib.Data.List.Forall2
import Mathlib.Data.List.TakeDrop
import Mathlib.Tactic

/-!
# Texts that split into pieces

A text is matched by a list of tokens when it splits into as many consecutive pieces, each of which
its token accepts (`Splits`). The rules here read the first token off: one that takes a single
element (`splits_one`) and one that takes anything (`splits_all`).
-/

variable {τ α : Type*} {accepts : τ → List α → Prop} {tok : τ} {toks : List τ} {text : List α}

/-- The text is a concatenation of pieces that the tokens accept in turn. -/
def Splits (accepts : τ → List α → Prop) (toks : List τ) (text : List α) : Prop :=
  ∃ pieces : List (List α), pieces.flatten = text ∧ List.Forall₂ accepts toks pieces

theorem splits_nil : Splits accepts [] text ↔ text = [] := by
  constructor
  · rintro ⟨pieces, rfl, h⟩
    rw [List.forall₂_nil_left_iff.1 h]
    rfl
  · rintro rfl
    exact ⟨[], rfl, .nil⟩

theorem splits_cons : Splits accepts (tok :: toks) text
    ↔ ∃ piece rest, text = piece ++ rest ∧ accepts tok piece ∧ Splits accepts toks rest := by
  constructor
  · rintro ⟨pieces, rfl, h⟩
    obtain ⟨piece, rest, hpiece, hrest, rfl⟩ := List.forall₂_cons_left_iff.1 h
    exact ⟨piece, rest.flatten, List.flatten_cons, hpiece, rest, rfl, hrest⟩
  · rintro ⟨piece, rest, rfl, hpiece, pieces, rfl, hrest⟩
    exact ⟨piece :: pieces, List.flatten_cons, .cons hpiece hrest⟩

theorem splits_one {p : α → Prop} {a : α}
    (htok : ∀ piece, accepts tok piece ↔ ∃ a, piece = [a] ∧ p a) :
    Splits accepts (tok :: toks) (a :: text) ↔ p a ∧ Splits accepts toks text := by
  rw [splits_cons]
  constructor
  · rintro ⟨piece, rest, heq, hpiece, hrest⟩
    obtain ⟨b, rfl, hb⟩ := (htok piece).1 hpiece
    obtain ⟨rfl, rfl⟩ := List.cons.inj heq
    exact ⟨hb, hrest⟩
  · rintro ⟨ha, hrest⟩
    exact ⟨[a], text, rfl, (htok [a]).2 ⟨a, rfl, ha⟩, hrest⟩

theorem not_splits_nil (htok : ¬accepts tok []) : ¬Splits accepts (tok :: toks) [] := by
  rw [splits_cons]
  rintro ⟨piece, rest, heq, hpiece, -⟩
  rw [(List.nil_eq_append_iff.1 heq).1] at hpiece
  exact htok hpiece

/-- A token that accepts everything leaves any tail of the text to the others. -/
theorem splits_all (htok : ∀ piece, accepts tok piece) :
    Splits accepts (tok :: toks) text ↔ ∃ rest, rest <:+ text ∧ Splits accepts toks rest := by
  rw [splits_cons]
  constructor
  · rintro ⟨piece, rest, rfl, -, hrest⟩
    exact ⟨rest, List.suffix_append _ _, hrest⟩
  · rintro ⟨rest, ⟨piece, rfl⟩, hrest⟩
    exact ⟨piece, rest, rfl, htok piece, hrest⟩

theorem splits_all_all (htok : ∀ piece, accepts tok piece) :
    Splits accepts (tok :: tok :: toks) text ↔ Splits accepts (tok :: toks) text := by
  rw [splits_all htok, splits_all htok]
  constructor
  · rintro ⟨mid, hmid, h⟩
    obtain ⟨rest, hrest, h⟩ := (splits_all htok).1 h
    exact ⟨rest, hrest.trans hmid, h⟩
  · rintro ⟨rest, hrest, h⟩
    exact ⟨rest, hrest, (splits_all htok).2 ⟨rest, List.suffix_refl _, h⟩⟩
