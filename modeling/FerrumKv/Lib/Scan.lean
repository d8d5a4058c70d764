import Mathlib.Data.List.Basic

/-!
# Scanning a list

Cutting a list at a separator and looking for a list inside another. What is found stays where it is
when more elements follow (`find_append`).
-/

namespace Scan

variable {α : Type*} [DecidableEq α]

/-- The pieces between the separators; there is one more of them than of separators. -/
def split (sep : α) : List α → List (List α)
  | [] => [[]]
  | b :: bs =>
    if b = sep then [] :: split sep bs
    else
      match split sep bs with
      | [] => [[b]]
      | piece :: pieces => (b :: piece) :: pieces

/-- What stands before and after the first separator. -/
def cut (sep : α) : List α → Option (List α × List α)
  | [] => none
  | b :: bs => if b = sep then some ([], bs) else (cut sep bs).map fun p => (b :: p.1, p.2)

/-- Where `needle` first begins. -/
def find (needle : List α) : List α → Option ℕ
  | [] => none
  | b :: bs => if needle <+: b :: bs then some 0 else (find needle bs).map (· + 1)

theorem find_le {needle : List α} : ∀ {hay : List α} {pos : ℕ}, find needle hay = some pos →
    pos + needle.length ≤ hay.length
  | [], _, h => by simp [find] at h
  | b :: bs, pos, h => by
    simp only [find] at h
    split_ifs at h with hp
    · cases h
      simpa using hp.length_le
    · obtain ⟨p, hf, rfl⟩ := Option.map_eq_some_iff.mp h
      have := find_le hf
      simp only [List.length_cons]
      omega

theorem find_append {needle : List α} (more : List α) : ∀ {hay : List α} {pos : ℕ},
    find needle hay = some pos → find needle (hay ++ more) = some pos
  | [], _, h => by simp [find] at h
  | b :: bs, pos, h => by
    simp only [find] at h
    simp only [List.cons_append, find]
    split_ifs at h with hp
    · have hlong : needle <+: b :: (bs ++ more) := hp.trans (List.prefix_append (b :: bs) more)
      rw [if_pos hlong]
      exact h
    · obtain ⟨p, hf, rfl⟩ := Option.map_eq_some_iff.mp h
      have hlen := find_le hf
      rw [if_neg, find_append more hf, Option.map_some]
      intro hlong
      refine hp (List.prefix_of_prefix_length_le hlong (List.prefix_append (b :: bs) more) ?_)
      simp only [List.length_cons]
      omega

theorem prefix_drop_of_find {needle : List α} : ∀ {hay : List α} {pos : ℕ},
    find needle hay = some pos → needle <+: hay.drop pos
  | [], _, h => by simp [find] at h
  | b :: bs, pos, h => by
    simp only [find] at h
    split_ifs at h with hp
    · cases h
      exact hp
    · obtain ⟨p, hf, rfl⟩ := Option.map_eq_some_iff.mp h
      rw [List.drop_succ_cons]
      exact prefix_drop_of_find hf

theorem split_ne_nil (sep : α) : ∀ l : List α, split sep l ≠ []
  | [] => by simp [split]
  | b :: bs => by
    simp only [split]
    split_ifs
    · simp
    · split <;> simp

theorem split_append (sep : α) (r : List α) : ∀ l : List α,
    split sep (l ++ sep :: r) = split sep l ++ split sep r
  | [] => by simp [split]
  | b :: bs => by
    simp only [List.cons_append, split, split_append sep r bs]
    split_ifs
    · rfl
    · rcases h : split sep bs with _ | ⟨piece, pieces⟩
      · exact absurd h (split_ne_nil sep bs)
      · rfl

theorem headD_split_cons {sep b : α} (hb : b ≠ sep) (l : List α) :
    (split sep (b :: l)).headD [] = b :: (split sep l).headD [] := by
  simp only [split, if_neg hb]
  rcases h : split sep l with _ | ⟨piece, pieces⟩
  · exact absurd h (split_ne_nil sep l)
  · rfl

theorem eq_headD_split_append (sep : α) : ∀ l : List α, sep ∉ (split sep l).headD []
    ∧ ∃ path, l = (split sep l).headD [] ++ path ∧ (path = [] ∨ path.head? = some sep)
  | [] => by simp [split]
  | b :: bs => by
    by_cases hb : b = sep
    · subst hb
      simp [split]
    · obtain ⟨hmem, path, hpath, hend⟩ := eq_headD_split_append sep bs
      rw [headD_split_cons hb]
      refine ⟨?_, path, by rw [List.cons_append, ← hpath], hend⟩
      rw [List.mem_cons, not_or]
      exact ⟨Ne.symm hb, hmem⟩

theorem headD_split_append {sep : α} {path : List α} (hend : path = [] ∨ path.head? = some sep) :
    ∀ {l : List α}, sep ∉ l → (split sep (l ++ path)).headD [] = l
  | [], _ => by
    rcases path with _ | ⟨b, path⟩
    · rfl
    · have hb : b = sep := by simpa using hend
      simp [split, hb]
  | b :: bs, hmem => by
    rw [List.mem_cons, not_or] at hmem
    rw [List.cons_append, headD_split_cons (Ne.symm hmem.1), headD_split_append hend hmem.2]

theorem headD_split_eq_iff {sep : α} {l piece : List α} : (split sep l).headD [] = piece
    ↔ sep ∉ piece ∧ ∃ path, l = piece ++ path ∧ (path = [] ∨ path.head? = some sep) := by
  constructor
  · rintro rfl
    exact eq_headD_split_append sep l
  · rintro ⟨hmem, path, rfl, hend⟩
    exact headD_split_append hend hmem

theorem split_concat {sep c : α} (hc : c ≠ sep) : ∀ l : List α, ∃ pieces last,
    split sep l = pieces ++ [last] ∧ split sep (l ++ [c]) = pieces ++ [last ++ [c]]
  | [] => ⟨[], [], by simp [split], by simp [split, hc]⟩
  | b :: bs => by
    obtain ⟨pieces, last, h, h'⟩ := split_concat hc bs
    simp only [List.cons_append, split, h, h']
    split_ifs
    · exact ⟨[] :: pieces, last, rfl, rfl⟩
    · rcases pieces with _ | ⟨piece, pieces⟩
      · exact ⟨[], b :: last, rfl, rfl⟩
      · exact ⟨(b :: piece) :: pieces, last, rfl, rfl⟩

theorem cut_concat {sep c : α} (hc : c ≠ sep) : ∀ l : List α,
    cut sep (l ++ [c]) = (cut sep l).map fun p => (p.1, p.2 ++ [c])
  | [] => by simp [cut, hc]
  | b :: bs => by
    simp only [List.cons_append, cut]
    split_ifs
    · rfl
    · rw [cut_concat hc bs, Option.map_map, Option.map_map]
      rfl

theorem split_of_notMem {sep : α} : ∀ {l : List α}, sep ∉ l → split sep l = [l]
  | [], _ => rfl
  | b :: l, h => by
    rw [List.mem_cons, not_or] at h
    rw [split, if_neg (Ne.symm h.1), split_of_notMem h.2]

theorem cut_append {sep : α} (rest : List α) : ∀ {l : List α}, sep ∉ l →
    cut sep (l ++ sep :: rest) = some (l, rest)
  | [], _ => by simp [cut]
  | b :: l, h => by
    rw [List.mem_cons, not_or] at h
    rw [List.cons_append, cut, if_neg (Ne.symm h.1), cut_append rest h.2]
    rfl

end Scan
