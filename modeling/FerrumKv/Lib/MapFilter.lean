import Mathlib.Data.List.AList
import Mathlib.Tactic

/-!
# Filtering association lists

The bindings of a finite map that satisfy a predicate, what they are looked up as, and that maps
with the same lookups have the same bindings up to order.
-/

namespace AList

variable {α : Type*} {β γ : Type*}

def filter (p : α → β → Bool) (s : AList fun _ : α => β) : AList fun _ : α => β where
  entries := s.entries.filter fun e => p e.1 e.2
  nodupKeys := s.nodupKeys.sublist List.filter_sublist

variable [DecidableEq α]

theorem lookup_filter (p : α → β → Bool) (s : AList fun _ : α => β) (a : α) :
    (s.filter p).lookup a = (s.lookup a).filter (p a) := by
  ext b
  change b ∈ (s.filter p).lookup a ↔ _
  rw [AList.mem_lookup_iff, Option.filter_eq_some_iff, ← Option.mem_def, AList.mem_lookup_iff]
  exact List.mem_filter

theorem kerase_eq_filter (a : α) : ∀ {l : List (Σ _ : α, β)}, l.NodupKeys →
    l.kerase a = l.filter fun e => decide (e.1 ≠ a)
  | [], _ => rfl
  | ⟨a', b⟩ :: l, h => by
    obtain ⟨hnot, hnd⟩ := List.nodupKeys_cons.1 h
    by_cases ha : a = a'
    · subst ha
      have hall : ∀ e ∈ l, decide (e.1 ≠ a) = true := by
        intro e he
        refine decide_eq_true fun hk => hnot ?_
        have hmem : e.1 ∈ l.keys := List.mem_map_of_mem he
        rwa [hk] at hmem
      have hhead : List.kerase a (⟨a, b⟩ :: l) = l := List.kerase_cons_eq rfl
      rw [hhead, List.filter_cons, if_neg (by simp), List.filter_eq_self.2 hall]
    · have hne : a' ≠ a := Ne.symm ha
      have hhead : List.kerase a (⟨a', b⟩ :: l) = ⟨a', b⟩ :: l.kerase a := List.kerase_cons_ne ha
      rw [hhead, List.filter_cons, if_pos (by simp [hne]), kerase_eq_filter a hnd]

theorem entries_eraseAll : ∀ (keys : List α) (s : AList fun _ : α => β),
    (keys.foldl (fun s a => s.erase a) s).entries
      = s.entries.filter fun e => decide (e.1 ∉ keys)
  | [], s => by simp
  | a :: keys, s => by
    have herase : (s.erase a).entries = s.entries.kerase a := rfl
    rw [List.foldl_cons, entries_eraseAll keys, herase, kerase_eq_filter a s.nodupKeys,
      List.filter_filter]
    refine List.filter_congr fun e _ => ?_
    simp [Bool.and_comm]

omit [DecidableEq α] in
theorem keys_filterMap_sublist (g : β → Option γ) : ∀ l : List (Σ _ : α, β),
    ((l.filterMap fun e => (g e.2).map fun c => (⟨e.1, c⟩ : Σ _ : α, γ)).map Sigma.fst).Sublist
      (l.map Sigma.fst)
  | [] => .slnil
  | ⟨a, b⟩ :: l => by
    have ih := keys_filterMap_sublist g l
    cases hb : g b with
    | none =>
      rw [List.filterMap_cons_none (by simp [hb])]
      exact ih.cons a
    | some c =>
      rw [List.filterMap_cons_some (b := ⟨a, c⟩) (by simp [hb])]
      exact ih.cons_cons a

/-- A map whose lookups are those of `s` mapped by `g` has the bindings of `s` mapped by `g`, up to
order. -/
theorem perm_of_lookup {s : AList fun _ : α => β} {m : AList fun _ : α => γ} {g : β → Option γ}
    (h : ∀ a, (s.lookup a).bind g = m.lookup a) :
    (s.entries.filterMap fun e => (g e.2).map fun c => (⟨e.1, c⟩ : Σ _ : α, γ)).Perm m.entries := by
  have hkeys : (s.entries.filterMap fun e =>
      (g e.2).map fun c => (⟨e.1, c⟩ : Σ _ : α, γ)).NodupKeys :=
    List.Nodup.sublist (keys_filterMap_sublist g s.entries) s.nodupKeys
  refine List.lookup_ext hkeys m.nodupKeys fun a c => ?_
  rw [List.mem_dlookup_iff hkeys, List.mem_dlookup_iff m.nodupKeys, ← AList.mem_lookup_iff, ← h a]
  simp only [List.mem_filterMap, Option.map_eq_some_iff, Option.mem_def, Option.bind_eq_some_iff]
  constructor
  · rintro ⟨⟨a', b⟩, hb, c', hc, heq⟩
    cases heq
    exact ⟨b, AList.mem_lookup_iff.2 hb, hc⟩
  · rintro ⟨b, hb, hc⟩
    exact ⟨⟨a, b⟩, AList.mem_lookup_iff.1 hb, c, hc, rfl⟩

end AList
