import Mathlib.Data.List.Perm.Basic
import Mathlib.Data.List.Nodup
import Mathlib.Data.List.InsertIdx
import Mathlib.Tactic

/-!
# Insertion-ordered maps

A map that remembers an order of its keys: inserting a new key puts it last, inserting a present
one keeps its place, and a removal closes the gap. `moveIndex` and `insertBefore` place a key at
a chosen index. Each operation's effect on the set of keys is one lemma. `SameOrder` compares the
orders that two lists give the elements they share.
-/

section SameOrder

variable {α : Type*} [DecidableEq α]

/-- The elements that are in both lists stand in the same order in them. -/
def SameOrder (before after : List α) : Prop :=
  after.filter (· ∈ before) = before.filter (· ∈ after)

variable {l l' : List α}

theorem filter_mem_eq (h : l'.Sublist l) (hl : l.Nodup) : l.filter (· ∈ l') = l' := by
  induction h with
  | slnil => rfl
  | @cons l₁ l₂ a h ih =>
    obtain ⟨ha, hl⟩ := List.nodup_cons.1 hl
    rw [List.filter_cons_of_neg (by simpa using fun hm => ha (h.subset hm)), ih hl]
  | @cons_cons l₁ l₂ a h ih =>
    obtain ⟨ha, hl⟩ := List.nodup_cons.1 hl
    rw [List.filter_cons_of_pos (by simp)]
    conv_rhs => rw [← ih hl]
    refine congrArg (a :: ·) (List.filter_congr fun x hx => ?_)
    have hne : x ≠ a := fun hxa => ha (hxa ▸ hx)
    simp [hne]

theorem SameOrder.of_sublist (h : l'.Sublist l) (hl : l.Nodup) : SameOrder l l' := by
  unfold SameOrder
  rw [filter_mem_eq h hl]
  exact List.filter_eq_self.2 fun x hx => by simpa using h.subset hx

theorem SameOrder.symm (h : SameOrder l l') : SameOrder l' l := Eq.symm h

end SameOrder

/-- A list of bindings with distinct keys, in the order of the map's indices. -/
structure IndexMap (α β : Type*) where
  entries : List (α × β)
  nodup : (entries.map Prod.fst).Nodup

namespace IndexMap

variable {α β : Type*}

def keys (m : IndexMap α β) : List α := m.entries.map Prod.fst

def length (m : IndexMap α β) : ℕ := m.entries.length

def empty : IndexMap α β := ⟨[], List.nodup_nil⟩

def getIndex? (m : IndexMap α β) (i : ℕ) : Option (α × β) := m.entries[i]?

@[simp]
theorem keys_empty : (empty : IndexMap α β).keys = [] := rfl

theorem getIndex?_mem {m : IndexMap α β} {i : ℕ} {a : α} {b : β}
    (h : m.getIndex? i = some (a, b)) : a ∈ m.keys :=
  List.mem_map.2 ⟨(a, b), List.mem_of_getElem? h, rfl⟩

theorem length_keys (m : IndexMap α β) : m.keys.length = m.length := List.length_map _

theorem eq_empty {m : IndexMap α β} (h : m.length = 0) : m = empty := by
  obtain ⟨entries, nodup⟩ := m
  obtain rfl := List.length_eq_zero_iff.1 h
  rfl

theorem length_le_of_keys {γ : Type*} {m : IndexMap α β} {n : IndexMap α γ}
    (h : ∀ x ∈ m.keys, x ∈ n.keys) : m.length ≤ n.length := by
  rw [← length_keys m, ← length_keys n]
  exact (List.subperm_of_subset m.nodup h).length_le

theorem length_le_succ_of_keys {γ : Type*} {m : IndexMap α β} {n : IndexMap α γ} {a : α}
    (h : ∀ x ∈ m.keys, x = a ∨ x ∈ n.keys) : m.length ≤ n.length + 1 := by
  rw [← length_keys m, ← length_keys n]
  have hsub : m.keys ⊆ a :: n.keys := fun x hx => List.mem_cons.2 (h x hx)
  exact (List.subperm_of_subset m.nodup hsub).length_le

variable [DecidableEq α]

def indexOf? (m : IndexMap α β) (a : α) : Option ℕ := m.keys.findIdx? (· = a)

/-- Applies `f` to the value of `a`, where `a` is a key. -/
def modify (m : IndexMap α β) (a : α) (f : β → β) : IndexMap α β where
  entries := m.entries.map fun e => if e.1 = a then (e.1, f e.2) else e
  nodup := by
    have : (m.entries.map fun e => if e.1 = a then (e.1, f e.2) else e).map Prod.fst
        = m.entries.map Prod.fst := by
      rw [List.map_map]
      refine List.map_congr_left fun e _ => ?_
      simp only [Function.comp_apply]
      split_ifs <;> rfl
    rw [this]
    exact m.nodup

/-- Puts `a` last, or gives it the value `b` in place where it is present. -/
def insert (m : IndexMap α β) (a : α) (b : β) : IndexMap α β :=
  if h : a ∈ m.keys then m.modify a fun _ => b
  else ⟨m.entries ++ [(a, b)], by
    simp only [List.map_append, List.map_cons, List.map_nil]
    exact List.nodup_append.2 ⟨m.nodup, by simp, fun x hx y hy => by
      simp only [List.mem_singleton] at hy
      subst hy
      exact fun hxy => h (hxy ▸ hx)⟩⟩

/-- Removes `a`; the bindings after it move down by one. -/
def shiftRemove (m : IndexMap α β) (a : α) : IndexMap α β where
  entries := m.entries.filter fun e => e.1 ≠ a
  nodup := m.nodup.sublist (List.filter_sublist.map Prod.fst)

/-- Places `a` at index `i` of the map without it. -/
def insertBefore (m : IndexMap α β) (i : ℕ) (a : α) (b : β) : IndexMap α β where
  entries := (m.shiftRemove a).entries.take i ++ (a, b) :: (m.shiftRemove a).entries.drop i
  nodup := by
    have hp : ((m.shiftRemove a).entries.take i ++ (a, b) :: (m.shiftRemove a).entries.drop i).Perm
        ((a, b) :: (m.shiftRemove a).entries) := by
      refine List.perm_middle.trans ?_
      rw [List.take_append_drop]
    rw [(hp.map Prod.fst).nodup_iff, List.map_cons, List.nodup_cons]
    refine ⟨fun h => ?_, (m.shiftRemove a).nodup⟩
    obtain ⟨e, he, rfl⟩ := List.mem_map.1 h
    simp [shiftRemove] at he

/-- Moves the binding at index `p` to index `t`; the ones between shift. -/
def moveIndex (m : IndexMap α β) (p t : ℕ) : IndexMap α β :=
  match m.getIndex? p with
  | some (a, b) => m.insertBefore t a b
  | none => m

variable (m : IndexMap α β) (a : α)

@[simp]
theorem keys_modify (f : β → β) : (m.modify a f).keys = m.keys := by
  simp only [keys, modify, List.map_map]
  refine List.map_congr_left fun e _ => ?_
  simp only [Function.comp_apply]
  split_ifs <;> rfl

@[simp]
theorem mem_keys_insert (b : β) {x : α} : x ∈ (m.insert a b).keys ↔ x = a ∨ x ∈ m.keys := by
  unfold insert
  split_ifs with h
  · rw [keys_modify]
    exact ⟨Or.inr, fun hx => hx.elim (fun e => e ▸ h) id⟩
  · simp only [keys, List.map_append, List.map_cons, List.map_nil, List.mem_append,
      List.mem_singleton]
    exact or_comm

@[simp]
theorem mem_keys_shiftRemove {x : α} : x ∈ (m.shiftRemove a).keys ↔ x ≠ a ∧ x ∈ m.keys := by
  simp only [keys, shiftRemove, List.mem_map, List.mem_filter, decide_eq_true_eq]
  constructor
  · rintro ⟨e, ⟨he, hne⟩, rfl⟩
    exact ⟨hne, e, he, rfl⟩
  · rintro ⟨hne, e, he, rfl⟩
    exact ⟨e, ⟨he, hne⟩, rfl⟩

@[simp]
theorem mem_keys_insertBefore (i : ℕ) (b : β) {x : α} :
    x ∈ (m.insertBefore i a b).keys ↔ x = a ∨ x ∈ m.keys := by
  have hp : (m.insertBefore i a b).keys.Perm (a :: (m.shiftRemove a).keys) := by
    have h : (m.insertBefore i a b).entries.Perm ((a, b) :: (m.shiftRemove a).entries) := by
      refine List.perm_middle.trans ?_
      rw [List.take_append_drop]
    exact h.map Prod.fst
  rw [hp.mem_iff, List.mem_cons, mem_keys_shiftRemove]
  by_cases h : x = a <;> simp [h]

@[simp]
theorem mem_keys_moveIndex (p t : ℕ) {x : α} : x ∈ (m.moveIndex p t).keys ↔ x ∈ m.keys := by
  unfold moveIndex
  split
  · rename_i c b h
    rw [mem_keys_insertBefore]
    exact ⟨fun hx => hx.elim (fun e => e ▸ getIndex?_mem h) id, Or.inr⟩
  · rfl

variable {m a}

theorem keys_insert_of_mem {b : β} (h : a ∈ m.keys) : (m.insert a b).keys = m.keys := by
  rw [insert, dif_pos h, keys_modify]

theorem entries_insert_of_mem {b : β} (h : a ∈ m.keys) :
    (m.insert a b).entries = m.entries.map fun e => if e.1 = a then (a, b) else e := by
  rw [insert, dif_pos h]
  refine List.map_congr_left fun e _ => ?_
  split_ifs with he
  · rw [he]
  · rfl

theorem entries_insert_of_notMem {b : β} (h : a ∉ m.keys) :
    (m.insert a b).entries = m.entries ++ [(a, b)] := by
  rw [insert, dif_neg h]

theorem keys_sublist_insert {b : β} : m.keys.Sublist (m.insert a b).keys := by
  by_cases h : a ∈ m.keys
  · rw [keys_insert_of_mem h]
  · rw [keys, keys, entries_insert_of_notMem h, List.map_append]
    exact List.sublist_append_left _ _

theorem indexOf?_eq_none : m.indexOf? a = none ↔ a ∉ m.keys := by
  rw [indexOf?, List.findIdx?_eq_none_iff]
  constructor
  · intro h ha
    simpa using h a ha
  · rintro h x hx
    have hne : x ≠ a := fun hxa => h (hxa ▸ hx)
    simpa using hne

theorem getIndex?_of_indexOf? {i : ℕ} (h : m.indexOf? a = some i) :
    ∃ b, m.getIndex? i = some (a, b) := by
  obtain ⟨hi, ha, -⟩ := List.findIdx?_eq_some_iff_getElem.1 h
  have hlt : i < m.entries.length := by
    rwa [length_keys] at hi
  refine ⟨m.entries[i].2, (List.getElem?_eq_getElem hlt).trans (congrArg some ?_)⟩
  have hfst : m.entries[i].1 = a := by simpa [keys] using ha
  rw [← hfst]

omit [DecidableEq α] in
theorem entries_eq {i : ℕ} {b : β} (h : m.getIndex? i = some (a, b)) :
    m.entries = m.entries.take i ++ (a, b) :: m.entries.drop (i + 1)
      ∧ (∀ e ∈ m.entries.take i, e.1 ≠ a) ∧ ∀ e ∈ m.entries.drop (i + 1), e.1 ≠ a := by
  obtain ⟨hi, hget⟩ := List.getElem?_eq_some_iff.1 h
  have hsplit : m.entries = m.entries.take i ++ (a, b) :: m.entries.drop (i + 1) := by
    rw [← hget, List.getElem_cons_drop, List.take_append_drop]
  have hnodup := m.nodup
  rw [hsplit, List.map_append, List.map_cons, List.nodup_append, List.nodup_cons] at hnodup
  obtain ⟨-, ⟨hback, -⟩, hfront⟩ := hnodup
  refine ⟨hsplit, fun e he => ?_, fun e he hea => ?_⟩
  · exact hfront e.1 (List.mem_map_of_mem he) a List.mem_cons_self
  · exact hback (List.mem_map.2 ⟨e, he, hea⟩)

theorem entries_shiftRemove {i : ℕ} {b : β} (h : m.getIndex? i = some (a, b)) :
    (m.shiftRemove a).entries = m.entries.take i ++ m.entries.drop (i + 1) := by
  obtain ⟨hsplit, hfront, hback⟩ := entries_eq h
  change m.entries.filter (fun e => e.1 ≠ a) = _
  conv_lhs => rw [hsplit]
  rw [List.filter_append, List.filter_cons_of_neg (by simp),
    List.filter_eq_self.2 fun e he => by simpa using hfront e he,
    List.filter_eq_self.2 fun e he => by simpa using hback e he]

theorem entries_modify {i : ℕ} {b : β} (h : m.getIndex? i = some (a, b)) (f : β → β) :
    (m.modify a f).entries = m.entries.take i ++ (a, f b) :: m.entries.drop (i + 1) := by
  obtain ⟨hsplit, hfront, hback⟩ := entries_eq h
  have hsame : ∀ l : List (α × β), (∀ e ∈ l, e.1 ≠ a) →
      l.map (fun e => if e.1 = a then (e.1, f e.2) else e) = l := fun l hl => by
    conv_rhs => rw [← List.map_id l]
    exact List.map_congr_left fun e he => if_neg (hl e he)
  change m.entries.map (fun e => if e.1 = a then (e.1, f e.2) else e) = _
  conv_lhs => rw [hsplit]
  rw [List.map_append, List.map_cons, hsame _ hfront, hsame _ hback, if_pos rfl]

theorem keys_shiftRemove : (m.shiftRemove a).keys = m.keys.filter (· ≠ a) := by
  rw [keys, shiftRemove, keys, List.filter_map]
  rfl

theorem keys_shiftRemove_sublist : ((m.shiftRemove a).keys).Sublist m.keys :=
  List.filter_sublist.map Prod.fst

end IndexMap
