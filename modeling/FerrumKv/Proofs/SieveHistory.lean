import FerrumKv.IndexOps
import FerrumKv.Lib.Runs
import FerrumKv.Proofs.Indexes
import FerrumKv.Proofs.Sieve

/-!
# SIEVE's queue over whole histories

In every state that a history of calls reaches the hand is an index of the queue, or 0 where the
queue is empty. Seen from the hand a removal takes one key out of the ring (`order_observeRemove`),
so the hand keeps its key or goes to the next one; no operation but a rebuild reorders the keys
that stay (`sieve_discipline`).
-/

namespace FerrumKv.SieveState

section Removal

variable {s : SieveState} {key : Key}

theorem handKey_eq (h : s.HandOk) : s.handKey = s.order.head?.map Prod.fst := by
  unfold handKey order IndexMap.keys
  rcases h with hlt | ⟨hzero, -⟩
  · rw [Cyclic.head?_order hlt, List.getElem?_map]
  · rw [List.length_eq_zero_iff.1 hzero]
    simp [Cyclic.order]

theorem observeRemove_eq {idx : ℕ} (h : s.queue.indexOf? key = some idx) :
    s.observeRemove key
      = wrapped { s with
          queue := s.queue.shiftRemove key
          hand := if idx < s.hand then s.hand - 1 else s.hand } := by
  rw [wrapped_eq, observeRemove, h]

theorem observeRemove_of_notMem (h : key ∉ s.queue.keys) : s.observeRemove key = s := by
  rw [observeRemove, IndexMap.indexOf?_eq_none.2 h]

theorem observeRemove_handOk (h : s.HandOk) (key : Key) : (s.observeRemove key).HandOk := by
  obtain hnone | ⟨idx, hidx⟩ := Option.eq_none_or_eq_some (s.queue.indexOf? key)
  · rwa [observeRemove_of_notMem (IndexMap.indexOf?_eq_none.1 hnone)]
  · rw [observeRemove_eq hidx]
    exact wrapped_handOk _

theorem length_take_shiftRemove {idx : ℕ} {visited : Bool}
    (hidx : s.queue.getIndex? idx = some (key, visited)) (hhand : s.hand ≤ s.queue.length) :
    ((s.queue.entries.take s.hand).filter fun e => e.1 ≠ key).length
      = if idx < s.hand then s.hand - 1 else s.hand := by
  obtain ⟨hsplit, hfront, hback⟩ := IndexMap.entries_eq hidx
  have hlen : (s.queue.entries.take idx).length = idx :=
    List.length_take_of_le (List.getElem?_eq_some_iff.1 hidx).1.le
  unfold IndexMap.length at hhand
  rw [hsplit] at hhand ⊢
  generalize s.queue.entries.take idx = front at *
  generalize s.queue.entries.drop (idx + 1) = back at *
  rw [List.length_append, List.length_cons, hlen] at hhand
  have hkeep : ∀ l : List (Key × Bool), (∀ e ∈ l, e.1 ≠ key) → l.filter (fun e => e.1 ≠ key) = l :=
    fun l hl => List.filter_eq_self.2 fun e he => by simpa using hl e he
  split_ifs with hlt
  · obtain ⟨n, hn⟩ : ∃ n, s.hand = idx + (n + 1) := ⟨s.hand - idx - 1, by omega⟩
    rw [hn] at hhand ⊢
    rw [← hlen, List.take_length_add_append, List.take_succ_cons, List.filter_append, hkeep _ hfront,
      List.filter_cons_of_neg (by simp), hkeep _ fun e he => hback e (List.mem_of_mem_take he),
      List.length_append, List.length_take_of_le (by omega)]
    omega
  · rw [List.take_append_of_le_length (by omega),
      hkeep _ fun e he => hfront e (List.mem_of_mem_take he), List.length_take_of_le (by omega)]

/-- Seen from the hand, a removal takes the key out of the ring. -/
theorem order_observeRemove (h : s.HandOk) (key : Key) :
    (s.observeRemove key).order = s.order.filter fun e => e.1 ≠ key := by
  obtain hnone | ⟨idx, hidx⟩ := Option.eq_none_or_eq_some (s.queue.indexOf? key)
  · have hkey := IndexMap.indexOf?_eq_none.1 hnone
    rw [observeRemove_of_notMem hkey]
    refine (List.filter_eq_self.2 fun e he => ?_).symm
    have hne : e.1 ≠ key := fun hek =>
      hkey (hek ▸ List.mem_map_of_mem (Cyclic.mem_order.1 he))
    simpa using hne
  · obtain ⟨visited, hget⟩ := IndexMap.getIndex?_of_indexOf? hidx
    have hhand : s.hand ≤ s.queue.length := by
      rcases h with h | h <;> omega
    rw [observeRemove_eq hidx, order_wrapped, order, order, ← Cyclic.order_filter,
      length_take_shiftRemove hget hhand]
    rfl

theorem observeRemove_queue (h : key ∈ s.queue.keys) :
    (s.observeRemove key).queue = s.queue.shiftRemove key := by
  obtain hnone | ⟨idx, hidx⟩ := Option.eq_none_or_eq_some (s.queue.indexOf? key)
  · exact absurd h (IndexMap.indexOf?_eq_none.1 hnone)
  · rw [observeRemove_eq hidx, wrapped_queue]

theorem keys_observeRemove (key : Key) :
    (s.observeRemove key).queue.keys = s.queue.keys.filter (· ≠ key) := by
  by_cases h : key ∈ s.queue.keys
  · rw [observeRemove_queue h, IndexMap.keys_shiftRemove]
  · rw [observeRemove_of_notMem h]
    refine (List.filter_eq_self.2 fun x hx => ?_).symm
    have hne : x ≠ key := fun hxk => h (hxk ▸ hx)
    simpa using hne

theorem handKey_observeRemove (h : s.HandOk) (hne : s.handKey ≠ some key) :
    (s.observeRemove key).handKey = s.handKey := by
  rw [handKey_eq h] at hne ⊢
  rw [handKey_eq (observeRemove_handOk h key), order_observeRemove h]
  generalize s.order = ring at hne ⊢
  rcases ring with _ | ⟨⟨k, visited⟩, rest⟩
  · rfl
  · have hk : k ≠ key := fun hk => hne (congrArg some hk)
    rw [List.filter_cons_of_pos (by simpa using hk)]
    rfl

/-- The removal of the key under the hand moves the hand to the next key, or to the front. -/
theorem handKey_observeRemove_self (h : s.HandOk) (hkey : s.handKey = some key) :
    (s.observeRemove key).handKey
      = (s.queue.keys[s.hand + 1]?).or (s.observeRemove key).queue.keys[0]? := by
  obtain ⟨⟨k, visited⟩, hget, rfl⟩ : ∃ e, s.queue.getIndex? s.hand = some e ∧ e.1 = key := by
    rwa [handKey, IndexMap.keys, List.getElem?_map, Option.map_eq_some_iff] at hkey
  obtain ⟨-, hfront, hback⟩ := IndexMap.entries_eq hget
  have horder : (s.observeRemove k).order
      = s.queue.entries.drop (s.hand + 1) ++ s.queue.entries.take s.hand := by
    rw [order_observeRemove h, order_of_hand hget, List.filter_cons_of_neg (by simp)]
    refine List.filter_eq_self.2 fun e he => ?_
    rcases List.mem_append.1 he with he | he
    · simpa using hback e he
    · simpa using hfront e he
  have hqueue : (s.observeRemove k).queue.entries
      = s.queue.entries.take s.hand ++ s.queue.entries.drop (s.hand + 1) := by
    rw [← IndexMap.entries_shiftRemove hget]
    exact congrArg IndexMap.entries (observeRemove_queue (IndexMap.getIndex?_mem hget))
  rw [handKey_eq (observeRemove_handOk h k), horder, IndexMap.keys, IndexMap.keys, hqueue,
    List.getElem?_map, List.getElem?_map, ← List.head?_drop]
  generalize s.queue.entries.drop (s.hand + 1) = back
  rcases back with _ | ⟨e, back⟩
  · rw [List.nil_append, List.append_nil, List.head?_eq_getElem?]
    rfl
  · rfl

end Removal

/-- An eviction leaves the hand on the first key behind its victim that stays. -/
theorem handKey_evictOne {s : SieveState} {store : Store} {scope : EvictionScope}
    {demote : ValueEntry → Bool} {key : Key} (h : (s.evictOne store scope demote).1 = some key) :
    ∃ pre post, s.order.map Prod.fst = pre ++ key :: post
      ∧ (s.evictOne store scope demote).2.handKey
        = (post ++ pre).find? (· ∈ (s.evictOne store scope demote).2.queue.keys) := by
  obtain ⟨-, hnone, -⟩ | ⟨pre, key', visited, post, hsplit, -, -, hr, horder, hhand⟩ :=
    @evictOne_cases store scope demote s
  · rw [hnone] at h
    cases h
  obtain rfl : key' = key := Option.some.inj (hr.symm.trans h)
  refine ⟨pre.map Prod.fst, post.map Prod.fst, by rw [hsplit]; simp, ?_⟩
  generalize (s.evictOne store scope demote).2 = s' at horder hhand ⊢
  have hmem : ∀ x, x ∈ s'.order.map Prod.fst ↔ x ∈ s'.queue.keys := fun x =>
    ((Cyclic.order_perm _ _).map Prod.fst).mem_iff
  have hnodup : (post.map Prod.fst ++ pre.map Prod.fst).Nodup := by
    have hring : (s.order.map Prod.fst).Nodup :=
      ((Cyclic.order_perm _ _).map Prod.fst).nodup_iff.2 s.queue.nodup
    rw [hsplit, List.map_append, List.map_cons] at hring
    exact ((List.perm_middle.nodup_iff.1 hring).of_cons).perm List.perm_append_comm
  have hpass : ∀ l : List (Key × Bool),
      ((l.filter fun e => eligible store scope e.1).map unvisit).map Prod.fst |>.Sublist
        (l.map Prod.fst) := fun l => by
    rw [List.map_map]
    exact List.filter_sublist.map _
  have hsub : (s'.order.map Prod.fst).Sublist (post.map Prod.fst ++ pre.map Prod.fst) := by
    rw [horder, List.map_append]
    refine List.Sublist.append ?_ (hpass pre)
    split_ifs
    · exact .refl _
    · exact hpass post
  rw [handKey_eq hhand, ← List.head?_map, ← filter_mem_eq hsub hnodup, List.head?_filter]
  simp only [hmem]

theorem observeInsert_handOk {s : SieveState} (h : s.HandOk) (key : Key) (hasTtl : Bool) :
    (s.observeInsert key hasTtl).HandOk := by
  unfold observeInsert
  split_ifs
  · exact observeRemove_handOk h key
  · have hlen : s.queue.length ≤ (s.queue.insert key false).length
        ∧ 0 < (s.queue.insert key false).length := by
      rw [← IndexMap.length_keys, ← IndexMap.length_keys]
      exact ⟨IndexMap.keys_sublist_insert.length_le,
        List.length_pos_of_mem ((IndexMap.mem_keys_insert _ key false).2 (.inl rfl))⟩
    rcases h with h | h
    · exact .inl (h.trans_le hlen.1)
    · exact .inl (h.2 ▸ hlen.2)

theorem observeAccess_handOk {s : SieveState} (h : s.HandOk) (key : Key) :
    (s.observeAccess key).HandOk := by
  have hlen : (s.observeAccess key).queue.length = s.queue.length := by
    rw [← IndexMap.length_keys, keys_observeAccess, IndexMap.length_keys]
  unfold HandOk
  rw [hlen]
  exact h

theorem evictOne_handOk {s : SieveState} {store : Store} {scope : EvictionScope}
    {demote : ValueEntry → Bool} (h : s.HandOk) : (s.evictOne store scope demote).2.HandOk := by
  obtain ⟨hall, -, -⟩ | ⟨-, -, -, -, -, -, -, -, -, hhand⟩ :=
    @evictOne_cases store scope demote s
  · unfold evictOne
    split_ifs with hlen
    · exact h
    · rw [evictLoop_none _ s hall (Nat.lt_succ_self _)]
      exact .inr ⟨rfl, rfl⟩
  · exact hhand

theorem step_handOk (s : SieveState) (op : SieveOp) (h : s.HandOk) : (s.step op).HandOk := by
  rcases op with ⟨key, hasTtl⟩ | key | key | ⟨entries, scope⟩ | _ | ⟨store, scope, ttlAware, near⟩
  · exact observeInsert_handOk h key hasTtl
  · exact observeAccess_handOk h key
  · exact observeRemove_handOk h key
  · exact (Nat.eq_zero_or_pos _).elim (fun hz => .inr ⟨hz, rfl⟩) .inl
  · exact .inr ⟨rfl, rfl⟩
  · exact evictOne_handOk h

theorem run_handOk (ops : List SieveOp) : (run ops).HandOk :=
  Runs.foldl_invariant step_handOk ops (.inr ⟨rfl, rfl⟩)

/-- No operation but a rebuild reorders the keys that stay. -/
theorem step_sameOrder (s : SieveState) (op : SieveOp) (hop : op.rebuilds = false) :
    SameOrder s.queue.keys (s.step op).queue.keys := by
  have hnodup := s.queue.nodup
  rcases op with ⟨key, hasTtl⟩ | key | key | ⟨entries, scope⟩ | _ | ⟨store, scope, ttlAware, near⟩
  · change SameOrder s.queue.keys (s.observeInsert key hasTtl).queue.keys
    unfold observeInsert
    split_ifs
    · rw [keys_observeRemove]
      exact .of_sublist List.filter_sublist hnodup
    · exact (SameOrder.of_sublist IndexMap.keys_sublist_insert (IndexMap.nodup _)).symm
  · change SameOrder s.queue.keys (s.observeAccess key).queue.keys
    rw [keys_observeAccess]
    exact .of_sublist (.refl _) hnodup
  · change SameOrder s.queue.keys (s.observeRemove key).queue.keys
    rw [keys_observeRemove]
    exact .of_sublist List.filter_sublist hnodup
  · cases hop
  · exact .of_sublist (List.nil_sublist _) hnodup
  · exact .of_sublist (evictOne_keys s) hnodup

/-- SIEVE's queue after any history of calls: no key twice and the hand on a key, or at 0 when there
is none; a new key goes last and an old one keeps its place, with the bit clear; what stays keeps
its order; and the hand stays on its key, or goes to the next one when that key is removed. -/
theorem sieve_discipline (ops : List SieveOp) :
    let s := run ops
    s.queue.keys.Nodup ∧ (s.hand < s.queue.length ∨ s.queue.length = 0 ∧ s.hand = 0)
    ∧ (∀ key hasTtl, s.scope.takes hasTtl → key ∉ s.queue.keys →
        (s.observeInsert key hasTtl).queue.entries = s.queue.entries ++ [(key, false)]
          ∧ (s.observeInsert key hasTtl).hand = s.hand)
    ∧ (∀ key hasTtl, s.scope.takes hasTtl → key ∈ s.queue.keys →
        (s.observeInsert key hasTtl).queue.entries
            = s.queue.entries.map (fun e => if e.1 = key then (key, false) else e)
          ∧ (s.observeInsert key hasTtl).hand = s.hand)
    ∧ (∀ key hasTtl, ¬s.scope.takes hasTtl → s.observeInsert key hasTtl = s.observeRemove key)
    ∧ (∀ op : SieveOp, op.rebuilds = false → SameOrder s.queue.keys (s.step op).queue.keys)
    ∧ (∀ key, (s.observeRemove key).queue.keys = s.queue.keys.filter (· ≠ key)
        ∧ (s.handKey ≠ some key → (s.observeRemove key).handKey = s.handKey)
        ∧ (s.handKey = some key → (s.observeRemove key).handKey
            = (s.queue.keys[s.hand + 1]?).or (s.observeRemove key).queue.keys[0]?))
    ∧ ∀ store scope demote key, (s.evictOne store scope demote).1 = some key →
        ∃ pre post, s.order.map Prod.fst = pre ++ key :: post
          ∧ (s.evictOne store scope demote).2.handKey
            = (post ++ pre).find? (· ∈ (s.evictOne store scope demote).2.queue.keys) := by
  intro s
  have hhand : s.HandOk := run_handOk ops
  refine ⟨s.queue.nodup, hhand, fun key hasTtl ht hkey => ?_, fun key hasTtl ht hkey => ?_,
    fun key hasTtl ht => if_pos (not_not.1 ht), step_sameOrder s,
    fun key => ⟨keys_observeRemove key, handKey_observeRemove hhand,
      handKey_observeRemove_self hhand⟩,
    fun store scope demote key h => handKey_evictOne h⟩
  · rw [observeInsert, if_neg ht]
    exact ⟨IndexMap.entries_insert_of_notMem hkey, rfl⟩
  · rw [observeInsert, if_neg ht]
    exact ⟨IndexMap.entries_insert_of_mem hkey, rfl⟩

end FerrumKv.SieveState
