import FerrumKv.IndexOps
import FerrumKv.Lib.Runs
import FerrumKv.Proofs.Panics

/-!
# AdaptiveClimb's list over whole histories

In every state that a history of calls reaches, `jump` is between 1 and the length of the list
(`run_jumpOk`), and the list holds the keys the history tracks. A hit and an insert put their key at
one index among the others, which keep their order (`keys_observeAccess`, `keys_observeInsert`).
`adaptiveClimb_discipline` is the result over all histories.
-/

namespace FerrumKv.AdaptiveClimbState

/-- The list with `key` at index `i` of the others. -/
def place (keys : List Key) (key : Key) (i : ℕ) : List Key :=
  (keys.filter (· ≠ key)).take i ++ key :: (keys.filter (· ≠ key)).drop i

/-- `jump` is between 1 and the length of the list. -/
def JumpOk (s : AdaptiveClimbState) : Prop := 1 ≤ s.jump ∧ s.jump ≤ max 1 s.queue.length

section Calls

variable {s : AdaptiveClimbState} {key : Key}

theorem keys_insertBefore (q : IndexMap Key Unit) (i : ℕ) (key : Key) :
    (q.insertBefore i key ()).keys = place q.keys key i := by
  rw [place, ← IndexMap.keys_shiftRemove]
  simp only [IndexMap.keys, IndexMap.insertBefore, List.map_append, List.map_cons, List.map_take,
    List.map_drop]

theorem clampJump_jumpOk (s : AdaptiveClimbState) : s.clampJump.JumpOk := by
  unfold clampJump JumpOk
  simp only []
  split_ifs <;> omega

theorem place_self {p : ℕ} (hp : s.queue.indexOf? key = some p) :
    place s.queue.keys key p = s.queue.keys := by
  obtain ⟨b, hget⟩ := IndexMap.getIndex?_of_indexOf? hp
  obtain ⟨hsplit, -, -⟩ := IndexMap.entries_eq hget
  have hlen : (s.queue.entries.take p).length = p :=
    List.length_take_of_le (List.getElem?_eq_some_iff.1 hget).1.le
  have hkeys : s.queue.keys
      = (s.queue.entries.take p).map Prod.fst ++ key :: (s.queue.entries.drop (p + 1)).map Prod.fst
      := by
    conv_lhs => rw [IndexMap.keys, hsplit, List.map_append, List.map_cons]
  rw [place, ← IndexMap.keys_shiftRemove, IndexMap.keys, IndexMap.entries_shiftRemove hget,
    List.map_append, List.take_left' (by simpa using hlen), List.drop_left' (by simpa using hlen),
    hkeys]

/-- A hit moves its key up by the decremented jump. -/
theorem keys_observeAccess (h : s.JumpOk) {p : ℕ} (hp : s.queue.indexOf? key = some p) :
    (s.observeAccess key).jump = max 1 (s.jump - 1)
      ∧ (s.observeAccess key).queue.keys = place s.queue.keys key (p - max 1 (s.jump - 1)) := by
  have hjump : (if 1 < s.jump then s.jump - 1 else s.jump) = max 1 (s.jump - 1) := by
    have := h.1
    split_ifs <;> omega
  rw [observeAccess, hp]
  simp only [hjump]
  refine ⟨trivial, ?_⟩
  split_ifs with hmove
  · obtain ⟨b, hget⟩ := IndexMap.getIndex?_of_indexOf? hp
    rw [IndexMap.moveIndex, hget]
    exact keys_insertBefore _ _ _
  · obtain rfl : p = 0 := by omega
    rw [Nat.zero_sub, place_self hp]

/-- An insert increments the jump and puts its key that far from the end. -/
theorem keys_observeInsert (h : s.JumpOk) {hasTtl : Bool} (ht : s.scope.takes hasTtl) :
    (s.observeInsert key hasTtl).jump
        = max 1 (min (s.jump + 1) (s.queue.keys.filter (· ≠ key)).length)
      ∧ (s.observeInsert key hasTtl).queue.keys
        = place s.queue.keys key ((s.queue.keys.filter (· ≠ key)).length
            - max 1 (min (s.jump + 1) (s.queue.keys.filter (· ≠ key)).length)) := by
  have hpos := h.1
  have hjump : ∀ len : ℕ, (if len = 0 then 1
      else if (if len = 0 then 1 else max 1 (min s.jump len)) < len
        then (if len = 0 then 1 else max 1 (min s.jump len)) + 1
        else if len = 0 then 1 else max 1 (min s.jump len)) = max 1 (min (s.jump + 1) len) := by
    intro len
    split_ifs <;> omega
  rw [observeInsert, if_neg ht, ← IndexMap.keys_shiftRemove, IndexMap.length_keys]
  simp only [clampJump, hjump]
  refine ⟨trivial, ?_⟩
  rw [Nat.min_eq_left (Nat.sub_le _ _), keys_insertBefore, place, place, IndexMap.keys_shiftRemove,
    List.filter_filter]
  simp only [Bool.and_self]

theorem observeAccess_of_notMem (h : key ∉ s.queue.keys) : s.observeAccess key = s := by
  rw [observeAccess, IndexMap.indexOf?_eq_none.2 h]

theorem length_place {keys : List Key} {i : ℕ} :
    (place keys key i).length = (keys.filter (· ≠ key)).length + 1 := by
  rw [place, List.length_append, List.length_cons, List.length_take, List.length_drop]
  omega

end Calls

/-- The victim is the eligible key closest to the end. -/
theorem evictOne_last (s : AdaptiveClimbState) (store : Store) (scope : EvictionScope) :
    ((s.evictOne store scope).1 = none
        ↔ ∀ key ∈ s.queue.keys, SieveState.eligible store scope key = false)
      ∧ ∀ key, (s.evictOne store scope).1 = some key → SieveState.eligible store scope key = true
        ∧ ∃ front back, s.queue.keys = front ++ key :: back
          ∧ ∀ x ∈ back, SieveState.eligible store scope x = false := by
  have hvictim : (s.evictOne store scope).1
      = s.queue.keys.reverse.find? (SieveState.eligible store scope) := by
    unfold evictOne
    split <;> rename_i heq <;> rw [heq]
  rw [hvictim]
  refine ⟨?_, fun key hkey => ?_⟩
  · rw [List.find?_eq_none]
    simp
  · obtain ⟨helig, back, front, hsplit, hback⟩ := List.find?_eq_some_iff_append.1 hkey
    refine ⟨helig, front.reverse, back.reverse, ?_, fun x hx => ?_⟩
    · rw [← List.reverse_reverse s.queue.keys, hsplit]
      simp
    · simpa using hback x (List.mem_reverse.1 hx)

theorem observeAccess_jumpOk {s : AdaptiveClimbState} (h : s.JumpOk) (key : Key) :
    (s.observeAccess key).JumpOk := by
  obtain hnone | ⟨p, hp⟩ := Option.eq_none_or_eq_some (s.queue.indexOf? key)
  · rwa [observeAccess_of_notMem (IndexMap.indexOf?_eq_none.1 hnone)]
  · obtain ⟨hjump, -⟩ := keys_observeAccess h hp
    have hlen : s.queue.length ≤ (s.observeAccess key).queue.length :=
      IndexMap.length_le_of_keys fun _ hx => (mem_keys_observeAccess s key).2 hx
    have hold := h.2
    unfold JumpOk
    rw [hjump]
    omega

theorem observeInsert_jumpOk {s : AdaptiveClimbState} (h : s.JumpOk) (key : Key) (hasTtl : Bool) :
    (s.observeInsert key hasTtl).JumpOk := by
  by_cases ht : s.scope.takes hasTtl
  · obtain ⟨hjump, hkeys⟩ := @keys_observeInsert s key h hasTtl ht
    have hlen := congrArg List.length hkeys
    rw [length_place, IndexMap.length_keys] at hlen
    unfold JumpOk
    rw [hjump]
    omega
  · rw [observeInsert, if_pos (not_not.1 ht)]
    exact clampJump_jumpOk _

theorem step_jumpOk (s : AdaptiveClimbState) (op : AdaptiveClimbOp) (h : s.JumpOk) :
    (s.step op).JumpOk := by
  rcases op with ⟨key, hasTtl⟩ | key | key | ⟨entries, scope⟩ | _ | ⟨store, scope⟩
  · exact observeInsert_jumpOk h key hasTtl
  · exact observeAccess_jumpOk h key
  · exact clampJump_jumpOk _
  · exact ⟨le_rfl, le_max_left _ _⟩
  · exact ⟨le_rfl, le_max_left _ _⟩
  · rw [step, evictOne]
    rcases s.queue.keys.reverse.find? (SieveState.eligible store scope) with _ | key
    · exact h
    · exact clampJump_jumpOk _

theorem run_jumpOk (ops : List AdaptiveClimbOp) : (run ops).JumpOk :=
  Runs.foldl_invariant step_jumpOk ops ⟨le_rfl, le_max_left _ _⟩

/-- The list holds what was tracked, under the scope of the last rebuild. -/
def Follows (s : AdaptiveClimbState) (t : Tracking) : Prop :=
  s.scope = t.scope ∧ ∀ x, x ∈ s.queue.keys ↔ x ∈ t.keys

theorem step_follows {s : AdaptiveClimbState} {t : Tracking} (h : s.Follows t)
    (op : AdaptiveClimbOp) : (s.step op).Follows (t.step (s.victim? op) op) := by
  obtain ⟨hscope, hkeys⟩ := h
  rcases op with ⟨key, hasTtl⟩ | key | key | ⟨entries, scope⟩ | _ | ⟨store, scope⟩
  · have hmem := fun x => @mem_keys_observeInsert s key x hasTtl
    rw [Tracking.step, ← hscope]
    split_ifs with ht
    · refine ⟨observeInsert_scope s key hasTtl, fun x => (hmem x).trans ?_⟩
      rw [hkeys x]
      simp [EvictionScope.takes, ht, and_comm]
    · refine ⟨observeInsert_scope s key hasTtl, fun x => (hmem x).trans ?_⟩
      rw [hkeys x]
      by_cases hx : x = key <;> simp [EvictionScope.takes, hx, ht]
  · exact ⟨(observeAccess_scope s key).trans hscope, fun x =>
      (mem_keys_observeAccess s key).trans (hkeys x)⟩
  · refine ⟨hscope, fun x => (mem_keys_observeRemove s key).trans ?_⟩
    rw [hkeys x]
    exact and_comm
  · refine ⟨rfl, fun x => ?_⟩
    have h := FerrumKv.mem_keys_rebuild scope
      (fun (q : IndexMap Key Unit) k x => @IndexMap.mem_keys_insertBefore _ _ _ q k q.length () x)
      entries IndexMap.empty x
    rw [IndexMap.keys_empty] at h
    exact h.trans (or_iff_left List.not_mem_nil)
  · exact ⟨hscope, fun x => iff_of_false List.not_mem_nil (Set.notMem_empty x)⟩
  · have hmem := fun x => @mem_keys_evictOne s x store scope
    have hsc := @evictOne_scope s store scope
    rw [step, Tracking.step, victim?]
    generalize s.evictOne store scope = r at hmem hsc ⊢
    rcases r with ⟨_ | key, s'⟩
    · refine ⟨hsc.trans hscope, fun x => (hmem x).trans ?_⟩
      rw [hkeys x]
      simp
    · refine ⟨hsc.trans hscope, fun x => (mem_keys_observeRemove s' key).trans ?_⟩
      rw [hmem x, hkeys x]
      simp only [ne_eq, Option.some.injEq, Set.mem_sdiff, Set.mem_ofPred_eq, @eq_comm _ key x]
      tauto

theorem foldl_follows : ∀ (ops : List AdaptiveClimbOp) {s : AdaptiveClimbState} {t : Tracking},
    s.Follows t → (ops.foldl step s).Follows
      (ops.foldl (fun (p : AdaptiveClimbState × Tracking) op =>
        (p.1.step op, p.2.step (p.1.victim? op) op)) (s, t)).2
  | [], _, _, h => h
  | op :: ops, _, _, h => foldl_follows ops (step_follows h op)

theorem run_follows (ops : List AdaptiveClimbOp) : (run ops).Follows (Tracking.after ops) :=
  foldl_follows ops ⟨rfl, fun x => iff_of_false List.not_mem_nil (Set.notMem_empty x)⟩

/-- The operations of a call that take an index. The walk of `evict_one` goes down from the last
index, and may end at any of them. -/
def indexOps (s : AdaptiveClimbState) : AdaptiveClimbOp → List Partial.Op
  | .insert key hasTtl => (s.insertOps key hasTtl).filter Partial.Op.takesIndex
  | .access key => (s.accessOps key).filter Partial.Op.takesIndex
  | .remove key => (s.removeOps key).filter Partial.Op.takesIndex
  | .rebuild entries scope => rebuildOps scope IndexMap.empty entries
  | .clear => []
  | .evict _ _ => (List.range s.queue.length).reverse.map (.index s.queue.length)

theorem safe_indexOps (s : AdaptiveClimbState) (op : AdaptiveClimbOp) :
    Partial.Safe (s.indexOps op) := by
  rcases op with ⟨key, hasTtl⟩ | key | key | ⟨entries, scope⟩ | _ | ⟨store, scope⟩
  · intro x hx
    obtain ⟨hmem, hindex⟩ := List.mem_filter.1 hx
    unfold insertOps at hmem
    split_ifs at hmem
    · exact safe_clampOps _ x hmem
    · simp only [List.mem_append, List.mem_singleton] at hmem
      rcases hmem with (hmem | hmem) | rfl
      · exact safe_clampOps _ x hmem
      · split_ifs at hmem
        · rw [List.mem_singleton.1 hmem] at hindex
          cases hindex
        · cases hmem
      · exact Nat.min_le_right _ _
  · exact fun x hx => safe_accessOps s key x (List.mem_of_mem_filter hx)
  · exact fun x hx => safe_clampOps _ x (List.mem_of_mem_filter hx)
  · exact safe_rebuildOps scope entries _
  · exact Partial.safe_nil
  · exact Partial.safe_map fun i hi => List.mem_range.1 (List.mem_reverse.1 hi)

/-- AdaptiveClimb's list after any history of calls: no key twice, exactly the tracked keys, and
`jump` between 1 and the length; a hit moves its key up by `jump`, an insert puts it `jump` from the
end, and neither reorders the others; the victim is the eligible key closest to the end; no index
is out of range. -/
theorem adaptiveClimb_discipline (ops : List AdaptiveClimbOp) :
    let s := run ops
    s.queue.keys.Nodup
    ∧ (∀ x, x ∈ s.queue.keys ↔ x ∈ (Tracking.after ops).keys)
    ∧ 1 ≤ s.jump ∧ s.jump ≤ max 1 s.queue.length
    ∧ (∀ key p, s.queue.indexOf? key = some p →
        (s.observeAccess key).jump = max 1 (s.jump - 1)
          ∧ (s.observeAccess key).queue.keys
            = place s.queue.keys key (p - (s.observeAccess key).jump))
    ∧ (∀ key, key ∉ s.queue.keys → s.observeAccess key = s)
    ∧ (∀ key hasTtl, s.scope.takes hasTtl → ∀ len, len = (s.queue.keys.filter (· ≠ key)).length →
        (s.observeInsert key hasTtl).jump = max 1 (min (s.jump + 1) len)
          ∧ (s.observeInsert key hasTtl).queue.keys
            = place s.queue.keys key (len - (s.observeInsert key hasTtl).jump))
    ∧ (∀ key hasTtl, ¬s.scope.takes hasTtl → s.observeInsert key hasTtl = s.observeRemove key)
    ∧ (∀ store scope,
        ((s.evictOne store scope).1 = none
          ↔ ∀ key ∈ s.queue.keys, SieveState.eligible store scope key = false)
        ∧ ∀ key, (s.evictOne store scope).1 = some key →
          SieveState.eligible store scope key = true
          ∧ ∃ front back, s.queue.keys = front ++ key :: back
            ∧ ∀ x ∈ back, SieveState.eligible store scope x = false)
    ∧ ∀ op, Partial.Safe (s.indexOps op) := by
  intro s
  have hjump : s.JumpOk := run_jumpOk ops
  refine ⟨s.queue.nodup, (run_follows ops).2, hjump.1, hjump.2, fun key p hp => ?_,
    fun key => observeAccess_of_notMem, ?_, fun key hasTtl ht => if_pos (not_not.1 ht),
    evictOne_last s, safe_indexOps s⟩
  · obtain ⟨hj, hkeys⟩ := keys_observeAccess hjump hp
    exact ⟨hj, hj ▸ hkeys⟩
  · rintro key hasTtl ht len rfl
    obtain ⟨hj, hkeys⟩ := @keys_observeInsert s key hjump hasTtl ht
    exact ⟨hj, hj ▸ hkeys⟩

end FerrumKv.AdaptiveClimbState
