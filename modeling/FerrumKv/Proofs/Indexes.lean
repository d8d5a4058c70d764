import FerrumKv.Proofs.Victim

/-!
# What the notifications do to the tracked keys

For either index the keys it tracks after an insert, an access, a removal and a rebuild, and after
it chose a victim. A victim leaves the index at once, and as long as every tracked key is eligible
nothing else does (`SieveState.mem_keys_evictOne`, `AdaptiveClimbState.mem_keys_evictOne`).
-/

namespace FerrumKv

/-- Whether a key with or without a deadline is in scope. -/
def EvictionScope.takes (scope : EvictionScope) (hasTtl : Bool) : Prop :=
  ¬(scope = .volatile ∧ hasTtl = false)

theorem admits_iff {scope : EvictionScope} {e : ValueEntry} :
    scope.admits e = true ↔ scope.takes e.expireAt.isSome := by
  cases scope <;> simp [EvictionScope.admits, EvictionScope.takes, Option.isSome_iff_ne_none]

section Rebuild

variable {Q : Type} {ins : Q → Key → Q} {keys : Q → List Key}

theorem mem_keys_rebuild (scope : EvictionScope)
    (hins : ∀ q k x, x ∈ keys (ins q k) ↔ x = k ∨ x ∈ keys q) :
    ∀ (entries : List (Σ _ : Key, ValueEntry)) (q : Q) (x : Key),
      x ∈ keys (entries.foldl (fun q e => if scope.admits e.2 then ins q e.1 else q) q)
        ↔ (∃ e, ⟨x, e⟩ ∈ entries ∧ scope.admits e = true) ∨ x ∈ keys q
  | [], q, x => by simp
  | ⟨k, e⟩ :: entries, q, x => by
    rw [List.foldl_cons, mem_keys_rebuild scope hins entries]
    by_cases ha : scope.admits e = true
    · rw [if_pos ha, hins]
      constructor
      · rintro (⟨e', he', ha'⟩ | rfl | hx)
        · exact .inl ⟨e', List.mem_cons_of_mem _ he', ha'⟩
        · exact .inl ⟨e, List.mem_cons_self, ha⟩
        · exact .inr hx
      · rintro (⟨e', he', ha'⟩ | hx)
        · rcases List.mem_cons.1 he' with heq | he'
          · exact .inr (.inl (congrArg Sigma.fst heq))
          · exact .inl ⟨e', he', ha'⟩
        · exact .inr (.inr hx)
    · rw [if_neg ha]
      constructor
      · rintro (⟨e', he', ha'⟩ | hx)
        · exact .inl ⟨e', List.mem_cons_of_mem _ he', ha'⟩
        · exact .inr hx
      · rintro (⟨e', he', ha'⟩ | hx)
        · rcases List.mem_cons.1 he' with heq | he'
          · cases heq
            exact absurd ha' ha
          · exact .inl ⟨e', he', ha'⟩
        · exact .inr hx

end Rebuild

theorem inScope_iff_mem_iter {env : Env} {store : Store} {scope : EvictionScope} {x : Key} :
    (∃ e, ⟨x, e⟩ ∈ env.iter store ∧ scope.admits e = true) ↔ InScope store scope x := by
  unfold InScope
  simp only [(env.iter_perm store).mem_iff, ← AList.mem_lookup_iff, Option.mem_def]

namespace SieveState

variable {scope : EvictionScope} {demote : ValueEntry → Bool} {store : Store}

variable (s : SieveState) (key : Key) {x : Key}

theorem indexOf?_none {m : IndexMap Key Bool} (h : m.indexOf? key = none) : key ∉ m.keys := by
  intro hk
  have := List.findIdx?_eq_none_iff.1 h key hk
  simp at this

theorem mem_keys_observeRemove :
    x ∈ (s.observeRemove key).queue.keys ↔ x ≠ key ∧ x ∈ s.queue.keys := by
  unfold observeRemove
  split
  · exact IndexMap.mem_keys_shiftRemove s.queue key
  · rename_i h
    refine ⟨fun hx => ⟨?_, hx⟩, fun hx => hx.2⟩
    rintro rfl
    exact indexOf?_none x h hx

theorem observeRemove_scope : (s.observeRemove key).scope = s.scope := by
  unfold observeRemove
  split <;> rfl

theorem mem_keys_observeInsert (hasTtl : Bool) :
    x ∈ (s.observeInsert key hasTtl).queue.keys
      ↔ x = key ∧ s.scope.takes hasTtl ∨ x ≠ key ∧ x ∈ s.queue.keys := by
  unfold observeInsert EvictionScope.takes
  split_ifs with h
  · rw [mem_keys_observeRemove]
    simp [h]
  · refine (IndexMap.mem_keys_insert s.queue key false).trans ?_
    by_cases hx : x = key <;> simp [hx, h]

theorem observeInsert_scope (hasTtl : Bool) : (s.observeInsert key hasTtl).scope = s.scope := by
  unfold observeInsert
  split_ifs
  · exact observeRemove_scope s key
  · rfl

theorem keys_observeAccess : (s.observeAccess key).queue.keys = s.queue.keys :=
  IndexMap.keys_modify _ _ _

theorem mem_keys_rebuild {env : Env} :
    x ∈ (rebuild (env.iter store) scope).queue.keys ↔ InScope store scope x := by
  have h := FerrumKv.mem_keys_rebuild scope
    (fun (q : IndexMap Key Bool) k x => IndexMap.mem_keys_insert q k false (x := x))
    (env.iter store) IndexMap.empty x
  rw [inScope_iff_mem_iter, IndexMap.keys_empty] at h
  simpa [rebuild] using h

/-- A sweep over eligible keys takes out its victim and nothing else. -/
theorem mem_keys_evictLoop
    (looks : ℕ) (s : SieveState) (hs : ∀ k ∈ s.queue.keys, InScope store scope k) (x : Key) :
    x ∈ (evictLoop store scope demote looks s).2.queue.keys
      ↔ (evictLoop store scope demote looks s).1 ≠ some x ∧ x ∈ s.queue.keys := by
  refine evictLoop_rule (R := fun s r => (∀ k ∈ s.queue.keys, InScope store scope k) →
      (x ∈ r.2.queue.keys ↔ r.1 ≠ some x ∧ x ∈ s.queue.keys))
    (fun s _ => by simp) (fun s r h hs => ?_) (fun s key _ r hkey helig _ hs => ?_)
    (fun s key _ _ _ _ _ => ?_) (fun s key _ r _ _ _ h hs => ?_) looks s hs
  · rw [wrapped_queue] at h
    exact h hs
  · rw [eligible_iff.2 (hs key (IndexMap.getIndex?_mem hkey))] at helig
    cases helig
  · simp only [wrapped_queue, IndexMap.mem_keys_shiftRemove, ne_eq, Option.some.injEq]
    exact and_congr_left fun _ => not_congr eq_comm
  · rw [IndexMap.keys_modify] at h
    exact h hs

theorem mem_keys_evictOne (hs : ∀ k ∈ s.queue.keys, InScope store scope k) :
    x ∈ (s.evictOne store scope demote).2.queue.keys
      ↔ (s.evictOne store scope demote).1 ≠ some x ∧ x ∈ s.queue.keys := by
  unfold evictOne
  split_ifs
  · simp
  · exact mem_keys_evictLoop _ s hs x

theorem evictLoop_scope
    (looks : ℕ) (s : SieveState) : (evictLoop store scope demote looks s).2.scope = s.scope :=
  evictLoop_rule (R := fun s r => r.2.scope = s.scope) (fun _ => rfl)
    (fun s _ h => h.trans (wrapped_scope s)) (fun _ _ _ _ _ _ h => h)
    (fun _ _ _ _ _ _ => wrapped_scope _) (fun _ _ _ _ _ _ _ h => h) looks s

theorem evictOne_scope :
    (s.evictOne store scope demote).2.scope = s.scope := by
  unfold evictOne
  split_ifs
  · rfl
  · exact evictLoop_scope _ s

end SieveState

namespace AdaptiveClimbState

variable (s : AdaptiveClimbState) (key : Key) {x : Key}

theorem mem_keys_observeRemove :
    x ∈ (s.observeRemove key).queue.keys ↔ x ≠ key ∧ x ∈ s.queue.keys :=
  IndexMap.mem_keys_shiftRemove s.queue key

theorem mem_keys_observeInsert (hasTtl : Bool) :
    x ∈ (s.observeInsert key hasTtl).queue.keys
      ↔ x = key ∧ s.scope.takes hasTtl ∨ x ≠ key ∧ x ∈ s.queue.keys := by
  unfold observeInsert EvictionScope.takes
  split_ifs with h
  · rw [mem_keys_observeRemove]
    simp [h]
  · refine (IndexMap.mem_keys_insertBefore _ key _ ()).trans ?_
    rw [clampJump, IndexMap.mem_keys_shiftRemove]
    by_cases hx : x = key <;> simp [hx, h]

theorem observeInsert_scope (hasTtl : Bool) : (s.observeInsert key hasTtl).scope = s.scope := by
  unfold observeInsert
  split_ifs <;> rfl

theorem mem_keys_observeAccess : x ∈ (s.observeAccess key).queue.keys ↔ x ∈ s.queue.keys := by
  unfold observeAccess
  split
  · rfl
  · simp only []
    split_ifs <;> simp

theorem observeAccess_scope : (s.observeAccess key).scope = s.scope := by
  unfold observeAccess
  split <;> rfl

theorem mem_keys_rebuild {env : Env} {store : Store} {scope : EvictionScope} :
    x ∈ (rebuild (env.iter store) scope).queue.keys ↔ InScope store scope x := by
  have h := FerrumKv.mem_keys_rebuild scope
    (fun (q : IndexMap Key Unit) k x => IndexMap.mem_keys_insertBefore q k q.length () (x := x))
    (env.iter store) IndexMap.empty x
  rw [inScope_iff_mem_iter, IndexMap.keys_empty] at h
  simpa [rebuild] using h

theorem mem_keys_evictOne {store : Store} {scope : EvictionScope} :
    x ∈ (s.evictOne store scope).2.queue.keys
      ↔ (s.evictOne store scope).1 ≠ some x ∧ x ∈ s.queue.keys := by
  unfold evictOne
  split
  · simp only [IndexMap.mem_keys_shiftRemove, ne_eq, Option.some.injEq]
    exact and_congr_left fun _ => not_congr eq_comm
  · simp

theorem evictOne_scope {store : Store} {scope : EvictionScope} :
    (s.evictOne store scope).2.scope = s.scope := by
  unfold evictOne
  split <;> rfl

end AdaptiveClimbState

end FerrumKv
