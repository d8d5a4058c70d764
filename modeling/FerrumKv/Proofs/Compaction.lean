import FerrumKv.Proofs.Durability
import FerrumKv.Rewrite

/-!
# What a compact log replays to

The action of a list of records at one key is constant, or an edit of the deadline, or nothing at
all, so acting twice is acting once (`actAll_idem`); what was appended before the snapshot was taken
may be replayed on it again (`actAll_absorb`). The compact log of a snapshot replays to what the
store shows (`actAll_takeSnapshot`).
-/

namespace FerrumKv

open KvEngine

/-- Constant, an edit of the deadline, or nothing at all. -/
def Settled (f : Shown → Shown) : Prop :=
  (∃ c, ∀ p, f p = c) ∨ (∃ d, ∀ p, f p = p.map fun q => (q.1, d)) ∨ ∀ p, f p = p

theorem Settled.idem {f : Shown → Shown} (h : Settled f) (p : Shown) : f (f p) = f p := by
  rcases h with ⟨c, hc⟩ | ⟨d, hd⟩ | hid
  · rw [hc, hc]
  · simp only [hd, Option.map_map, Function.comp_def]
  · rw [hid]

theorem Settled.comp {f g : Shown → Shown} (hf : Settled f) (hg : Settled g) :
    Settled fun p => g (f p) := by
  rcases hg with ⟨c, hc⟩ | ⟨d, hd⟩ | hid
  · exact .inl ⟨c, fun p => hc _⟩
  · rcases hf with ⟨c, hc⟩ | ⟨d', hd'⟩ | hid'
    · exact .inl ⟨g c, fun p => congrArg g (hc p)⟩
    · refine .inr (.inl ⟨d, fun p => ?_⟩)
      simp only [hd, hd', Option.map_map, Function.comp_def]
    · exact .inr (.inl ⟨d, fun p => (congrArg g (hid' p)).trans (hd p)⟩)
  · simp only [hid]
    exact hf

theorem settled_actAt (T : ℕ) (k : Key) (r : AofRecord) :
    Settled fun p => r.actAt T k p := by
  cases r with
  | set key value =>
    by_cases hk : k = key
    · exact .inl ⟨_, fun p => if_pos hk⟩
    · exact .inr (.inr fun p => if_neg hk)
  | del key =>
    by_cases hk : k = key
    · exact .inl ⟨_, fun p => if_pos hk⟩
    · exact .inr (.inr fun p => if_neg hk)
  | flushdb => exact .inl ⟨none, fun p => rfl⟩
  | pexpireat key absMs =>
    by_cases hk : k = key
    · by_cases hle : absMs.toInt ≤ T
      · refine .inl ⟨none, fun p => ?_⟩
        cases p <;> simp [AofRecord.actAt, hk, hle]
      · refine .inr (.inl ⟨some absMs.toInt.toNat, fun p => ?_⟩)
        cases p <;> simp [AofRecord.actAt, hk, hle]
    · exact .inr (.inr fun p => if_neg hk)
  | persist key =>
    by_cases hk : k = key
    · exact .inr (.inl ⟨none, fun p => if_pos hk⟩)
    · exact .inr (.inr fun p => if_neg hk)

theorem settled_foldl (T : ℕ) (k : Key) :
    ∀ rs : List AofRecord, Settled fun p => rs.foldl (AofRecord.actAt T k) p
  | [] => .inr (.inr fun _ => rfl)
  | r :: rs => (settled_actAt T k r).comp (settled_foldl T k rs)

theorem actAll_idem (T : ℕ) (rs : List AofRecord) (v : View) (k : Key) :
    actAll T rs (actAll T rs v) k = actAll T rs v k :=
  (settled_foldl T k rs).idem (v k)

/-- What has been acted once may be acted again before what follows it. -/
theorem actAll_absorb (T : ℕ) (rs rs' : List AofRecord) (v : View) (k : Key) :
    actAll T (rs ++ rs') (actAll T rs v) k = actAll T (rs ++ rs') v k := by
  rw [actAll_append, actAll_append]
  exact actAll_congr rs' (actAll_idem T rs v k)

section Compact

variable {env : Env} {t T : ℕ}

theorem actAll_compactEntry_of_ne {entry : Key × Bytes × Option Int64} {k : Key}
    (hk : k ≠ entry.1) (v : View) : actAll T (compactEntry entry) v k = v k := by
  obtain ⟨key, value, _ | absMs⟩ := entry <;>
    simp only [compactEntry, actAll, List.foldl_cons, List.foldl_nil, AofRecord.actAt, if_neg hk]

theorem actAll_compactEntry (h : env.At t) {key : Key} {e : ValueEntry}
    (he : EntryOk key e) (hx : e.isExpired t = false) (v : View) :
    actAll T (compactEntry (key, e.data,
      e.expireAt.bind fun d => deadlineToEpochMs d env.now env.epochMs)) v key = e.shown T := by
  cases hd : e.expireAt with
  | none =>
    rw [shown_of_no_deadline T hd]
    exact if_pos rfl
  | some d =>
    have hlt : t < d := by
      by_contra hle
      rw [isExpired_iff.2 ⟨d, hd, not_lt.1 hle⟩] at hx
      cases hx
    obtain ⟨absMs, habs, hint⟩ := deadlineToEpochMs_eq h.epochMs hlt (he.2 d hd)
    rw [shown_of_deadline T hd, Option.bind_some, h.now, habs]
    have hle : absMs.toInt ≤ T ↔ d ≤ T := by omega
    have hnat : absMs.toInt.toNat = d := by omega
    simp only [compactEntry, actAll, List.foldl_cons, List.foldl_nil, AofRecord.actAt, if_true,
      Option.bind_some, hle, hnat]

theorem actAll_capture_of_notMem {k : Key} : ∀ {l : List (Σ _ : Key, ValueEntry)}, k ∉ l.keys →
    ∀ v : View, actAll T (compactRecords (l.filterMap (capture env))) v k = v k
  | [], _, _ => rfl
  | ⟨a, e⟩ :: l, hk, v => by
    rw [List.keys_cons, List.mem_cons, not_or] at hk
    have ih := actAll_capture_of_notMem hk.2
    cases hcap : capture env ⟨a, e⟩ with
    | none =>
      rw [List.filterMap_cons_none hcap]
      exact ih v
    | some entry =>
      have ha : entry.1 = a := by
        unfold capture at hcap
        split_ifs at hcap
        cases hcap
        rfl
      rw [List.filterMap_cons_some hcap, compactRecords, List.flatMap_cons, actAll_append]
      exact (ih _).trans (actAll_compactEntry_of_ne (ha ▸ hk.1) v)

theorem actAll_capture (h : env.At t) (hT : t ≤ T) (k : Key) :
    ∀ (l : List (Σ _ : Key, ValueEntry)), l.NodupKeys → (∀ e ∈ l, EntryOk e.1 e.2) →
      ∀ v : View, v k = none →
        actAll T (compactRecords (l.filterMap (capture env))) v k
          = (l.dlookup k).bind (·.shown T)
  | [], _, _, v, hv => hv
  | ⟨a, e⟩ :: l, hnd, hok, v, hv => by
    have hnd' := List.nodupKeys_of_nodupKeys_cons hnd
    have hok' : ∀ e' ∈ l, EntryOk e'.1 e'.2 := fun e' he' => hok e' (List.mem_cons_of_mem _ he')
    have ih := actAll_capture h hT k l hnd' hok'
    cases hx : e.isExpired t with
    | true =>
      have hcap : capture env ⟨a, e⟩ = none := by simp [capture, h.now, hx]
      rw [List.filterMap_cons_none hcap, ih v hv]
      by_cases hk : k = a
      · subst hk
        have hnone : l.dlookup k = none :=
          List.dlookup_eq_none.2 (List.notMem_keys_of_nodupKeys_cons hnd)
        rw [hnone, List.dlookup_cons_eq, Option.bind_some,
          shown_of_expired (isExpired_mono hT hx), Option.bind_none]
      · rw [List.dlookup_cons_ne l ⟨a, e⟩ hk]
    | false =>
      have hcap : capture env ⟨a, e⟩ = some (a, e.data,
          e.expireAt.bind fun d => deadlineToEpochMs d env.now env.epochMs) := by
        simp [capture, h.now, hx]
      rw [List.filterMap_cons_some hcap, compactRecords, List.flatMap_cons, actAll_append]
      by_cases hk : k = a
      · subst hk
        rw [List.dlookup_cons_eq, Option.bind_some]
        exact (actAll_capture_of_notMem (List.notMem_keys_of_nodupKeys_cons hnd) _).trans
          (actAll_compactEntry h (hok _ List.mem_cons_self) hx v)
      · rw [List.dlookup_cons_ne l ⟨a, e⟩ hk]
        exact ih _ ((actAll_compactEntry_of_ne hk v).trans hv)

/-- The compact log of a snapshot replays to what the store shows. -/
theorem actAll_takeSnapshot (h : env.At t) (hT : t ≤ T) {store : Store} (hw : WellFormed store)
    (k : Key) :
    actAll T (compactRecords (takeSnapshot env store)) (fun _ => none) k = live T store k := by
  have hperm := env.iter_perm store
  have hnd : (env.iter store).NodupKeys := (List.perm_nodupKeys hperm).2 store.nodupKeys
  have hok : ∀ e ∈ env.iter store, EntryOk e.1 e.2 := fun e he =>
    hw e.1 e.2 (AList.mem_lookup_iff.2 (hperm.mem_iff.1 he))
  refine (actAll_capture h hT k _ hnd hok (fun _ => none) rfl).trans ?_
  rw [List.perm_dlookup k hnd hperm]
  rfl

theorem compactRecords_valid {store : Store} (hw : WellFormed store) :
    ∀ r ∈ compactRecords (takeSnapshot env store), r.Valid := by
  intro r hr
  obtain ⟨entry, hentry, hr⟩ := List.mem_flatMap.1 hr
  obtain ⟨⟨a, e⟩, he, hcap⟩ := List.mem_filterMap.1 hentry
  have hok := hw a e (AList.mem_lookup_iff.2 ((env.iter_perm store).mem_iff.1 he))
  unfold capture at hcap
  split_ifs at hcap
  cases hcap
  generalize e.expireAt.bind _ = ttl at hr
  cases ttl with
  | none =>
    obtain rfl := List.mem_singleton.1 hr
    exact hok.1
  | some absMs =>
    rcases List.mem_cons.1 hr with rfl | hr
    · exact hok.1
    · obtain rfl := List.mem_singleton.1 hr
      exact validateKey_of_validatePair hok.1

end Compact

end FerrumKv
