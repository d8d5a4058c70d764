import FerrumKv.Proofs.Batch
import FerrumKv.Proofs.Logged

/-!
# What a refused write leaves behind

The eviction loop deletes its victims one by one before it knows whether enough can be freed. It
gives up only when no key is left that the policy can choose, so a write that is refused for want of
room has cost all of them: it leaves the live keyspace as it was just when none of them was live
(`refused_unchanged_iff`).
-/

namespace FerrumKv

open KvEngine

/-- The writes that ask for admission. -/
def Command.isWrite : Command → Bool
  | .set _ _ | .setNx _ _ | .mset _ | .incrBy _ _ | .incrByFloat _ _ | .append _ _ => true
  | _ => false

section Commands

variable {env : Env} {s s' : KvEngine} {e : FerrumError}

theorem enforceMany_denied {key value : Bytes}
    (h : s.enforceForWrite env key value.length = (.error e, s')) :
    enforceMany env [(key, value)] s = (.error e, s') := by
  unfold enforceMany
  rw [h]

theorem mset_refused {pairs : List (Key × Bytes)} (h : s.mset env pairs = (.error e, s')) :
    requestedPairs env s (.mset pairs) = [] ∧ s' = s
      ∨ enforceMany env (requestedPairs env s (.mset pairs)) s = (.error e, s') := by
  unfold mset insertMany at h
  cases hv : validatePairs pairs with
  | error e' =>
    simp only [hv] at h
    cases h
    exact .inl ⟨by simp [requestedPairs, hv], rfl⟩
  | ok u =>
    simp only [requestedPairs, hv, if_true] at h ⊢
    rcases he : enforceMany env pairs s with ⟨e' | u, s₁⟩ <;> rw [he] at h <;> cases h
    exact .inr rfl

/-- Every refused write ends where its admission was denied, or it failed its own checks. -/
theorem exec_refused {cmd : Command} (hw : cmd.isWrite = true)
    (h : exec env s cmd = (.error e, s')) :
    requestedPairs env s cmd = [] ∧ (s' = s ∨ s' = admissionState env s cmd)
      ∨ enforceMany env (requestedPairs env s cmd) (admissionState env s cmd) = (.error e, s') := by
  cases hkey : cmd.writesKey with
  | some key =>
    have hhandled := @exec_handled env s key cmd hkey (by simp [h])
    rw [h] at hhandled
    generalize requestedPairs env s cmd = pairs at hhandled
    cases hhandled with
    | invalid => exact .inl ⟨rfl, .inl rfl⟩
    | failed => exact .inl ⟨rfl, .inr rfl⟩
    | denied hdenied => exact .inr (enforceMany_denied hdenied)
  | none =>
    cases cmd with
    | mset pairs =>
      have herror : s.mset env pairs = (.error e, s') := by
        rcases hx : s.mset env pairs with ⟨_ | a, t⟩ <;> simp [exec, answer, hx, Except.map] at h
        rw [h.1, h.2]
      exact (mset_refused herror).imp_left (And.imp_right .inl)
    | set | setNx | incrBy | incrByFloat | append => cases hkey
    | _ => cases hw

end Commands

section Live

variable {env : Env} {s s' : KvEngine}

/-- What a write removes before it asks for admission had expired. -/
theorem live_admissionState (env : Env) (s : KvEngine) (cmd : Command) (k : Key) :
    live env.now (admissionState env s cmd).store k = live env.now s.store k := by
  rcases admissionState_cases env s cmd with h | ⟨key, e, hl, hx, h⟩
  · rw [h]
  · have hst : (admissionState env s cmd).store = s.store.erase key := by
      rcases h with h | h <;> rw [h] <;> rfl
    rw [hst, live_erase_of_none ((live_of_lookup hl).trans (shown_of_expired hx))]

/-- What is live and can be chosen is so also when the write asks for admission. -/
theorem selectable_admissionState (env : Env) (s : KvEngine) (cmd : Command) {k : Key}
    (hk : live env.now s.store k ≠ none) :
    Selectable (admissionState env s cmd) k ↔ Selectable s k := by
  rcases admissionState_cases env s cmd with h | ⟨key, e, hl, hx, h⟩
  · rw [h]
  · have hremove : Selectable (admissionState env s cmd) k ↔ Selectable (s.trackRemove key) k := by
      rcases h with h | h <;> rw [h]
      rfl
    rw [hremove, selectable_trackRemove]
    refine and_iff_right ?_
    rintro rfl
    exact hk (by rw [live_of_lookup hl, shown_of_expired hx])

/-- A write that was refused although its own checks passed has taken what was live and could be
chosen, and left everything else. -/
theorem live_denied {cmd : Command} {e : FerrumError}
    (h : enforceMany env (requestedPairs env s cmd) (admissionState env s cmd) = (.error e, s'))
    (k : Key) : (Selectable s k → live env.now s'.store k = none)
      ∧ (¬ Selectable s k → live env.now s'.store k = live env.now s.store k) := by
  obtain ⟨keys, hthin, hnone⟩ :=
    enforceMany_thinned env (requestedPairs env s cmd) (admissionState env s cmd)
  rw [h] at hthin hnone
  have hlive : live env.now s'.store k = if k ∈ keys then none else live env.now s.store k := by
    rw [← live_admissionState env s cmd k]
    unfold live
    rw [hthin.lookup]
    split_ifs <;> rfl
  by_cases hdead : live env.now s.store k = none
  · rw [hlive, hdead, ite_self]
    exact ⟨fun _ => rfl, fun _ => rfl⟩
  · have hadm := selectable_admissionState env s cmd hdead
    refine ⟨fun hsel => ?_, fun hsel => ?_⟩
    · rw [hlive, if_pos]
      by_contra hmem
      exact hnone e rfl k ((hthin.rest k).2 ⟨hmem, hadm.2 hsel⟩)
    · rw [hlive, if_neg fun hmem => hsel (hadm.1 (hthin.chosen k hmem))]

/-- A refused write leaves the live keyspace as it was just when it failed its own checks or no live
key could be chosen as a victim. -/
theorem refused_unchanged_iff {cmd : Command} {e : FerrumError} (hw : cmd.isWrite = true)
    (h : exec env s cmd = (.error e, s')) :
    live env.now s'.store = live env.now s.store
      ↔ requestedPairs env s cmd = [] ∨ ∀ k, Selectable s k → live env.now s.store k = none := by
  rcases exec_refused hw h with ⟨hnil, rfl | rfl⟩ | hdenied
  · exact iff_of_true rfl (.inl hnil)
  · exact iff_of_true (funext (live_admissionState env s cmd)) (.inl hnil)
  · have hne : requestedPairs env s cmd ≠ [] := by
      intro hnil
      rw [hnil] at hdenied
      cases hdenied
    have hlive := live_denied hdenied
    rw [or_iff_right hne]
    constructor
    · intro heq k hk
      rw [← heq]
      exact (hlive k).1 hk
    · intro hnone
      funext k
      by_cases hk : Selectable s k
      · rw [(hlive k).1 hk, hnone k hk]
      · exact (hlive k).2 hk

end Live

def lone : KvEngine := run (startWith none) (roomForOne ++ [⟨Env.steady 0, .set [98] [118]⟩])

/-- The refused write has cost the stored key. -/
theorem refused_write_loses_key :
    (exec (Env.steady 1) lone (.set [99] (List.replicate 60 118))).1 = .error .outOfMemory
      ∧ live 1 lone.store [98] = some ([118], none)
      ∧ live 1 (exec (Env.steady 1) lone (.set [99] (List.replicate 60 118))).2.store [98]
        = none := by
  decide

theorem refused_unchanged_iff_notAnInteger :
    live 1 (exec (Env.steady 1) lone (.incrBy [98] 1)).2.store = live 1 lone.store := by
  have hexec : exec (Env.steady 1) lone (.incrBy [98] 1)
      = (.error notAnInteger, (exec (Env.steady 1) lone (.incrBy [98] 1)).2) :=
    Prod.ext (by decide) rfl
  exact (refused_unchanged_iff rfl hexec).2 (.inl (by decide))

end FerrumKv
