import FerrumKv.Proofs.Overlap
import FerrumKv.Proofs.Reference
import FerrumKv.Restarts

/-!
# Restarts that nobody notices

A restart at `T` shows what was live at `T`, and so does every later restart at which the log still
agreed. So over any number of lifetimes every command is answered as by a reference that was never
restarted, as long as no command replaces or clears a deadline that passes before a later restart
(`restarts_invisible`).
-/

namespace FerrumKv

open KvEngine

section Map

variable {r r' : Ref}

theorem Ref.foldl_write_map (pairs : List (Key × Bytes)) : ∀ {r r' : Ref}, r.map = r'.map →
    (pairs.foldl (fun r p => r.write p.1 p.2 none) r).map
      = (pairs.foldl (fun r p => r.write p.1 p.2 none) r').map := by
  induction pairs with
  | nil => exact fun h => h
  | cons p pairs ih => exact fun h => ih (by simp [Ref.write, h])

theorem Ref.removeAll_map : ∀ (keys : List Key) {r r' : Ref}, r.map = r'.map →
    (Ref.removeAll keys r).1 = (Ref.removeAll keys r').1
      ∧ (Ref.removeAll keys r).2.map = (Ref.removeAll keys r').2.map
  | [], _, _, h => ⟨rfl, h⟩
  | key :: keys, r, r', h => by
    have hremove : (r.remove key).map = (r'.remove key).map := by simp only [Ref.remove, h]
    obtain ⟨hn, hm⟩ := Ref.removeAll_map keys hremove
    have hholds : r.holds key = r'.holds key := by simp only [Ref.holds, h]
    refine ⟨?_, hm⟩
    simp only [Ref.removeAll]
    rw [hholds, hn]

/-- What a command answers and leaves in the map depends on the map alone. -/
theorem Ref.step_map (ops : FloatOps) (now : ℕ) (h : r.map = r'.map) (cmd : Command) :
    (Ref.step ops now r cmd).1 = (Ref.step ops now r' cmd).1
      ∧ (Ref.step ops now r cmd).2.map = (Ref.step ops now r' cmd).2.map := by
  have hvalue : r.value = r'.value := by funext k; simp only [Ref.value, h]
  have hholds : r.holds = r'.holds := by funext k; simp only [Ref.holds, h]
  have hdead : r.deadline = r'.deadline := by funext k; simp only [Ref.deadline, h]
  have hdeads : r.deadlines = r'.deadlines := by simp only [Ref.deadlines, h]
  have hwrite : ∀ k v d, (r.write k v d).map = (r'.write k v d).map := by
    intro k v d
    simp only [Ref.write, h]
  have hremove : ∀ k, (r.remove k).map = (r'.remove k).map := by
    intro k
    simp only [Ref.remove, h]
  cases cmd with
  | delMany keys =>
    obtain ⟨hn, hm⟩ := Ref.removeAll_map keys h
    simp only [Ref.step, hn, hm, and_self]
  | mset pairs =>
    simp only [Ref.step]
    split
    · exact ⟨rfl, h⟩
    · exact ⟨rfl, Ref.foldl_write_map pairs h⟩
  | dbsize | scanKeys | ttlMs => simp only [Ref.step, h, and_self]
  | get | mget | existsKey | existsMany =>
    simp only [Ref.step, hvalue, hholds, Ref.count, h, and_self]
  | del => simp only [Ref.step, hholds, hremove, and_self]
  | expireStats => simp only [Ref.step, hdeads, h, and_self]
  | strlen | memoryUsage => simp only [Ref.step, hvalue, h, and_self]
  | flushdb => exact ⟨rfl, rfl⟩
  | sweepExpired | setEvictionConfig => exact ⟨rfl, h⟩
  | set | setNx | incrBy | incrByFloat | append | expireAtMs | persist =>
    simp only [Ref.step, hvalue, hholds, hdead, h]
    repeat' split
    all_goals first | exact ⟨rfl, h⟩ | exact ⟨rfl, hwrite _ _ _⟩ | exact ⟨rfl, hremove _⟩

end Map

section Shadow

variable {env : Env} {t T : ℕ} {s : KvEngine} {r : Ref}

theorem Ref.lookup_expire (r : Ref) (t : ℕ) (k : Key) :
    (r.expire t).map.lookup k = clip t (r.map.lookup k) := by
  refine (AList.lookup_filter (fun _ p => Ref.ahead t p.2) r.map k).trans ?_
  rcases r.map.lookup k with _ | ⟨v, d⟩
  · rfl
  · rw [ahead_eq, Option.filter_some]

/-- The engine has no memory ceiling and shows what is left of the reference at `t`. -/
structure Shadows (t : ℕ) (s : KvEngine) (r : Ref) : Prop where
  ceiling : s.eviction.maxMemory = 0
  shows : Shows t s.store (r.expire t)

theorem clip_clip (ht : t ≤ T) (p : Shown) : clip T (clip t p) = clip T p := by
  rcases p with _ | ⟨v, _ | d⟩
  · rfl
  · rfl
  · by_cases hd : d ≤ t
    · simp [clip, hd, hd.trans ht]
    · simp [clip, hd]

theorem Shadows.later (h : Shadows t s r) (ht : t ≤ T) : Shadows T s r := by
  refine ⟨h.ceiling, fun k => ?_⟩
  rw [live_clip ht, h.shows k, Ref.lookup_expire, Ref.lookup_expire, clip_clip ht]

theorem Shadows.of_shows (h0 : s.eviction.maxMemory = 0) (h : Shows t s.store r) :
    Shadows t s r := by
  refine ⟨h0, fun k => ?_⟩
  rw [Ref.lookup_expire, ← h k, ← live_clip le_rfl]

/-- A command answers as the reference, whatever the two have counted. -/
theorem Shadows.step (h : Shadows t s r) (hAt : env.At t) {cmd : Command} (hc : cmd.NoCeiling) :
    SameAnswer (exec env s cmd).1 (r.exec env.float t cmd).1
      ∧ Shadows t (exec env s cmd).2 (r.exec env.float t cmd).2 := by
  have hsim : Sim t s ⟨(r.expire t).map, s.hits, s.misses⟩ := ⟨h.ceiling, rfl, rfl, h.shows⟩
  obtain ⟨hans, hsim⟩ := exec_matches hAt hsim hc
  have hrefs : (Ref.mk (r.expire t).map s.hits s.misses).map = (r.expire t).map := rfl
  obtain ⟨heq, hmap⟩ := Ref.step_map env.float t hrefs cmd
  refine ⟨heq ▸ hans, .of_shows hsim.ceiling fun k => ?_⟩
  rw [hsim.shows k, hmap]
  rfl

end Shadow

section Restart

variable {env : Env} {T : ℕ} {s : KvEngine}

theorem applyAll_wellFormed (h : env.At T) : ∀ (rs : List AofRecord) {s : KvEngine},
    s.eviction.maxMemory = 0 → (∀ r ∈ rs, r.Valid) → WellFormed s.store →
      (applyAll env s rs).eviction.maxMemory = 0 ∧ WellFormed (applyAll env s rs).store
  | [], _, h0, _, hw => ⟨h0, hw⟩
  | r :: rs, s, h0, hv, hw => by
    have hr := hv r List.mem_cons_self
    exact applyAll_wellFormed h rs (by rw [(applyRecord_ok env h0 hr).2]; exact h0)
      (fun r' hr' => hv r' (List.mem_cons_of_mem _ hr')) (applyRecord_wellFormed h h0 hr hw)

/-- A sound engine starts again with its log, shows what the log replays to, and is sound. -/
theorem restart_eq (h : env.At T) (hs : Sound s) :
    ∃ s', restart env s = some s' ∧ Sound s' ∧ s'.log = s.log ∧ s'.eviction.maxMemory = 0
      ∧ ∀ k, live T s'.store k = actAll T s.log (fun _ => none) k := by
  have h0 : KvEngine.new.eviction.maxMemory = 0 := rfl
  obtain ⟨hcap, hw⟩ := applyAll_wellFormed h s.log h0 hs.valid sound_new.1
  refine ⟨{ applyAll env .new s.log with aof := some s.log }, ?_, ⟨hw, s.log, rfl, hs.valid⟩, rfl,
    hcap, live_applyAll h s.log h0 hs.valid⟩
  rw [restart, replay_encodeLog env h0 hs.valid]

end Restart

section Lifetimes

variable {t : ℕ} {s : KvEngine} {r : Ref} {steps : List LifeStep}

/-- What holds between two steps: the engine shows the reference, and each restart that is still to
come would show what the engine shows then. -/
structure Follows (t : ℕ) (s : KvEngine) (r : Ref) (steps : List LifeStep) : Prop where
  sound : Sound s
  shadows : Shadows t s r
  agrees : ∀ T env clock, .restart T env clock ∈ steps →
    ∀ k, actAll T s.log (fun _ => none) k = live T s.store k

theorem StepSafe.of_ref {T : ℕ} {cmd : Command} (h : Shadows t s r) (hsafe : r.StepSafe T t cmd) :
    StepSafe T t s.store cmd := by
  cases cmd with
  | expireAtMs key abs => exact fun v d hl => hsafe v d ((h.shows key).symm.trans hl)
  | persist key => exact fun v d hl => hsafe v d ((h.shows key).symm.trans hl)
  | _ => trivial

theorem Follows.call {c : TimedCall} (h : Follows t s r (.call c :: steps)) (ht : t ≤ c.t)
    (hlater : ∀ l ∈ steps, c.t ≤ l.time) (hc : c.cmd.NoCeiling)
    (hsafe : ∀ T env clock, .restart T env clock ∈ steps → r.StepSafe T c.t c.cmd) :
    SameAnswer (exec c.env s c.cmd).1 (r.exec c.env.float c.t c.cmd).1
      ∧ Follows c.t (exec c.env s c.cmd).2 (r.exec c.env.float c.t c.cmd).2 steps := by
  have hsh := h.shadows.later ht
  obtain ⟨hans, hsh'⟩ := hsh.step c.clock hc
  refine ⟨hans, exec_sound c.clock h.sound c.cmd, hsh', fun T env clock hT => ?_⟩
  exact actAll_log_of_safe c.clock (hlater _ hT) h.sound (.of_ref hsh (hsafe T env clock hT))
    (h.agrees T env clock (List.mem_cons_of_mem _ hT))

theorem Follows.restart {T : ℕ} {env : Env} {clock : env.At T}
    (h : Follows t s r (.restart T env clock :: steps)) (ht : t ≤ T)
    (hlater : ∀ l ∈ steps, T ≤ l.time) :
    ∃ s', FerrumKv.restart env s = some s' ∧ Follows T s' r steps := by
  obtain ⟨s', hs', hsound, hlog, h0, hlive⟩ := restart_eq clock h.sound
  have hnow : ∀ k, live T s'.store k = live T s.store k :=
    fun k => (hlive k).trans (h.agrees T env clock List.mem_cons_self k)
  refine ⟨s', hs', hsound, ⟨h0, fun k => ?_⟩, fun T' env' clock' hT' k => ?_⟩
  · rw [hnow k, (h.shadows.later ht).shows k]
  · have hle : T ≤ T' := hlater _ hT'
    rw [hlog, h.agrees T' env' clock' (List.mem_cons_of_mem _ hT') k, live_clip hle,
      live_clip hle s'.store, hnow k]

theorem Follows.answers : ∀ (steps : List LifeStep) {t : ℕ} {s : KvEngine} {r : Ref},
    Follows t s r steps → (∀ l ∈ steps, t ≤ l.time) → (steps.map LifeStep.time).Pairwise (· ≤ ·) →
    (∀ l ∈ steps, l.NoCeiling) → RestartSafe r steps →
      ∃ as, lifeAnswers s steps = some as ∧ List.Forall₂ SameAnswer as (r.answers steps)
  | [], _, _, _, _, _, _, _, _ => ⟨[], rfl, .nil⟩
  | .call c :: steps, t, s, r, h, ht, hord, hcs, hsafe => by
    obtain ⟨hle, hord⟩ := List.pairwise_cons.1 hord
    have hle : ∀ l ∈ steps, c.t ≤ l.time := fun l hl => hle _ (List.mem_map_of_mem hl)
    obtain ⟨hans, hnext⟩ := h.call (ht _ List.mem_cons_self) hle (hcs _ List.mem_cons_self) hsafe.1
    obtain ⟨as, has, hall⟩ := Follows.answers steps hnext hle hord
      (fun l hl => hcs l (List.mem_cons_of_mem _ hl)) hsafe.2
    exact ⟨_ :: as, by rw [lifeAnswers, has, Option.map_some], .cons hans hall⟩
  | .restart T env clock :: steps, t, s, r, h, ht, hord, hcs, hsafe => by
    obtain ⟨hle, hord⟩ := List.pairwise_cons.1 hord
    have hle : ∀ l ∈ steps, T ≤ l.time := fun l hl => hle _ (List.mem_map_of_mem hl)
    obtain ⟨s', hs', hnext⟩ := h.restart (ht _ List.mem_cons_self) hle
    obtain ⟨as, has, hall⟩ := Follows.answers steps hnext hle hord
      (fun l hl => hcs l (List.mem_cons_of_mem _ hl)) hsafe
    exact ⟨as, by rw [lifeAnswers, hs', Option.bind_some, has], hall⟩

/-- Over any number of lifetimes every start succeeds, and every command is answered as by a
reference that was never restarted. -/
theorem restarts_invisible (steps : List LifeStep)
    (hord : (steps.map LifeStep.time).Pairwise (· ≤ ·)) (hcs : ∀ l ∈ steps, l.NoCeiling)
    (hsafe : RestartSafe .empty steps) :
    ∃ as, lifeAnswers KvEngine.new.withAof steps = some as
      ∧ List.Forall₂ SameAnswer as (Ref.empty.answers steps) := by
  have hstart : Follows 0 KvEngine.new.withAof .empty steps :=
    ⟨sound_new, .of_shows rfl fun _ => rfl, fun _ _ _ _ _ => rfl⟩
  exact hstart.answers steps (fun _ _ => Nat.zero_le _) hord hcs hsafe

/-- `SET k v` and `PEXPIREAT k 10`, with a `GET` after a restart before the deadline and one after
a restart at it. -/
def twiceRestarted : List LifeStep :=
  [.call (.soon 0 (.set [107] [118])), .call (.soon 0 (.expireAtMs [107] 10)),
    .restart 5 (Env.steady 5) (Env.steady_at (by decide)), .call (.soon 6 (.get [107])),
    .restart 10 (Env.steady 10) (Env.steady_at (by decide)), .call (.soon 11 (.get [107]))]

theorem restarts_invisible_twiceRestarted :
    ∃ as, lifeAnswers KvEngine.new.withAof twiceRestarted = some as
      ∧ List.Forall₂ SameAnswer as [.ok (.value none), .ok (.flag true), .ok (.value (some [118])),
        .ok (.value none)] := by
  refine restarts_invisible twiceRestarted (by decide) ?_ ?_
  · intro l hl
    fin_cases hl <;> trivial
  · refine ⟨fun _ _ _ _ => trivial, fun T _ _ _ v d hl => ?_, fun _ _ _ _ => trivial,
      fun _ _ _ _ => trivial, trivial⟩
    cases hl

end Lifetimes

end FerrumKv
