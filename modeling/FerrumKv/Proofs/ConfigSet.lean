import FerrumKv.Lib.Runs
import FerrumKv.Server
import FerrumKv.Switch

/-!
# Concurrent `CONFIG SET`

A `CONFIG SET` installs the whole configuration, computed from the one it read. Where no change is
installed while another thread is to install a configuration that it computed for another parameter,
what a thread installs is its change applied to the configuration of that moment (`Serial`), and the
configuration is what the changes give in the order in which they were installed
(`configSet_serial`). Otherwise an acknowledged change is lost (`configSet_lost`).
-/

namespace FerrumKv

namespace Change

variable {c d : Change}

theorem apply_apply (h : d.overwrites c = true) (cfg : EvictionConfig) :
    d.apply (c.apply cfg) = d.apply cfg := by
  cases d <;> cases c <;> first | rfl | cases h

/-- The configuration has the change in it. -/
def InEffect (c : Change) (cfg : EvictionConfig) : Prop := c.apply cfg = cfg

theorem inEffect_apply (c : Change) (cfg : EvictionConfig) : c.InEffect (c.apply cfg) := by
  cases c <;> rfl

theorem InEffect.apply {cfg : EvictionConfig} (h : c.InEffect cfg)
    (hi : c.independent d = true) : c.InEffect (d.apply cfg) := by
  unfold InEffect at h ⊢
  cases c <;> cases d <;> first | (cases hi; done) | skip
  all_goals
    simp only [Change.apply] at h ⊢
    rw [← h]

def applyAll (cfg : EvictionConfig) (changes : List Change) : EvictionConfig :=
  changes.foldl (fun cfg c => c.apply cfg) cfg

theorem applyAll_append (cfg : EvictionConfig) (cs ds : List Change) :
    applyAll cfg (cs ++ ds) = applyAll (applyAll cfg cs) ds :=
  List.foldl_append

theorem InEffect.applyAll : ∀ {ds : List Change} {cfg : EvictionConfig}, c.InEffect cfg →
    (∀ d ∈ ds, d = c ∨ c.independent d = true) → c.InEffect (applyAll cfg ds)
  | [], _, h, _ => h
  | d :: ds, cfg, h, hi => by
    have hd : c.InEffect (d.apply cfg) := by
      rcases hi d List.mem_cons_self with rfl | hd
      · exact inEffect_apply d cfg
      · exact h.apply hd
    have hrest := InEffect.applyAll hd fun x hx => hi x (List.mem_cons_of_mem d hx)
    exact hrest

/-- A change whose parameter no other one has is in effect in the end. -/
theorem inEffect_of_mem {ds : List Change} (hc : c ∈ ds)
    (hi : ∀ d ∈ ds, d = c ∨ c.independent d = true) (cfg : EvictionConfig) :
    c.InEffect (Change.applyAll cfg ds) := by
  obtain ⟨before, after, rfl⟩ := List.append_of_mem hc
  rw [applyAll_append]
  refine (inEffect_apply c (Change.applyAll cfg before)).applyAll fun d hd => hi d ?_
  exact List.mem_append_right before (List.mem_cons_of_mem c hd)

end Change

namespace Server

/-- The change of the eviction configuration that a `CONFIG SET` asks for. -/
def changeOf (param value : Bytes) : Option Change :=
  if Utf8.valid param = true ∧ Utf8.valid value = true then
    match parameter (asciiLowercase param) with
    | .maxMemory => (parseBytes value).toOption.map .maxMemory
    | .maxMemoryPolicy => (EvictionPolicy.fromName (asciiLowercase value)).map .policy
    | .maxMemorySamples => ((parseU64 (Utf8.trim value)).filter (0 < ·)).map .samples
    | _ => none
  else none

/-- A `CONFIG SET` that asks for a change installs the current configuration with that change. -/
theorem configSet_of_changeOf {param value : Bytes} {change : Change} (s : Server) (env : Env)
    (h : changeOf param value = some change) :
    s.configSet env param value = s.configure env (change.apply s.engine.eviction) := by
  unfold changeOf at h
  split_ifs at h with hu
  unfold configSet configSetValue
  rw [if_neg (by simp [hu.1]), if_neg (by simp [hu.2])]
  cases hp : parameter (asciiLowercase param) <;> rw [hp] at h <;> simp only [] at h ⊢
  case requirepass | slowlogLogSlowerThan | slowlogMaxLen | unknown => cases h
  case maxMemory =>
    cases hb : parseBytes value with
    | error e =>
      rw [hb] at h
      cases h
    | ok bytes =>
      rw [hb] at h
      cases h
      rfl
  case maxMemoryPolicy =>
    cases hb : EvictionPolicy.fromName (asciiLowercase value) with
    | none =>
      rw [hb] at h
      cases h
    | some p =>
      rw [hb] at h
      cases h
      rfl
  case maxMemorySamples =>
    obtain ⟨n, hn, rfl⟩ := Option.map_eq_some_iff.1 h
    obtain ⟨hn, hpos⟩ := Option.filter_eq_some_iff.1 hn
    simp only [hn]
    rw [if_pos (by simpa using hpos)]
    rfl

end Server

namespace ConfigSystem

def changing (c : ℕ) (change : Change) (env : Env) : List Event :=
  [.request c change, .load c, .lock c, .rebuild c env, .clear c, .publish c, .install c]

/-- A change that meets no other thread does what `setEvictionConfig` does. -/
theorem run_changing {s : ConfigSystem} {c : ℕ} (change : Change) (env : Env)
    (hidle : (s.thread c).pc = .idle) (hw : s.writer = none) (hs : s.sieveOwner = none)
    (ha : s.acOwner = none) :
    (s.run (changing c change env)).mem
      = s.mem.setEvictionConfig env (change.apply s.mem.eviction) := by
  by_cases hkind : (change.apply s.mem.eviction).policy.indexKind = s.mem.indexKind
  · simp [run, changing, step, hidle, setThread, setPc, newKind, hkind, KvEngine.setEvictionConfig]
  by_cases hsv : (change.apply s.mem.eviction).policy.indexKind.isSieve = true
  · simp [run, changing, step, hidle, setThread, setPc, newKind, hkind, KvEngine.setEvictionConfig,
      rebuildFirst, clearSecond, hw, hs, ha, hsv]
  by_cases hac : (change.apply s.mem.eviction).policy.indexKind.isAc = true
  all_goals
    simp [run, changing, step, hidle, setThread, setPc, newKind, hkind, KvEngine.setEvictionConfig,
      rebuildFirst, clearSecond, hw, hs, ha, hsv, hac]

/-! ## What a step does to the configuration -/

/-- The step leaves the configuration, the history, and what the threads are to install. -/
structure Unconfigured (s s' : ConfigSystem) : Prop where
  eviction : s'.mem.eviction = s.mem.eviction
  asked : s'.asked = s.asked
  installed : s'.installed = s.installed
  thread : ∀ c, (Open (s'.thread c).pc ↔ Open (s.thread c).pc)
    ∧ (s'.thread c).change = (s.thread c).change ∧ (s'.thread c).cfg = (s.thread c).cfg

section Step

variable {s s' : ConfigSystem} {c : ℕ} {pc : ThreadPc}

theorem Unconfigured.refl (s : ConfigSystem) : Unconfigured s s :=
  ⟨rfl, rfl, rfl, fun _ => ⟨Iff.rfl, rfl, rfl⟩⟩

theorem Unconfigured.moved (hpc : Open pc ↔ Open (s.thread c).pc)
    (ht : s'.thread = Function.update s.thread c { s.thread c with pc := pc })
    (he : s'.mem.eviction = s.mem.eviction) (ha : s'.asked = s.asked)
    (hi : s'.installed = s.installed) : Unconfigured s s' := by
  refine ⟨he, ha, hi, fun c' => ?_⟩
  rw [ht]
  by_cases hne : c' = c
  · subst hne
    rw [Function.update_self]
    exact ⟨hpc, rfl, rfl⟩
  · rw [Function.update_of_ne hne]
    exact ⟨Iff.rfl, rfl, rfl⟩

theorem rebuildFirst_unconfigured (env : Env) (hpc : (s.thread c).pc = .locked) :
    Unconfigured s (s.rebuildFirst c env) := by
  have hopen : Open .rebuilt ↔ Open (s.thread c).pc := by simp [hpc, Open, InCall]
  unfold rebuildFirst
  split_ifs <;> first | exact .refl s | exact .moved hopen rfl rfl rfl rfl

theorem clearSecond_unconfigured (hpc : (s.thread c).pc = .rebuilt) :
    Unconfigured s (s.clearSecond c) := by
  have hopen : Open .cleared ↔ Open (s.thread c).pc := by simp [hpc, Open, InCall]
  unfold clearSecond
  split_ifs <;> first | exact .refl s | exact .moved hopen rfl rfl rfl rfl

theorem touchEntry_unconfigured (r : AccessReading) (key : Key) (hpc : (s.thread c).pc = .reading) :
    Unconfigured s (s.touchEntry c r key) := by
  unfold touchEntry
  split
  · have hopen : Open (.touched key) ↔ Open (s.thread c).pc := by simp [hpc, Open, InCall]
    exact .moved hopen rfl rfl rfl rfl
  · exact .refl s

theorem tellIndex_unconfigured : Unconfigured s (s.tellIndex c) := by
  unfold tellIndex
  split
  · rename_i key kind hpc
    have hopen : Open (.sieveTold key) ↔ Open (s.thread c).pc := by simp [hpc, Open, InCall]
    split_ifs <;> first | exact .refl s | exact .moved hopen rfl rfl rfl rfl
  · rename_i key kind hpc
    have hopen : Open .reading ↔ Open (s.thread c).pc := by simp [hpc, Open, InCall]
    split_ifs <;> first | exact .refl s | exact .moved hopen rfl rfl rfl rfl
  · exact .refl s

theorem step_cases (s : ConfigSystem) (e : Event) :
    (∃ c change, (s.thread c).pc = .idle
        ∧ s.step e = { s.setThread c ⟨.called, change, change.apply s.mem.eviction⟩ with
          asked := s.asked ++ [change] })
      ∨ (∃ c, e = .install c ∧ (s.thread c).pc = .installing
        ∧ s.step e = { s.setPc c .idle with
          mem := { s.mem with eviction := (s.thread c).cfg }
          installed := s.installed ++ [(s.thread c).change] })
      ∨ Unconfigured s (s.step e) := by
  cases e with
  | request c change =>
    simp only [step]
    split_ifs with hpc
    · exact .inl ⟨c, change, hpc, rfl⟩
    · exact .inr (.inr (.refl s))
  | install c =>
    simp only [step]
    split_ifs with hpc
    · exact .inr (.inl ⟨c, rfl, hpc, rfl⟩)
    · exact .inr (.inr (.refl s))
  | load c =>
    refine .inr (.inr ?_)
    simp only [step]
    split_ifs with hpc <;> try exact .refl s
    all_goals exact .moved (by simp [hpc, Open, InCall]) rfl rfl rfl rfl
  | lock c | publish c | share c | unshare c | begin c =>
    refine .inr (.inr ?_)
    simp only [step]
    split_ifs with hpc <;> try exact .refl s
    exact .moved (by simp [hpc, Open, InCall]) rfl rfl rfl rfl
  | rebuild c env =>
    refine .inr (.inr ?_)
    simp only [step]
    split_ifs with hpc
    · exact rebuildFirst_unconfigured env hpc
    · exact .refl s
  | clear c =>
    refine .inr (.inr ?_)
    simp only [step]
    split_ifs with hpc
    · exact clearSecond_unconfigured hpc
    · exact .refl s
  | touch c r key =>
    refine .inr (.inr ?_)
    simp only [step]
    split_ifs with hpc
    · exact touchEntry_unconfigured r key hpc
    · exact .refl s
  | peek c =>
    refine .inr (.inr ?_)
    simp only [step]
    split
    · rename_i key hpc
      exact .moved (by simp [hpc, Open, InCall]) rfl rfl rfl rfl
    · rename_i key hpc
      exact .moved (by simp [hpc, Open, InCall]) rfl rfl rfl rfl
    · exact .refl s
  | tell c => exact .inr (.inr tellIndex_unconfigured)
  | copy c | finish c =>
    refine .inr (.inr ?_)
    simp only [step]
    split
    · rename_i cfg hpc
      exact .moved (by simp [hpc, Open, InCall]) rfl rfl rfl rfl
    · exact .refl s
  | deed c d =>
    refine .inr (.inr ?_)
    simp only [step]
    split
    · exact ⟨rfl, rfl, rfl, fun _ => ⟨Iff.rfl, rfl, rfl⟩⟩
    · exact .refl s

end Step

/-! ## The invariant -/

/-- The threads that are to install a configuration, with their changes. -/
def Lists (s : ConfigSystem) (pending : List (ℕ × Change)) : Prop :=
  (pending.map Prod.fst).Nodup
    ∧ ∀ c change, (c, change) ∈ pending ↔ Open (s.thread c).pc ∧ (s.thread c).change = change

/-- The configuration is what the installed changes give one after another, a thread is to install
its change applied to the configuration, and every change asked for is installed or pending. -/
def Serial (cfg : EvictionConfig) (s : ConfigSystem) : Prop :=
  s.mem.eviction = Change.applyAll cfg s.installed
    ∧ (∀ c, Open (s.thread c).pc → (s.thread c).cfg = (s.thread c).change.apply s.mem.eviction)
    ∧ ∃ pending, Lists s pending ∧ s.asked.Perm (s.installed ++ pending.map Prod.snd)

theorem serial_start (mem : KvEngine) : Serial mem.eviction (start mem) := by
  have hnone : ∀ c, ¬ Open ((start mem).thread c).pc := by
    rintro c (h | h)
    · cases h
    · exact h
  refine ⟨rfl, fun c hc => absurd hc (hnone c), [], ⟨List.nodup_nil, fun c change => ?_⟩, .refl _⟩
  simp [hnone c]

section Serial

variable {cfg : EvictionConfig} {s s' : ConfigSystem} {c : ℕ} {change : Change}

theorem Serial.unconfigured (h : Serial cfg s) (hu : Unconfigured s s') : Serial cfg s' := by
  obtain ⟨heq, hcfg, pending, ⟨hnodup, hmem⟩, hperm⟩ := h
  refine ⟨by rw [hu.eviction, hu.installed, heq], fun c' hc => ?_, pending,
    ⟨hnodup, fun c' change => ?_⟩, by rw [hu.asked, hu.installed]; exact hperm⟩
  · obtain ⟨hopen, hch, hc'⟩ := hu.thread c'
    rw [hc', hch, hu.eviction]
    exact hcfg c' (hopen.1 hc)
  · obtain ⟨hopen, hch, -⟩ := hu.thread c'
    rw [hopen, hch]
    exact hmem c' change

theorem Serial.request (h : Serial cfg s) (hidle : (s.thread c).pc = .idle) :
    Serial cfg { s.setThread c ⟨.called, change, change.apply s.mem.eviction⟩ with
      asked := s.asked ++ [change] } := by
  obtain ⟨heq, hcfg, pending, ⟨hnodup, hmem⟩, hperm⟩ := h
  have hnew : ∀ ch, (c, ch) ∉ pending := fun ch hin => by
    have hopen := ((hmem c ch).1 hin).1
    simp [hidle, Open, InCall] at hopen
  refine ⟨heq, fun c' hc => ?_, (c, change) :: pending, ⟨?_, fun c' ch => ?_⟩, ?_⟩
  · by_cases hne : c' = c
    · subst hne
      simp only [setThread, Function.update_self]
    · simp only [setThread, Function.update_of_ne hne] at hc ⊢
      exact hcfg c' hc
  · rw [List.map_cons, List.nodup_cons]
    refine ⟨fun hin => ?_, hnodup⟩
    obtain ⟨⟨c', ch⟩, hin', rfl⟩ := List.mem_map.1 hin
    exact hnew ch hin'
  · by_cases hne : c' = c
    · subst hne
      simp [setThread, Open, hnew ch, eq_comm]
    · simp only [setThread, Function.update_of_ne hne, List.mem_cons, Prod.mk.injEq, hne, false_and,
        false_or]
      exact hmem c' ch
  · refine (hperm.append_right [change]).trans ?_
    rw [List.append_assoc, List.map_cons]
    exact (List.perm_append_singleton change _).append_left _

theorem Serial.install (h : Serial cfg s) (hpc : (s.thread c).pc = .installing)
    (hu : Undisturbed s (.install c)) :
    Serial cfg { s.setPc c .idle with
      mem := { s.mem with eviction := (s.thread c).cfg }
      installed := s.installed ++ [(s.thread c).change] } := by
  obtain ⟨heq, hcfg, pending, ⟨hnodup, hmem⟩, hperm⟩ := h
  have hopen : Open (s.thread c).pc := by simp [hpc, Open, InCall]
  have hin : (c, (s.thread c).change) ∈ pending := (hmem c _).2 ⟨hopen, rfl⟩
  have hinst := hcfg c hopen
  refine ⟨?_, fun c' hc => ?_, pending.erase (c, (s.thread c).change), ⟨?_, fun c' ch => ?_⟩, ?_⟩
  · change (s.thread c).cfg = _
    rw [hinst, heq, Change.applyAll_append]
    rfl
  · by_cases hne : c' = c
    · subst hne
      simp [setPc, setThread, Open, InCall] at hc
    · simp only [setPc, setThread, Function.update_of_ne hne] at hc ⊢
      rw [hcfg c' hc, hinst, Change.apply_apply (hu hpc c' hne hc)]
  · exact hnodup.sublist (List.erase_sublist.map Prod.fst)
  · have hnd : pending.Nodup := List.Nodup.of_map Prod.fst hnodup
    rw [hnd.mem_erase_iff]
    by_cases hne : c' = c
    · subst hne
      simp only [setPc, setThread, Function.update_self, Open, InCall]
      constructor
      · rintro ⟨hne, hin'⟩
        exact absurd (by rw [((hmem c' ch).1 hin').2]) hne
      · rintro ⟨h | h, -⟩
        · cases h
        · exact h.elim
    · simp only [setPc, setThread, Function.update_of_ne hne, ne_eq, Prod.mk.injEq, hne, false_and,
        not_false_eq_true, true_and]
      exact hmem c' ch
  · have hsplit := (List.perm_cons_erase hin).map Prod.snd
    refine hperm.trans ((hsplit.append_left s.installed).trans ?_)
    rw [List.map_cons, ← List.append_cons]

theorem step_serial (h : Serial cfg s) {e : Event} (hu : Undisturbed s e) :
    Serial cfg (s.step e) := by
  rcases step_cases s e with ⟨c, change, hidle, he⟩ | ⟨c, rfl, hpc, he⟩ | hfix
  · rw [he]
    exact h.request hidle
  · rw [he]
    exact h.install hpc hu
  · exact h.unconfigured hfix

end Serial

theorem run_serial (mem : KvEngine) (events : List Event)
    (hu : ∀ n e, events[n]? = some e → Undisturbed ((start mem).run (events.take n)) e) :
    Serial mem.eviction ((start mem).run events) := by
  have h : ∀ n, Serial mem.eviction ((events.take n).foldl step (start mem)) :=
    Runs.forall_take (serial_start mem) fun n e he ih => step_serial ih (hu n e he)
  have hlast := h events.length
  rwa [List.take_length] at hlast

/-- Once every change asked for is installed, the configuration is what they give one after another
in some order; a change whose parameter no other one has is in effect. -/
theorem configSet_serial (mem : KvEngine) (events : List Event)
    (hu : ∀ n e, events[n]? = some e → Undisturbed ((start mem).run (events.take n)) e)
    {s : ConfigSystem} (hrun : (start mem).run events = s)
    (hdone : ∀ c, ¬ Open (s.thread c).pc) :
    (∃ order, order.Perm s.asked ∧ s.mem.eviction = Change.applyAll mem.eviction order)
      ∧ ∀ change ∈ s.asked,
        (∀ other ∈ s.asked, other = change ∨ change.independent other = true) →
        change.InEffect s.mem.eviction := by
  have h := run_serial mem events hu
  rw [hrun] at h
  obtain ⟨heq, -, pending, ⟨-, hmem⟩, hperm⟩ := h
  have hnil : pending = [] := by
    refine List.eq_nil_iff_forall_not_mem.2 fun p hp => ?_
    exact hdone p.1 ((hmem p.1 p.2).1 hp).1
  rw [hnil, List.map_nil, List.append_nil] at hperm
  refine ⟨⟨s.installed, hperm.symm, heq⟩, fun change hin hi => ?_⟩
  rw [heq]
  exact Change.inEffect_of_mem (hperm.mem_iff.1 hin) (fun other ho => hi other (hperm.mem_iff.2 ho)) _

/-- Two clients set one parameter at once, and a third one sets another one later. -/
def sameParameter : List Event :=
  [.request 0 (.maxMemory 100), .request 1 (.maxMemory 200), .load 0, .load 1, .install 1,
    .install 0, .request 2 (.samples 7), .load 2, .install 2]

theorem configSet_serial_sameParameter :
    (Change.samples 7).InEffect ((start KvEngine.new).run sameParameter).mem.eviction := by
  have hu : ∀ n e, sameParameter[n]? = some e →
      Undisturbed ((start KvEngine.new).run (sameParameter.take n)) e := by
    rintro (_ | _ | _ | _ | _ | _ | _ | _ | _ | n) e he <;> cases he
    all_goals first | trivial | skip
    all_goals
      intro _ c' hne hopen
      rcases c' with _ | _ | _ | c'
      all_goals first | rfl | exact absurd rfl hne | (rcases hopen with h | h <;> cases h)
  have hdone : ∀ c, ¬ Open (((start KvEngine.new).run sameParameter).thread c).pc := by
    rintro (_ | _ | _ | c) (h | h) <;> cases h
  refine (configSet_serial KvEngine.new sameParameter hu rfl hdone).2 (.samples 7) (by decide) ?_
  decide

/-- Two clients set different parameters at once. -/
def overlappingSets : List Event :=
  [.request 0 (.maxMemory 100), .request 1 (.samples 7), .load 0, .load 1, .install 0, .install 1]

/-- Both are answered, and the first one is lost: in either order the ceiling would be set. -/
theorem configSet_lost :
    (∀ c, ¬ Open (((start KvEngine.new).run overlappingSets).thread c).pc)
      ∧ ((start KvEngine.new).run overlappingSets).asked = [.maxMemory 100, .samples 7]
      ∧ ((start KvEngine.new).run overlappingSets).mem.eviction.maxMemory = 0
      ∧ ∀ order : List Change, order.Perm [.maxMemory 100, .samples 7] →
        (Change.applyAll KvEngine.new.eviction order).maxMemory = 100 := by
  refine ⟨?_, by decide, by decide, fun order hperm => ?_⟩
  · rintro (_ | _ | c) (h | h) <;> cases h
  · have heffect : (Change.maxMemory 100).InEffect (Change.applyAll KvEngine.new.eviction order) := by
      refine Change.inEffect_of_mem (hperm.mem_iff.2 (by decide)) (fun other ho => ?_) _
      have hin := hperm.mem_iff.1 ho
      fin_cases hin
      · exact .inl rfl
      · exact .inr rfl
    exact (congrArg EvictionConfig.maxMemory heffect).symm

end ConfigSystem

end FerrumKv
