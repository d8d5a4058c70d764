import FerrumKv.Proofs.Frame
import FerrumKv.Proofs.Quiet
import FerrumKv.Proofs.Session

/-!
# No command poisons the store's lock

A run of commands from a fresh engine never panics, as long as the samples it configures can be
allocated and its clocks and counters stay within range (`no_lock_poisoned`). The number of samples is
the one condition that a client breaks with a few commands (`samples_poison_store`).
-/

namespace FerrumKv

open KvEngine
open Partial (Op Safe maxAllocation IsI64)

structure Request where
  reading : Reading
  version : ProtocolVersion
  cmd : Protocol.Command

def Protocol.Command.keyCount : Protocol.Command → ℕ
  | .mSet pairs => pairs.length
  | .mGet keys | .del keys | .existsMany keys => keys.length
  | .set _ _ | .setNx _ _ | .incrBy _ _ | .incrByFloat _ _ | .get _ | .append _ _ | .strLen _
  | .expire _ _ | .pExpire _ _ | .pExpireAt _ _ | .persist _ | .ttl _ | .pTtl _ | .memoryUsage _ => 1
  | _ => 0

/-- What a command adds to the counters at most. -/
def Request.load (q : Request) : ℕ := 2 * q.cmd.keyCount + 1

/-- A number of samples that `CONFIG SET` is given can be allocated. -/
def Protocol.Command.SamplesFit : Protocol.Command → Prop
  | .config _ [param, value] =>
    Server.parameter (asciiLowercase param) = .maxMemorySamples →
      ∀ n, parseU64 (Utf8.trim value) = some n → n * candidateBytes ≤ maxAllocation
  | _ => True

/-- How far away a deadline can be set, in milliseconds. -/
def span : ℕ := 2 ^ 63 - 1000

namespace Server

section Frame

variable {α : Type} (s : Server)

theorem locked_engine (h : s.poisoned = false) (first : Except FerrumError Unit)
    (f : KvEngine → Except FerrumError α × KvEngine) :
    (s.locked first f).2.engine = (f s.engine).2 := by
  simp [locked, h]

theorem withStore_engine (h : s.poisoned = false) (f : KvEngine → α × KvEngine) :
    (s.withStore f).2.engine = (f s.engine).2 :=
  locked_engine s h _ _

/-- The flag and the slow log's counter, which no arm of the match changes. -/
def tokens : Bool × ℕ := (s.poisoned, s.slowlogSeq)

theorem announce_engine (r : Reading) (cmd : Protocol.Command) :
    (s.announce r cmd).engine = s.engine := by
  unfold announce
  simp only []
  split_ifs <;> rfl

theorem announce_tokens (r : Reading) (cmd : Protocol.Command) :
    (s.announce r cmd).tokens = s.tokens := by
  unfold announce
  simp only []
  split_ifs <;> rfl

theorem dispatch_tokens (r : Reading) (version : ProtocolVersion) (cmd : Protocol.Command) :
    (s.dispatch r version cmd).2.tokens = s.tokens :=
  congrArg (fun x => (x.1.1, x.1.2.1)) (s.dispatch_ledger r version cmd)

end Frame

section Command

variable {horizon origin : ℕ} {s : Server} {r : Reading} {version : ProtocolVersion}

theorem configSet_engine (h : s.poisoned = false) (env : Env) (param value : Bytes) :
    (s.configSet env param value).2.engine
      = (s.configured param value).elim s.engine (s.engine.setEvictionConfig env) := by
  have hset : ∀ cfg, (s.configure env cfg).2.engine = s.engine.setEvictionConfig env cfg := by
    intro cfg
    unfold configure
    rw [answered_snd]
    simp [Server.setEvictionConfig, h]
  unfold configSet configured
  by_cases hp : Utf8.valid param = true
  · by_cases hv : Utf8.valid value = true
    · simp only [hp, hv, Bool.true_eq_false, if_false, and_self, if_true]
      unfold configSetValue
      rcases parameter (asciiLowercase param) <;> simp only []
      case maxMemory => rcases parseBytes value with e | n <;> simp [hset, Except.toOption]
      case maxMemoryPolicy =>
        rcases EvictionPolicy.fromName (asciiLowercase value) with _ | p <;> simp [hset]
      case maxMemorySamples =>
        rcases parseU64 (Utf8.trim value) with _ | n
        · rfl
        · by_cases hn : 0 < n <;> simp [hn, hset, Option.filter]
      case slowlogLogSlowerThan => rcases parseI64 (Utf8.trim value) <;> rfl
      case slowlogMaxLen =>
        rcases parseU64 (Utf8.trim value) with _ | n
        · rfl
        · by_cases hn : 0 < n <;> simp [hn]
      all_goals rfl
    · simp [hp, hv]
  · simp [hp]

theorem configured_samples {param value sub : Bytes} {cfg : EvictionConfig}
    (h : s.configured param value = some cfg)
    (hs : (Protocol.Command.config sub [param, value]).SamplesFit)
    (he : s.engine.eviction.samples * candidateBytes ≤ maxAllocation) :
    cfg.samples * candidateBytes ≤ maxAllocation := by
  unfold configured at h
  split_ifs at h
  split at h
  · obtain ⟨n, -, rfl⟩ := Option.map_eq_some_iff.1 h
    exact he
  · obtain ⟨p, -, rfl⟩ := Option.map_eq_some_iff.1 h
    exact he
  · rename_i hp
    obtain ⟨n, hn, rfl⟩ := Option.map_eq_some_iff.1 h
    exact hs hp n (Option.filter_eq_some_iff.1 hn).1
  · cases h

theorem config_quietly (h : s.poisoned = false) {sub : Bytes} {args : List Bytes}
    (hshape : sub = text "GET" ∧ (∃ p, args = [p]) ∨ sub = text "SET" ∧ ∃ p v, args = [p, v])
    (hs : (Protocol.Command.config sub args).SamplesFit) :
    Quietly horizon 0 (s.configSites r sub args) s.engine
      (s.configReply r.env version sub args).2.engine := by
  have hget : eqIgnoreAsciiCase (text "GET") (text "GET") = true := by decide
  have hset : eqIgnoreAsciiCase (text "SET") (text "GET") = false := by decide
  have hset' : eqIgnoreAsciiCase (text "SET") (text "SET") = true := by decide
  rcases hshape with ⟨rfl, p, rfl⟩ | ⟨rfl, p, v, rfl⟩
  · simp only [configSites, configReply, hget, if_true]
    exact .check fun _ _ _ => by simp [Op.Succeeds]
  · simp only [configSites, configReply, hset, hset', if_true, Bool.false_eq_true, if_false, h]
    rw [configSet_engine h]
    have hindex : Quietly horizon 0
        (s.engine.sites false [.index [p, v].length 0, .index [p, v].length 1]) s.engine s.engine :=
      .check fun _ _ _ => by simp [Op.Succeeds]
    intro n hn hf
    rcases hc : s.configured p v with _ | cfg
    · exact hindex.trans (.refl _) n hn hf
    · exact hindex.trans
        (setEvictionConfig_quietly r.env s.engine (configured_samples hc hs hf.samples)) n hn hf

theorem slowLog_quietly (s : Server) (sub : Bytes) (args : List Bytes) :
    Quietly horizon 0 (s.slowLogSites sub args) s.engine (s.slowLogReply sub args).2.engine := by
  have hengine : (s.slowLogReply sub args).2.engine = s.engine := by
    unfold slowLogReply
    split_ifs
    · split
      · rfl
      · split <;> rfl
    · rfl
    · rfl
    · rfl
  rw [hengine]
  unfold slowLogSites
  split_ifs with h
  · exact .check fun _ _ _ => Partial.safe_cons.2
      ⟨List.length_pos_iff.2 h.2, Partial.safe_nil⟩
  · exact .refl _

theorem dbsize_le {n : ℕ} {e : KvEngine} (h : Fit horizon n e) (env : Env) : e.dbsize env ≤ n := by
  unfold dbsize
  have hlen := (env.iter_perm e.store).length_eq
  have hfilter := List.length_filter_le (fun x => !x.2.isExpired env.shared) (env.iter e.store)
  exact (hfilter.trans hlen.le).trans h.store

theorem expireSums_le (now : ℕ) : ∀ (entries : List (Σ _ : Key, ValueEntry)) (acc : ℕ × ℕ),
    (entries.foldl (fun acc e =>
      if e.2.isExpired now then acc
      else
        match e.2.expireAt with
        | some deadline => (acc.1 + 1, min (acc.2 + (deadline - now)) (2 ^ 64 - 1))
        | none => acc) acc).1 ≤ acc.1 + entries.length
  | [], acc => le_refl _
  | e :: entries, acc => by
    rw [List.foldl_cons, List.length_cons]
    refine (expireSums_le now entries _).trans ?_
    split_ifs
    · omega
    · split
      · show acc.1 + 1 + entries.length ≤ _
        omega
      · omega

theorem expireStats_le {n : ℕ} {e : KvEngine} (h : Fit horizon n e) (env : Env) :
    (e.expireStats env).1 ≤ n := by
  have hlen := (env.iter_perm e.store).length_eq
  have hsum : (expireSums env.shared (env.iter e.store)).1 ≤ 0 + _ :=
    expireSums_le env.shared (env.iter e.store) (0, 0)
  have hstore := h.store
  show (expireSums env.shared (env.iter e.store)).1 ≤ n
  omega

theorem info_quietly (s : Server) (r : Reading) (part : Option Bytes) :
    Quietly horizon 0 (s.infoSites r part) s.engine s.engine := by
  have hcount : ∀ m, (∀ n, Fit horizon n s.engine → m ≤ n) →
      Quietly horizon 0 (s.engine.sites false (countOps m)) s.engine s.engine := fun m hm =>
    .check fun n hn hf => safe_countOps (by
      have := hm n hf
      simp only [keyLimit] at hn
      omega)
  have hmul : Quietly horizon 0
      (s.engine.sites false [.mulU64 s.engine.store.entries.length perIndexEntryBytes])
      s.engine s.engine := .check fun n hn hf => by
    have := hf.store
    simp only [keyLimit] at hn
    simp only [Partial.safe_cons, Partial.safe_nil, Op.Succeeds, perIndexEntryBytes, and_true]
    omega
  unfold infoSites
  simp only []
  show Quietly horizon (0 + 0) _ _ _
  refine Quietly.trans (b := s.engine) ?_ ?_
  · split_ifs
    · exact hmul
    · exact .refl _
  · split_ifs
    · exact (hcount _ fun _ hf => dbsize_le hf r.env).trans
        (hcount _ fun _ hf => expireStats_le hf r.env)
    · exact (hcount _ fun _ hf => dbsize_le hf r.env).trans (.refl _)
    · exact .refl _

theorem ttlMs_le {n : ℕ} {e : KvEngine} {env : Env} {key : Key} {ms : Int64}
    (hf : Fit horizon n e) (hshared : horizon ≤ env.shared + span)
    (hnow : horizon ≤ env.now + span) (h : (e.ttlMs env key).1 = .millis ms) :
    0 ≤ ms.toInt ∧ ms.toInt ≤ span := by
  have hstatus : ∀ {now : ℕ} {entry : ValueEntry}, e.store.lookup key = some entry →
      horizon ≤ now + span → ttlStatus now entry = .millis ms → 0 ≤ ms.toInt ∧ ms.toInt ≤ span := by
    intro now entry he hle hms
    unfold ttlStatus at hms
    rcases hd : entry.expireAt with _ | d <;> simp only [hd] at hms
    · cases hms
    · rw [TtlStatus.millis.injEq] at hms
      have hdle := (hf.entries key entry he).2.2 d hd
      generalize hleft : d - now = left at hms
      simp only [span] at hle ⊢
      rw [← hms, Int64.toInt_ofInt_of_le] <;> omega
  unfold ttlMs ttlOf at h
  rcases he : e.store.lookup key with _ | entry <;> simp only [he] at h
  · cases h
  · split_ifs at h
    · exact hstatus he hnow h
    · exact hstatus he hshared h

theorem ttl_quiet {n : ℕ} (hn : n ≤ keyLimit) (hf : Fit horizon n s.engine)
    (hshared : horizon ≤ r.env.shared + span) (hnow : horizon ≤ r.env.now + span) (key : Key) :
    Quiet (s.ttlSites r key) ∧ Fit horizon n (s.engine.ttlMs r.env key).2 := by
  obtain ⟨hquiet, hfit⟩ := ttlMs_quietly r.env s.engine key n hn hf
  refine ⟨quiet_append.2 ⟨hquiet, ?_⟩, hfit⟩
  split
  · rename_i ms hms
    obtain ⟨hlow, hhigh⟩ := ttlMs_le hf hshared hnow hms
    simp only [span] at hhigh
    simp only [quiet_sites, Partial.safe_cons, Partial.safe_nil, Op.Succeeds, IsI64, and_true]
    omega
  · exact quiet_nil

theorem storeSites_quietly {cmd : Protocol.Command} (h : s.poisoned = false)
    (ho : origin < 998 * 2 ^ 63) (hr : r.env.InRange) (hh : r.env.now + span ≤ horizon)
    {args : List Bytes} (hshape : cmd.Shape args) (hlen : args.length < Protocol.maxArrayElements)
    (hbulk : ∀ a ∈ args, a.length ≤ Protocol.maxBulkLen) (hs : cmd.SamplesFit)
    (httl : ∀ key, cmd ≠ .ttl key) :
    Quietly horizon (2 * cmd.keyCount) (s.dispatchSites origin r cmd) s.engine
      (s.dispatch r version cmd).2.engine := by
  cases cmd <;>
    simp only [dispatchSites, dispatchSites.storeSites, dispatch, answered_snd, h,
      Bool.false_eq_true, if_false, locked_engine s h, withStore_engine s h,
      Protocol.Command.keyCount]
  case set key value => exact (set_quietly r.env ho s.engine key value).mono (by omega)
  case setNx key value => exact (setNx_quietly r.env ho s.engine key value).mono (by omega)
  case mSet pairs => exact (mset_quietly r.env ho s.engine pairs).mono (by omega)
  case mGet keys =>
    subst hshape
    exact mget_quietly r.env s.engine hlen
  case incrBy key delta => exact (incrBy_quietly r.env ho s.engine key delta).mono (by omega)
  case incrByFloat key delta =>
    exact (incrByFloat_quietly r.env ho s.engine key delta).mono (by omega)
  case get key => exact (get_quietly r.env s.engine key).mono (by omega)
  case del keys =>
    subst hshape
    split_ifs with hne
    · exact Quietly.skip _
    · rw [answered_snd, withStore_engine s h]
      exact (delMany_quietly r.env s.engine hlen hbulk hne).mono (by omega)
  case existsMany keys =>
    subst hshape
    split_ifs with hne
    · simp only [existsManySites, hne, if_true]
      exact .refl _
    · rw [answered_snd, withStore_engine s h]
      exact existsMany_quietly r.env s.engine hlen
  case ping msg => cases msg <;> exact .refl _
  case append key value =>
    exact (appendValue_quietly r.env ho s.engine key (hbulk value hshape)).mono (by omega)
  case strLen key => exact (strlen_quietly r.env s.engine key).mono (by omega)
  case dbSize =>
    refine .check fun n hn hf => safe_countOps ?_
    have := dbsize_le hf r.env
    simp only [keyLimit] at hn
    omega
  case flushDb => exact flushdb_quietly s.engine
  case expire key seconds =>
    simp only [expireReply, expireSites, withStore_engine s h]
    exact (expireAtMs_quietly r.env hr hh s.engine key _).mono (by omega)
  case pExpire key millis =>
    simp only [expireReply, expireSites, withStore_engine s h]
    exact (expireAtMs_quietly r.env hr hh s.engine key _).mono (by omega)
  case pExpireAt key absEpochMs =>
    exact (expireAtMs_quietly r.env hr hh s.engine key absEpochMs).mono (by omega)
  case persist key => exact (persist_quietly r.env s.engine key).mono (by omega)
  case ttl key => exact absurd rfl (httl key)
  case pTtl key => exact (ttlMs_quietly r.env s.engine key).mono (by omega)
  case memoryUsage key => exact (memoryUsage_quietly r.env s.engine key).mono (by omega)
  case info part => exact info_quietly s r part
  case config sub args => exact config_quietly h hshape hs
  case slowLog sub args => exact slowLog_quietly s sub args
  all_goals exact .refl _

/-- One command from an engine within bounds: no operation fails, and deadlines are at most `span`
after the command's clock. -/
theorem dispatch_quiet {cmd : Protocol.Command} {n : ℕ} (h : s.poisoned = false)
    (ho : origin < 998 * 2 ^ 63) (hr : r.env.InRange)
    (hprod : Protocol.Produced r.env.float cmd) (hs : cmd.SamplesFit)
    (hshared : horizon ≤ r.env.shared + span) (hnow : horizon ≤ r.env.now + span)
    (hn : n + 2 * cmd.keyCount ≤ keyLimit) (hf : Fit horizon n s.engine) :
    Quiet (s.dispatchSites origin r cmd) ∧
      Fit (r.env.now + span) (n + 2 * cmd.keyCount) (s.dispatch r version cmd).2.engine := by
  obtain ⟨args, hshape, hlen, hbulk⟩ := hprod.shape
  by_cases httl : ∃ key, cmd = .ttl key
  · obtain ⟨key, rfl⟩ := httl
    obtain ⟨hquiet, hfit⟩ := ttl_quiet (by omega) hf hshared hnow key
    simp only [dispatchSites, dispatchSites.storeSites, dispatch, answered_snd, h,
      Bool.false_eq_true, if_false, withStore_engine s h]
    exact ⟨hquiet, (hfit.extend hnow).mono (by omega)⟩
  · exact storeSites_quietly h ho hr (le_refl _) hshape hlen hbulk hs
      (fun key hk => httl ⟨key, hk⟩) n hn (hf.extend hnow)

theorem attempt_of_quiet {cmd : Protocol.Command}
    (hq : Quiet ((s.announce r cmd).dispatchSites origin r cmd))
    (hseq : s.slowlogSeq + 1 < 2 ^ 64) :
    s.attempt origin r version cmd
      = (some (s.executeCommand r version cmd).1, (s.executeCommand r version cmd).2) := by
  have hfind : ((s.announce r cmd).dispatchSites origin r cmd).find? Site.panics = none :=
    List.find?_eq_none.2 fun x hx => by simp [Site.panics, hq x hx]
  have htokens := ((s.announce r cmd).dispatch_tokens r version cmd).trans (s.announce_tokens r cmd)
  have hdone : ((s.announce r cmd).dispatch r version cmd).2.slowlogSeq = s.slowlogSeq :=
    congrArg Prod.snd htokens
  have hnum : (Op.addU64 ((s.announce r cmd).dispatch r version cmd).2.slowlogSeq 1).Succeeds := by
    rw [hdone]
    exact hseq
  unfold attempt
  simp only [hfind, hnum, not_true_eq_false, and_false, if_false]

/-- The slow log's counter advances by one at most, and nothing poisons the lock. -/
theorem executeCommand_tokens (s : Server) (r : Reading) (version : ProtocolVersion)
    (cmd : Protocol.Command) :
    (s.executeCommand r version cmd).2.poisoned = s.poisoned ∧
      (s.executeCommand r version cmd).2.slowlogSeq ≤ s.slowlogSeq + 1 ∧
      (s.executeCommand r version cmd).2.engine
        = ((s.announce r cmd).dispatch r version cmd).2.engine := by
  have htokens := ((s.announce r cmd).dispatch_tokens r version cmd).trans (s.announce_tokens r cmd)
  rw [tokens, tokens, Prod.mk.injEq] at htokens
  unfold executeCommand noteSlow maybePushSlowlog
  simp only []
  split_ifs
  · exact ⟨htokens.1, by rw [htokens.2], rfl⟩
  · exact ⟨htokens.1, by rw [htokens.2]; omega, rfl⟩
  · exact ⟨htokens.1, by rw [htokens.2]; omega, rfl⟩

end Command

def fresh (aof : Option (List AofRecord)) : Server :=
  { Server.new with engine := KvEngine.startWith aof }

def step (origin : ℕ) (s : Server) (q : Request) : Server :=
  (s.attempt origin q.reading q.version q.cmd).2

/-- A server whose engine is within bounds at the time `now`, after requests of the given load. -/
structure Ready (now load : ℕ) (s : Server) : Prop where
  poisoned : s.poisoned = false
  seq : s.slowlogSeq ≤ load
  engine : Fit (now + span) load s.engine

section Runs

variable {origin now load : ℕ} {s : Server}

theorem Ready.step {q : Request} (h : Ready now load s) (ho : origin < 998 * 2 ^ 63)
    (hr : q.reading.env.InRange) (hprod : Protocol.Produced q.reading.env.float q.cmd)
    (hs : q.cmd.SamplesFit) (hshared : now ≤ q.reading.env.shared) (hnow : now ≤ q.reading.env.now)
    (hn : load + q.load ≤ keyLimit) :
    (s.attempt origin q.reading q.version q.cmd).1 ≠ none ∧
      Ready q.reading.env.now (load + q.load) (s.step origin q) := by
  have htokens := s.announce_tokens q.reading q.cmd
  have hp : (s.announce q.reading q.cmd).poisoned = false :=
    (congrArg Prod.fst htokens).trans h.poisoned
  have hf := h.engine
  rw [← s.announce_engine q.reading q.cmd] at hf
  have hload : q.load = 2 * q.cmd.keyCount + 1 := rfl
  obtain ⟨hquiet, hfit⟩ : Quiet _ ∧ Fit _ _
      ((s.announce q.reading q.cmd).dispatch q.reading q.version q.cmd).2.engine :=
    dispatch_quiet hp ho hr hprod hs (Nat.add_le_add_right hshared span)
      (Nat.add_le_add_right hnow span) (by omega) hf
  have hseq : s.slowlogSeq + 1 < 2 ^ 64 := by
    have := h.seq
    simp only [keyLimit] at hn
    omega
  obtain ⟨hpo, hsl, hen⟩ := s.executeCommand_tokens q.reading q.version q.cmd
  unfold Server.step
  rw [attempt_of_quiet hquiet hseq]
  refine ⟨by simp, hpo.trans h.poisoned, ?_, ?_⟩
  · have := h.seq
    simp only []
    omega
  · show Fit _ _ (s.executeCommand q.reading q.version q.cmd).2.engine
    rw [hen]
    exact hfit.mono (by omega)

/-- The conditions on a run that goes on at the time `now`. -/
structure Calm (now : ℕ) (reqs : List Request) : Prop where
  inRange : ∀ q ∈ reqs, q.reading.env.InRange
  produced : ∀ q ∈ reqs, Protocol.Produced q.reading.env.float q.cmd
  samples : ∀ q ∈ reqs, q.cmd.SamplesFit
  later : ∀ q ∈ reqs, now ≤ q.reading.env.shared ∧ now ≤ q.reading.env.now
  ordered : reqs.Pairwise fun p q =>
    p.reading.env.now ≤ q.reading.env.shared ∧ p.reading.env.now ≤ q.reading.env.now

theorem Calm.tail {q : Request} {reqs : List Request} (h : Calm now (q :: reqs)) :
    Calm q.reading.env.now reqs where
  inRange p hp := h.inRange p (List.mem_cons_of_mem _ hp)
  produced p hp := h.produced p (List.mem_cons_of_mem _ hp)
  samples p hp := h.samples p (List.mem_cons_of_mem _ hp)
  later := (List.pairwise_cons.1 h.ordered).1
  ordered := (List.pairwise_cons.1 h.ordered).2

/-- Every state that a calm run reaches is not poisoned, and no request panics in it. -/
theorem Ready.run (ho : origin < 998 * 2 ^ 63) : ∀ {reqs : List Request} {now load : ℕ}
    {s : Server}, Ready now load s → Calm now reqs → load + (reqs.map Request.load).sum ≤ keyLimit →
      ∀ n, ((reqs.take n).foldl (Server.step origin) s).poisoned = false ∧
        ∀ q, reqs[n]? = some q →
          (((reqs.take n).foldl (Server.step origin) s).attempt origin q.reading q.version q.cmd).1
            ≠ none
  | [], _, _, _, hready, _, _, n => by simpa using hready.poisoned
  | q :: reqs, now, load, s, hready, hcalm, hload, n => by
    rw [List.map_cons, List.sum_cons] at hload
    have hq : q ∈ q :: reqs := List.mem_cons_self
    obtain ⟨hsome, hnext⟩ := hready.step ho (hcalm.inRange q hq) (hcalm.produced q hq)
      (hcalm.samples q hq) (hcalm.later q hq).1 (hcalm.later q hq).2 (by omega)
    rcases n with _ | n
    · refine ⟨hready.poisoned, fun p hp => ?_⟩
      rw [List.getElem?_cons_zero, Option.some.injEq] at hp
      subst hp
      exact hsome
    · rw [List.take_succ_cons, List.foldl_cons]
      exact Ready.run ho hnext hcalm.tail (by omega) n

theorem fresh_ready (aof : Option (List AofRecord)) : Ready 0 0 (fresh aof) :=
  ⟨rfl, le_refl 0, Fit.start aof⟩

theorem locked_ne_lockPoisoned {α : Type} (h : s.poisoned = false)
    (first : Except FerrumError Unit) (f : KvEngine → Except FerrumError α × KvEngine) :
    (s.locked first f).1 ≠ .error .lockPoisoned := by
  have hmap : ∀ x : Except FerrumError α,
      x.mapError ServerError.ofEngine ≠ .error ServerError.lockPoisoned := by
    rintro ((_ | _ | _ | _ | _) | _) <;> simp [Except.mapError, ServerError.ofEngine]
  unfold locked
  rw [if_neg (by simp [h])]
  exact hmap _

/-- In every state that a calm run from a fresh engine reaches the store's lock is not poisoned, the
next command does not panic, and neither a `SET` nor a `GET` finds the lock poisoned. -/
theorem no_lock_poisoned (origin : ℕ) (aof : Option (List AofRecord)) (reqs : List Request)
    (ho : origin < 998 * 2 ^ 63) (hc : Calm 0 reqs)
    (hl : (reqs.map Request.load).sum ≤ keyLimit) (n : ℕ) :
    let s := (reqs.take n).foldl (Server.step origin) (fresh aof)
    s.poisoned = false
      ∧ (∀ q, reqs[n]? = some q → (s.attempt origin q.reading q.version q.cmd).1 ≠ none)
      ∧ ∀ env key value,
        (s.locked (.ok ()) fun e => e.set env key value).1 ≠ .error .lockPoisoned
          ∧ (s.withStore fun e => e.get env key).1 ≠ .error .lockPoisoned := by
  obtain ⟨hp, hstep⟩ := (fresh_ready aof).run ho hc (by omega) n
  exact ⟨hp, hstep, fun _ _ _ =>
    ⟨locked_ne_lockPoisoned hp _ _, locked_ne_lockPoisoned hp _ _⟩⟩

end Runs

section Oversized

variable {origin incoming : ℕ} {env : Env}

theorem exclusive_of_mem_sites {e : KvEngine} {ex : Bool} {ops : List Op} {x : Site}
    (h : x ∈ e.sites ex ops) : x.exclusive = ex := by
  obtain ⟨_, -, rfl⟩ := List.mem_map.1 h
  rfl

theorem exclusive_evictLoopSites : ∀ (rounds evicted : ℕ) (e : KvEngine),
    ∀ x ∈ evictLoopSites origin env incoming rounds evicted e, x.exclusive = true
  | 0, _, _, _, hx => exclusive_of_mem_sites hx
  | rounds + 1, evicted, e, x, hx => by
    unfold evictLoopSites at hx
    split_ifs at hx
    · exact exclusive_of_mem_sites hx
    · cases hx
    · rcases List.mem_append.1 hx with hx | hx
      · exact exclusive_of_mem_sites hx
      · split at hx
        · cases hx
        · rcases List.mem_append.1 hx with hx | hx
          · exact exclusive_of_mem_sites hx
          · exact exclusive_evictLoopSites rounds (evicted + 1) _ x hx

theorem exclusive_insertSites {e : KvEngine} {key value : Bytes} :
    ∀ x ∈ e.insertSites origin env key value, x.exclusive = true := by
  intro x hx
  unfold insertSites at hx
  split at hx
  · cases hx
  · unfold admitted enforceForWriteSites enforceMemoryLimitSites at hx
    rcases List.mem_append.1 hx with hx | hx
    · rcases List.mem_append.1 hx with hx | hx
      · exact exclusive_of_mem_sites hx
      · split_ifs at hx
        · cases hx
        · rcases List.mem_append.1 hx with hx | hx
          · exact exclusive_of_mem_sites hx
          · exact exclusive_evictLoopSites _ _ _ x hx
    · split at hx
      · cases hx
      · exact exclusive_of_mem_sites hx

theorem sample_mem_selectVictimOps {e : KvEngine} (hkind : e.eviction.policy.indexKind = .none) :
    Op.withCapacity e.eviction.samples candidateBytes ∈ e.selectVictimOps origin env := by
  have hsample : Op.withCapacity e.eviction.samples candidateBytes ∈ e.sampleOps origin env :=
    List.mem_cons_self
  have hindexed : ∀ policy : EvictionPolicy, policy.indexKind ≠ .none → e.eviction.policy ≠ policy :=
    fun policy hne hp => hne (hp ▸ hkind)
  unfold selectVictimOps
  split <;> first
    | exact hsample
    | exact List.mem_append_left _ hsample
    | exact absurd ‹_› (hindexed _ (by decide))

/-- Once the samples cannot be allocated, every write that needs an eviction under a sampled policy
panics and poisons the lock. -/
theorem oversized_samples_poison {s : Server} {r : Reading} {version : ProtocolVersion}
    {key value : Bytes} (hp : s.poisoned = false) (hv : validatePair key value = .ok ())
    (hmax : s.engine.eviction.maxMemory ≠ 0) (hne : s.engine.eviction.policy ≠ .noEviction)
    (hkind : s.engine.eviction.policy.indexKind = .none)
    (hs : maxAllocation < s.engine.eviction.samples * candidateBytes)
    (hfits : s.engine.fits (key.length + value.length + perEntryOverhead
      - s.engine.store.weightAt entryBytes key) = false) :
    (s.attempt origin r version (.set key value)).1 = none
      ∧ (s.attempt origin r version (.set key value)).2.poisoned = true := by
  have hann : (s.announce r (.set key value)).poisoned = false :=
    (congrArg Prod.fst (s.announce_tokens r (.set key value))).trans hp
  have hsites : (s.announce r (.set key value)).dispatchSites origin r (.set key value)
      = s.engine.insertSites origin r.env key value := by
    simp [dispatchSites, dispatchSites.storeSites, hann, announce_engine]
  have hmem : ⟨.withCapacity s.engine.eviction.samples candidateBytes, s.engine, true⟩
      ∈ s.engine.insertSites origin r.env key value := by
    simp only [insertSites, hv, admitted, enforceForWriteSites, enforceMemoryLimitSites, hmax,
      if_false, evictLoopSites, hfits, Bool.false_eq_true, hne, List.mem_append]
    exact .inl (.inr (.inr (.inl
      (List.mem_map.2 ⟨_, sample_mem_selectVictimOps hkind, rfl⟩))))
  have hfail : ¬ (Op.withCapacity s.engine.eviction.samples candidateBytes).Succeeds := not_le.2 hs
  have hsome : ((s.engine.insertSites origin r.env key value).find? Site.panics).isSome = true :=
    List.find?_isSome.2 ⟨_, hmem, by simp [Site.panics, hfail]⟩
  obtain ⟨x, hx⟩ := Option.isSome_iff_exists.1 hsome
  have hex := exclusive_insertSites x (List.mem_of_find?_eq_some hx)
  unfold attempt
  simp only [hsites, hx, hex, Bool.or_true, and_self]

end Oversized

def request (cmd : Protocol.Command) : Request := ⟨Connection.steadyReading 1000, .resp2, cmd⟩

def oversized : List Request :=
  [request (.config (text "SET") [text "maxmemory-samples", text "144115188075855872"]),
    request (.config (text "SET") [text "maxmemory-policy", text "allkeys-lru"]),
    request (.config (text "SET") [text "maxmemory", text "1"]),
    request (.set (text "k") (text "v"))]

theorem request_produced (parts : List Bytes) {cmd : Protocol.Command} {n : ℕ}
    (h : Protocol.parseFrame Connection.noFloat (encodeCommand parts) = .ok (.complete cmd n)) :
    Protocol.Produced (request cmd).reading.env.float (request cmd).cmd :=
  ⟨_, _, h⟩

/-- The settings are accepted, the write panics under the write lock, and from then on a `GET` finds
the lock poisoned. -/
theorem samples_poison_store :
    (∀ q ∈ oversized, Protocol.Produced q.reading.env.float q.cmd)
      ∧ (∀ n < 3, ∀ q, oversized[n]? = some q →
        (((oversized.take n).foldl (step 0) (fresh none)).attempt 0 q.reading q.version q.cmd).1
          = some ok)
      ∧ (((oversized.take 3).foldl (step 0) (fresh none)).attempt 0 (Connection.steadyReading 1000)
          .resp2 (.set (text "k") (text "v"))).1 = none
      ∧ (oversized.foldl (step 0) (fresh none)).poisoned = true
      ∧ ((oversized.foldl (step 0) (fresh none)).attempt 0 (Connection.steadyReading 1000) .resp2
          (.get (text "k"))).1 = some (writeFerrumError .lockPoisoned) := by
  refine ⟨?_, ?_, rfl, rfl, rfl⟩
  · simp only [oversized, List.forall_mem_cons]
    refine ⟨request_produced
        [text "CONFIG", text "SET", text "maxmemory-samples", text "144115188075855872"] rfl,
      request_produced [text "CONFIG", text "SET", text "maxmemory-policy", text "allkeys-lru"] rfl,
      request_produced [text "CONFIG", text "SET", text "maxmemory", text "1"] rfl,
      request_produced [text "SET", text "k", text "v"] rfl, by simp⟩
  · intro n hn q hq
    interval_cases n <;> (cases hq; rfl)

def modest : List Request :=
  [request (.config (text "SET") [text "maxmemory-samples", text "10"]),
    request (.set (text "k") (text "v"))]

theorem modest_calm : Calm 0 modest := by
  have hrange : (Connection.steadyReading 1000).env.InRange := by
    refine ⟨?_, ?_⟩
    · show 999 ≤ (Int64.ofInt 1000).toInt
      decide
    · show 1000 < 998 * 2 ^ 63
      decide
  refine ⟨?_, ?_, ?_, ?_, ?_⟩ <;> simp only [modest, List.forall_mem_cons]
  · exact ⟨hrange, hrange, by simp⟩
  · exact ⟨request_produced [text "CONFIG", text "SET", text "maxmemory-samples", text "10"] rfl,
      request_produced [text "SET", text "k", text "v"] rfl, by simp⟩
  · refine ⟨fun _ n hn => ?_, trivial, by simp⟩
    have hten : parseU64 (Utf8.trim (text "10")) = some 10 := rfl
    rw [hten, Option.some.injEq] at hn
    subst hn
    decide
  · simp
  · exact List.pairwise_pair.2 ⟨le_refl 1000, le_refl 1000⟩

theorem no_lock_poisoned_modest :
    ((modest.take 1).foldl (Server.step 0) (fresh none)).poisoned = false
      ∧ (∀ q, modest[1]? = some q → (((modest.take 1).foldl (Server.step 0) (fresh none)).attempt 0
          q.reading q.version q.cmd).1 ≠ none)
      ∧ ∀ env key value,
        (((modest.take 1).foldl (Server.step 0) (fresh none)).locked (.ok ())
            fun e => e.set env key value).1 ≠ .error .lockPoisoned
          ∧ (((modest.take 1).foldl (Server.step 0) (fresh none)).withStore
            fun e => e.get env key).1 ≠ .error .lockPoisoned :=
  no_lock_poisoned 0 none modest (by decide) modest_calm (by decide) 1

end Server

end FerrumKv
