import FerrumKv.Credentials
import FerrumKv.Lib.Runs
import FerrumKv.Proofs.Session

/-!
# Passwords stay hidden, except from `CONFIG SET`

Two servers that differ in the password alone answer every command alike, log it alike and show it
to the monitors alike; the password of an `AUTH` is masked. A `CONFIG SET requirepass` is not: it is
shown to every monitor that listens and kept in the slow log with its value. Two runs that differ in
passwords show the same exactly if each such command finds no monitor and is not logged, and a
password is set in both or in neither (`credentials_hidden`, `requirepass_shown`).
-/

namespace FerrumKv

open Connection

namespace Server

/-- The same in everything but the password, which both have or both lack. -/
def Alike (s s' : Server) : Prop :=
  ∃ password : Option Bytes, password.isSome = s.authPassword.isSome
    ∧ s' = { s with authPassword := password }

/-- The same result, on servers that are alike. -/
def Alikes {α : Type} (x x' : α × Server) : Prop := x.1 = x'.1 ∧ x.2.Alike x'.2

theorem Alike.refl (s : Server) : s.Alike s := ⟨s.authPassword, rfl, rfl⟩

section Alike

variable {s s' : Server} {version : ProtocolVersion}

theorem Alike.authRequired (h : s.Alike s') : s.authRequired = s'.authRequired := by
  obtain ⟨password, hp, rfl⟩ := h
  exact hp.symm

theorem locked_alike {α : Type} (h : s.Alike s') (first : Except FerrumError Unit)
    (f : KvEngine → Except FerrumError α × KvEngine) :
    Alikes (s.locked first f) (s'.locked first f) := by
  obtain ⟨password, hp, rfl⟩ := h
  unfold locked
  simp only []
  split
  · split
    · exact ⟨rfl, password, hp, rfl⟩
    · exact ⟨rfl, password, hp, rfl⟩
  · exact ⟨rfl, password, hp, rfl⟩

theorem withStore_alike {α : Type} (h : s.Alike s') (f : KvEngine → α × KvEngine) :
    Alikes (s.withStore f) (s'.withStore f) :=
  locked_alike h _ _

theorem answered_alike {α : Type} {x x' : Except ServerError α × Server} (f : α → Bytes)
    (h : Alikes x x') : Alikes (answered f x) (answered f x') := by
  obtain ⟨a, s⟩ := x
  obtain ⟨a', s'⟩ := x'
  obtain ⟨rfl, hs⟩ := h
  cases a with
  | ok a => exact ⟨rfl, hs⟩
  | error e => exact ⟨rfl, hs⟩

theorem configure_alike (h : s.Alike s') (env : Env) (cfg : EvictionConfig) :
    Alikes (s.configure env cfg) (s'.configure env cfg) := by
  refine answered_alike _ ?_
  obtain ⟨password, hp, rfl⟩ := h
  unfold setEvictionConfig
  simp only []
  split_ifs
  · exact ⟨rfl, password, hp, rfl⟩
  · exact ⟨rfl, password, hp, rfl⟩

theorem configGet_alike (h : s.Alike s') (pattern : Bytes) :
    s.configGet version pattern = s'.configGet version pattern := by
  obtain ⟨password, hp, rfl⟩ := h
  unfold configGet configPairs
  simp only [hp]

theorem setRequirepass_alike (h : s.Alike s') (value : Bytes) :
    (s.setRequirepass value).Alike (s'.setRequirepass value) := by
  obtain ⟨password, hp, rfl⟩ := h
  exact .refl _

theorem configSetValue_alike (h : s.Alike s') (env : Env) (name value : Bytes) :
    Alikes (s.configSetValue env name value) (s'.configSetValue env name value) := by
  have hengine : s'.engine = s.engine := by
    obtain ⟨password, hp, rfl⟩ := h
    rfl
  unfold configSetValue
  rw [hengine]
  cases parameter name with
  | requirepass => exact ⟨rfl, setRequirepass_alike h value⟩
  | maxMemory =>
    simp only []
    split
    · exact configure_alike h env _
    · exact ⟨rfl, h⟩
  | maxMemoryPolicy =>
    simp only []
    split
    · exact configure_alike h env _
    · exact ⟨rfl, h⟩
  | maxMemorySamples =>
    simp only []
    split
    · split_ifs
      · exact configure_alike h env _
      · exact ⟨rfl, h⟩
    · exact ⟨rfl, h⟩
  | slowlogLogSlowerThan =>
    obtain ⟨password, hp, rfl⟩ := h
    simp only []
    split
    · exact ⟨rfl, password, hp, rfl⟩
    · exact ⟨rfl, password, hp, rfl⟩
  | slowlogMaxLen =>
    obtain ⟨password, hp, rfl⟩ := h
    simp only []
    split
    · split_ifs
      · exact ⟨rfl, password, hp, rfl⟩
      · exact ⟨rfl, password, hp, rfl⟩
    · exact ⟨rfl, password, hp, rfl⟩
  | unknown => exact ⟨rfl, h⟩

theorem configReply_alike (h : s.Alike s') (env : Env) (sub : Bytes) (args : List Bytes) :
    Alikes (s.configReply env version sub args) (s'.configReply env version sub args) := by
  unfold configReply
  split_ifs
  · cases args with
    | nil => exact ⟨rfl, h⟩
    | cons pattern rest => exact ⟨configGet_alike h pattern, h⟩
  · rcases args with _ | ⟨param, _ | ⟨value, rest⟩⟩
    · exact ⟨rfl, h⟩
    · exact ⟨rfl, h⟩
    · simp only [configSet]
      split_ifs
      · exact ⟨rfl, h⟩
      · exact ⟨rfl, h⟩
      · exact configSetValue_alike h env _ value
  · exact ⟨rfl, h⟩

theorem slowLogReply_alike (h : s.Alike s') (sub : Bytes) (args : List Bytes) :
    Alikes (s.slowLogReply sub args) (s'.slowLogReply sub args) := by
  obtain ⟨password, hp, rfl⟩ := h
  unfold slowLogReply
  split_ifs
  · rcases args with _ | ⟨arg, rest⟩
    · exact ⟨rfl, password, hp, rfl⟩
    · simp only []
      split
      · exact ⟨rfl, password, hp, rfl⟩
      · exact ⟨rfl, password, hp, rfl⟩
  · exact ⟨rfl, password, hp, rfl⟩
  · exact ⟨rfl, password, hp, rfl⟩
  · exact ⟨rfl, password, hp, rfl⟩

theorem dispatch_alike (h : s.Alike s') (r : Reading) (version : ProtocolVersion)
    (cmd : Protocol.Command) :
    Alikes (s.dispatch r version cmd) (s'.dispatch r version cmd) := by
  cases cmd with
  | config sub args => exact configReply_alike h r.env sub args
  | slowLog sub args => exact slowLogReply_alike h sub args
  | info part =>
    obtain ⟨password, hp, rfl⟩ := h
    exact ⟨rfl, password, hp, rfl⟩
  | rewriteAof =>
    obtain ⟨password, hp, rfl⟩ := h
    exact answered_alike _ ⟨rfl, password, hp, rfl⟩
  | del keys =>
    simp only [dispatch]
    split_ifs
    · exact ⟨rfl, h⟩
    · exact answered_alike _ (withStore_alike h _)
  | existsMany keys =>
    simp only [dispatch]
    split_ifs
    · exact ⟨rfl, h⟩
    · exact answered_alike _ (withStore_alike h _)
  | ping msg => cases msg <;> exact ⟨rfl, h⟩
  | auth password => exact ⟨rfl, h⟩
  | monitor => exact ⟨rfl, h⟩
  | hello v => exact ⟨rfl, h⟩
  | _ => exact answered_alike _ (locked_alike h _ _)

theorem announce_alike (h : s.Alike s') (r : Reading) (cmd : Protocol.Command) :
    (s.announce r cmd).Alike (s'.announce r cmd) := by
  obtain ⟨password, hp, rfl⟩ := h
  unfold announce
  simp only []
  split_ifs
  · exact ⟨password, hp, rfl⟩
  · exact ⟨password, hp, rfl⟩

theorem noteSlow_alike (h : s.Alike s') (r : Reading) (armed : Bool) (cmd : Protocol.Command) :
    (s.noteSlow r armed cmd).Alike (s'.noteSlow r armed cmd) := by
  obtain ⟨password, hp, rfl⟩ := h
  unfold noteSlow maybePushSlowlog slowlogWouldLog
  simp only []
  split_ifs <;> exact ⟨password, hp, rfl⟩

/-- A command is answered, logged and shown without the password of the server. -/
theorem executeCommand_alike (h : s.Alike s') (r : Reading) (version : ProtocolVersion)
    (cmd : Protocol.Command) :
    Alikes (s.executeCommand r version cmd) (s'.executeCommand r version cmd) := by
  have harmed : s'.slowlogArmed = s.slowlogArmed := by
    obtain ⟨password, hp, rfl⟩ := h
    rfl
  obtain ⟨hreply, hserver⟩ := dispatch_alike (announce_alike h r cmd) r version cmd
  unfold executeCommand
  rw [harmed]
  exact ⟨hreply, noteSlow_alike hserver r _ cmd⟩

end Alike

/-! ## `CONFIG SET requirepass` -/

theorem valid_of_requirepass {param : Bytes} (h : asciiLowercase param = text "requirepass") :
    Utf8.valid param = true := by
  refine Utf8.valid_of_ascii param fun b hb => ?_
  have hmem : (if 65 ≤ b ∧ b ≤ 90 then b + 32 else b) ∈ asciiLowercase param :=
    List.mem_map_of_mem hb
  have hlow : ∀ x ∈ text "requirepass", x < 0x80 := by decide +kernel
  have hb' := hlow _ (h ▸ hmem)
  split_ifs at hb' with hx
  · exact UInt8.lt_iff_toNat_lt.2 (Nat.lt_of_le_of_lt (UInt8.le_iff_toNat_le.1 hx.2) (by decide))
  · exact hb'

/-- The server after `CONFIG SET requirepass value`, apart from what is shown of the command. -/
def installs (s : Server) (value : Bytes) : Server :=
  if Utf8.valid value then s.setRequirepass value else s

theorem installs_authRequired (s : Server) (value : Bytes) :
    (s.installs value).authRequired = s.setsPassword value := by
  unfold installs setsPassword authRequired setRequirepass
  split_ifs with hv hn
  · simp [hn]
  · simp [hn]
  · rfl

theorem installs_alike {s s' : Server} {value value' : Bytes} (h : s.Alike s')
    (hv : s.setsPassword value = s.setsPassword value') :
    (s.installs value).Alike (s'.installs value') := by
  have hsame : (s'.installs value').authRequired = (s.installs value).authRequired := by
    rw [installs_authRequired, installs_authRequired, hv]
    unfold setsPassword
    rw [h.authRequired]
  obtain ⟨password, hp, rfl⟩ := h
  refine ⟨(installs { s with authPassword := password } value').authPassword, hsame, ?_⟩
  unfold installs setRequirepass
  split_ifs <;> rfl

section Requirepass

variable {s s' : Server} {r : Reading} {version : ProtocolVersion} {param value value' : Bytes}

theorem dispatch_requirepass (h : asciiLowercase param = text "requirepass") (s : Server) :
    (s.dispatch r version (.config (text "SET") [param, value])).2 = s.installs value := by
  have hget : eqIgnoreAsciiCase (text "SET") (text "GET") = false := by decide
  have hset : eqIgnoreAsciiCase (text "SET") (text "SET") = true := by decide
  simp only [dispatch, configReply, hget, hset, Bool.false_eq_true, if_false, if_true, configSet,
    valid_of_requirepass h, Bool.true_eq_false, configSetValue, h]
  unfold installs
  cases Utf8.valid value with
  | true => rfl
  | false => rfl

theorem announce_of_dead (h : ∀ m ∈ s.monitors, m.live = false) (cmd cmd' : Protocol.Command)
    (hmeta : monitorMeta cmd = monitorMeta cmd') : s.announce r cmd = s.announce r cmd' := by
  have hnone : s.monitors.filter (·.live) = [] :=
    List.filter_eq_nil_iff.2 fun m hm => by simp [h m hm]
  unfold announce broadcast
  simp only [hnone, hmeta, List.map_nil]

theorem announce_settings (s : Server) (cmd : Protocol.Command) :
    (s.announce r cmd).authPassword = s.authPassword
      ∧ (s.announce r cmd).slowlogSlowerThanUs = s.slowlogSlowerThanUs := by
  unfold announce
  simp only []
  split_ifs <;> exact ⟨rfl, rfl⟩

theorem installs_settings (s : Server) (value : Bytes) :
    (s.installs value).monitors = s.monitors
      ∧ (s.installs value).slowlogSlowerThanUs = s.slowlogSlowerThanUs := by
  unfold installs
  split_ifs <;> exact ⟨rfl, rfl⟩

theorem maybePushSlowlog_settings (s : Server) (args : List Bytes) :
    (s.maybePushSlowlog r args).monitors = s.monitors
      ∧ (s.maybePushSlowlog r args).authPassword = s.authPassword := by
  unfold maybePushSlowlog
  split_ifs <;> exact ⟨rfl, rfl⟩

/-- The server after a `CONFIG SET requirepass`, before it is logged. -/
def changed (s : Server) (r : Reading) (param value : Bytes) : Server :=
  (s.announce r (.config (text "SET") [param, value])).installs value

theorem changed_wouldLog (s : Server) (param value : Bytes) (us : ℕ) :
    (s.changed r param value).slowlogWouldLog us = s.slowlogWouldLog us := by
  unfold slowlogWouldLog changed
  rw [(installs_settings _ value).2, (announce_settings s _).2]

theorem executeCommand_requirepass (h : asciiLowercase param = text "requirepass") (s : Server) :
    (s.executeCommand r version (.config (text "SET") [param, value])).2
      = if s.slowlogWouldLog r.elapsedUs then
          (s.changed r param value).maybePushSlowlog r [text "CONFIG", text "SET", param, value]
        else s.changed r param value := by
  unfold executeCommand
  simp only [dispatch_requirepass h]
  unfold noteSlow
  split_ifs with hlog hwould hwould
  · rfl
  · have hnot : (s.changed r param value).slowlogWouldLog r.elapsedUs = false := by
      rw [changed_wouldLog]
      simpa using hwould
    unfold maybePushSlowlog
    exact if_neg fun hc => Bool.false_ne_true (hnot.symm.trans hc)
  · have harmed : s.slowlogArmed = true := by
      unfold slowlogWouldLog at hwould
      unfold slowlogArmed
      split_ifs at hwould with hzero <;> simp [hzero]
    exact absurd ⟨rfl, harmed⟩ hlog
  · rfl

theorem changed_authRequired (s : Server) (param value : Bytes) :
    (s.changed r param value).authRequired = s.setsPassword value := by
  unfold changed
  rw [installs_authRequired]
  unfold setsPassword authRequired
  rw [(announce_settings s _).1]

/-- With no monitor, no log entry and a password set in both or in neither, the two values leave
servers that are alike. -/
theorem requirepass_alike (named : asciiLowercase param = text "requirepass") (h : s.Alike s')
    (hides : s.Hides r value value') :
    (s.executeCommand r version (.config (text "SET") [param, value])).2.Alike
      (s'.executeCommand r version (.config (text "SET") [param, value'])).2 := by
  obtain ⟨hdead, hfast, hset⟩ := hides
  have hfast' : s'.slowlogWouldLog r.elapsedUs = false := by
    obtain ⟨password, hp, rfl⟩ := h
    exact hfast
  rw [executeCommand_requirepass named, executeCommand_requirepass named, hfast, hfast']
  simp only [Bool.false_eq_true, if_false]
  have hshown := announce_alike h r (.config (text "SET") [param, value'])
  rw [← announce_of_dead hdead (.config (text "SET") [param, value])
    (.config (text "SET") [param, value']) rfl] at hshown
  refine installs_alike hshown ?_
  unfold setsPassword authRequired at hset ⊢
  rw [(announce_settings s _).1]
  exact hset

/-! ## What a `CONFIG SET requirepass` shows -/

theorem executeCommand_requirepass_settings (named : asciiLowercase param = text "requirepass")
    (s : Server) (r : Reading) (version : ProtocolVersion) (value : Bytes) :
    let t := (s.executeCommand r version (.config (text "SET") [param, value])).2
    t.monitors = (s.announce r (.config (text "SET") [param, value])).monitors
      ∧ t.authRequired = s.setsPassword value := by
  simp only [executeCommand_requirepass named]
  have hmonitors : (s.changed r param value).monitors
      = (s.announce r (.config (text "SET") [param, value])).monitors :=
    (installs_settings _ value).1
  have hrequired := changed_authRequired (r := r) s param value
  split_ifs
  · obtain ⟨hm, hp⟩ := maybePushSlowlog_settings (r := r) (s.changed r param value)
      [text "CONFIG", text "SET", param, value]
    refine ⟨hm.trans hmonitors, ?_⟩
    unfold authRequired at hrequired ⊢
    rw [hp, hrequired]
  · exact ⟨hmonitors, hrequired⟩

theorem maybePushSlowlog_last {args : List Bytes} (h : s.slowlogWouldLog r.elapsedUs = true) :
    (s.maybePushSlowlog r args).slowlog.getLast?.map (·.args) = some args := by
  unfold maybePushSlowlog
  rw [if_pos h]
  simp only [List.getLast?_drop, List.getLast?_concat]
  rw [if_neg]
  · rfl
  · rw [List.length_append, List.length_singleton]
    omega

theorem announce_monitors (h : s.monitors ≠ []) (param value : Bytes) :
    (s.announce r (.config (text "SET") [param, value])).monitors
      = (s.monitors.filter (·.live)).map fun m =>
          { m with
            inbox := m.inbox ++ [⟨r.monitorMs, r.client.getD unspecifiedPeer,
              [text "CONFIG", text "SET", param, value]⟩] } := by
  unfold announce
  simp only []
  rw [if_pos ⟨rfl, h⟩]
  rfl

theorem configGet_requirepass (s : Server) :
    s.configGet .resp2 (text "requirepass") = encodePairs .resp2
      [(text "requirepass", if s.authRequired then text "(redacted)" else [])] := by
  have hnames : eqIgnoreAsciiCase (text "requirepass") (text "*") = false
      ∧ Utf8.valid (text "requirepass") = true
      ∧ eqIgnoreAsciiCase (text "maxmemory") (text "requirepass") = false
      ∧ eqIgnoreAsciiCase (text "maxmemory-policy") (text "requirepass") = false
      ∧ eqIgnoreAsciiCase (text "maxmemory-samples") (text "requirepass") = false
      ∧ eqIgnoreAsciiCase (text "requirepass") (text "requirepass") = true := by decide
  obtain ⟨hstar, hvalid, h1, h2, h3, h4⟩ := hnames
  simp only [configGet, configPairs, hstar, hvalid, Bool.false_eq_true, Bool.true_eq_false,
    if_false, List.find?_cons, h1, h2, h3, h4]
  rfl

theorem authRequired_of_configGet
    (h : s.configGet .resp2 (text "requirepass") = s'.configGet .resp2 (text "requirepass")) :
    s.authRequired = s'.authRequired := by
  rw [configGet_requirepass, configGet_requirepass] at h
  cases hs : s.authRequired <;> cases hs' : s'.authRequired
  · rfl
  · rw [hs, hs'] at h
    exact absurd h (by decide)
  · rw [hs, hs'] at h
    exact absurd h (by decide)
  · rfl

theorem dead_of_monitors (h : s.Alike s') (hne : value ≠ value')
    (hm : (s.announce r (.config (text "SET") [param, value])).monitors
      = (s'.announce r (.config (text "SET") [param, value'])).monitors) :
    ∀ m ∈ s.monitors, m.live = false := by
  obtain ⟨password, hp, rfl⟩ := h
  intro m hmem
  by_contra hlive
  have hsome : s.monitors ≠ [] := List.ne_nil_of_mem hmem
  rw [announce_monitors hsome, announce_monitors (by exact hsome)] at hm
  have hlistens : m ∈ s.monitors.filter (·.live) := List.mem_filter.2 ⟨hmem, by simpa using hlive⟩
  have hsent := List.map_inj_left.1 hm m hlistens
  simp only [Monitor.mk.injEq, List.append_cancel_left_eq, List.cons.injEq, MonitorMessage.mk.injEq,
    true_and, and_true] at hsent
  exact hne hsent

theorem fast_of_slowlog (named : asciiLowercase param = text "requirepass") (h : s.Alike s')
    (hne : value ≠ value')
    (hs : (s.executeCommand r version (.config (text "SET") [param, value])).2.slowlog
      = (s'.executeCommand r version (.config (text "SET") [param, value'])).2.slowlog) :
    s.slowlogWouldLog r.elapsedUs = false := by
  by_contra hslow
  have hlog : s.slowlogWouldLog r.elapsedUs = true := by simpa using hslow
  have hlog' : s'.slowlogWouldLog r.elapsedUs = true := by
    obtain ⟨password, hp, rfl⟩ := h
    exact hlog
  rw [executeCommand_requirepass named, executeCommand_requirepass named, if_pos hlog,
    if_pos hlog'] at hs
  have hlast := congrArg (fun l => l.getLast?.map SlowLogEntry.args) hs
  rw [maybePushSlowlog_last (by rw [changed_wouldLog, hlog]),
    maybePushSlowlog_last (by rw [changed_wouldLog, hlog'])] at hlast
  simp only [Option.some.injEq, List.cons.injEq, true_and, and_true] at hlast
  exact hne hlast

/-- Two values that are executed and not shown: no monitor, no log entry, the same answer to
`CONFIG GET`. -/
theorem hides_of_unseen {conn conn' : ℕ → Conn}
    (named : asciiLowercase param = text "requirepass") (h : s.Alike s') (hne : value ≠ value')
    (hunseen : Hub.SameView
      ⟨(s.executeCommand r version (.config (text "SET") [param, value])).2, conn⟩
      ⟨(s'.executeCommand r version (.config (text "SET") [param, value'])).2, conn'⟩) :
    s.Hides r value value' := by
  obtain ⟨hm, hs, hget⟩ := hunseen
  obtain ⟨hm₁, hr₁⟩ := executeCommand_requirepass_settings named s r version value
  obtain ⟨hm₂, hr₂⟩ := executeCommand_requirepass_settings named s' r version value'
  have hdead := dead_of_monitors h hne (hm₁.symm.trans (hm.trans hm₂))
  refine ⟨hdead, fast_of_slowlog named h hne hs, ?_⟩
  have hreq := authRequired_of_configGet (hget .resp2 (text "requirepass"))
  have hsets : s'.setsPassword value' = s.setsPassword value' := by
    unfold setsPassword
    rw [h.authRequired]
  exact hr₁.symm.trans (hreq.trans (hr₂.trans hsets))

end Requirepass

end Server

namespace Connection.Session

/-- Sessions that differ in the password of the server alone. -/
def Alike (x x' : Session) : Prop :=
  x.server.Alike x'.server ∧ x' = { x with server := x'.server }

variable {x x' : Session}

theorem authReply_alike (h : x.Alike x') {password password' : Bytes}
    (hauth : x.server.authenticate password = x'.server.authenticate password') :
    (x.authReply password).Alike (x'.authReply password') := by
  obtain ⟨hs, hx⟩ := h
  unfold authReply
  rw [← hauth]
  generalize x'.server = server' at *
  subst hx
  split
  · exact ⟨hs, rfl⟩
  · exact ⟨hs, rfl⟩
  · exact ⟨hs, rfl⟩

theorem execute_alike (h : x.Alike x') (r : Reading) (cmd : Protocol.Command) :
    (x.execute r cmd).Alike (x'.execute r cmd) := by
  obtain ⟨hs, hx⟩ := h
  generalize x'.server = server' at *
  subst hx
  obtain ⟨hreply, hserver⟩ := Server.executeCommand_alike hs r x.version cmd
  refine ⟨hserver, ?_⟩
  unfold execute
  simp only [hreply]

theorem monitor_alike (h : x.Alike x') : x.monitor.Alike x'.monitor := by
  obtain ⟨⟨password, hp, hs⟩, hx⟩ := h
  generalize x'.server = server' at *
  subst hx hs
  exact ⟨⟨password, hp, rfl⟩, rfl⟩

theorem gated_alike (h : x.Alike x') (r : Reading) (cmd : Protocol.Command) :
    (if x.server.authRequired = true ∧ x.authed = false then (x.send noAuth, true)
        else (x.execute r cmd, true)).1.Alike
      (if x'.server.authRequired = true ∧ x'.authed = false then (x'.send noAuth, true)
        else (x'.execute r cmd, true)).1 := by
  have hauthed : x'.authed = x.authed := by rw [h.2]
  rw [← h.1.authRequired, hauthed]
  split_ifs
  · obtain ⟨hs, hx⟩ := h
    generalize x'.server = server' at *
    subst hx
    exact ⟨hs, rfl⟩
  · exact execute_alike h r cmd

/-- A command is handled alike, where an `AUTH` has the same outcome. -/
theorem handleCommand_alike (h : x.Alike x') (r : Reading) (cmd : Protocol.Command)
    (hauth : ∀ password, cmd = .auth password →
      x.server.authenticate password = x'.server.authenticate password) :
    (x.handleCommand r cmd).1.Alike (x'.handleCommand r cmd).1 := by
  cases cmd with
  | auth password => exact authReply_alike h (hauth password rfl)
  | hello v =>
    obtain ⟨hs, hx⟩ := h
    generalize x'.server = server' at *
    subst hx
    exact ⟨hs, rfl⟩
  | monitor => exact monitor_alike h
  | _ => exact gated_alike h r _

end Connection.Session

namespace Hub

/-- Hubs that differ in the password alone. -/
def Alike (h h' : Hub) : Prop := h.server.Alike h'.server ∧ h'.conn = h.conn

variable {h h' : Hub}

theorem Alike.refl (h : Hub) : h.Alike h := ⟨.refl _, rfl⟩

theorem Alike.sameView (ha : h.Alike h') : h.SameView h' := by
  refine ⟨?_, ?_, fun version pattern => Server.configGet_alike ha.1 pattern⟩
  · obtain ⟨⟨password, hp, hs⟩, -⟩ := ha
    rw [hs]
  · obtain ⟨⟨password, hp, hs⟩, -⟩ := ha
    rw [hs]

theorem session_alike (ha : h.Alike h') (c : ℕ) : (h.session c).Alike (h'.session c) := by
  refine ⟨ha.1, ?_⟩
  unfold session
  rw [ha.2]

theorem handle_alike (ha : h.Alike h') (c : ℕ) (r : Reading) (cmd : Protocol.Command)
    (hauth : ∀ password, cmd = .auth password →
      h.server.authenticate password = h'.server.authenticate password) :
    (h.handle c r cmd).Alike (h'.handle c r cmd) :=
  Session.handleCommand_alike (session_alike ha c) r cmd hauth

theorem settled_alike {x x' : Session} (hx : x.Alike x') (conn : ℕ → Conn) (c : ℕ) :
    Alike ⟨x.server, Function.update conn c ⟨x.authed, x.version, x.channel⟩⟩
      ⟨x'.server, Function.update conn c ⟨x'.authed, x'.version, x'.channel⟩⟩ := by
  obtain ⟨hs, hx⟩ := hx
  refine ⟨hs, ?_⟩
  rw [hx]

/-- A command that is not the connection's own is refused, or executed without changing the
connection. -/
theorem step_gated {cmd : Protocol.Command} (hgated : Session.Gated cmd) (h : Hub) (c : ℕ)
    (r : Reading) :
    h.step (.request c r cmd)
      = if h.refuses c then h
        else ⟨(h.server.executeCommand r (h.conn c).version cmd).2, h.conn⟩ := by
  have hupdate : Function.update h.conn c (h.conn c) = h.conn := Function.update_eq_self c h.conn
  simp only [step, handle, Session.handleCommand_gated hgated]
  by_cases hc : (h.conn c).channel.isSome = true
  · simp only [hc, refuses, Bool.true_or, if_true]
  · rw [if_neg hc]
    by_cases hg : h.server.authRequired = true ∧ (h.conn c).authed = false
    · rw [if_pos (show (h.session c).server.authRequired = true ∧ (h.session c).authed = false
        from hg), if_pos (by simp [refuses, hg])]
      exact congrArg (Hub.mk h.server) hupdate
    · have hopen : ¬ h.refuses c = true := by
        simpa [refuses, hc] using hg
      rw [if_neg (show ¬((h.session c).server.authRequired = true ∧ (h.session c).authed = false)
        from hg), if_neg hopen]
      exact congrArg (Hub.mk _) hupdate

theorem step_config (h : Hub) (c : ℕ) (r : Reading) (sub : Bytes) (args : List Bytes) :
    h.step (.request c r (.config sub args))
      = if h.refuses c then h
        else ⟨(h.server.executeCommand r (h.conn c).version (.config sub args)).2, h.conn⟩ := by
  have hgated : Session.Gated (.config sub args) := trivial
  exact step_gated hgated h c r

theorem refuses_alike (ha : h.Alike h') (c : ℕ) : h'.refuses c = h.refuses c := by
  unfold refuses
  rw [ha.2, ha.1.authRequired]

theorem request_alike (ha : h.Alike h') {c : ℕ} {r : Reading} {cmd : TwinCommand}
    (hauth : SameOutcome h h' (.request c r cmd)) (hd : h.Discreet (.request c r cmd)) :
    (h.step (.request c r cmd.first)).Alike (h'.step (.request c r cmd.second)) := by
  cases cmd with
  | same cmd =>
    simp only [TwinCommand.first, TwinCommand.second, step]
    rw [ha.2]
    split_ifs with hc
    · exact ha
    · have houtcome := hauth (Option.not_isSome_iff_eq_none.1 hc)
      exact settled_alike (handle_alike ha c r cmd fun p hp => houtcome p p hp hp) h.conn c
  | auth password password' =>
    simp only [TwinCommand.first, TwinCommand.second, step]
    rw [ha.2]
    split_ifs with hc
    · exact ha
    · have houtcome := hauth (Option.not_isSome_iff_eq_none.1 hc) password password' rfl rfl
      exact settled_alike (Session.authReply_alike (session_alike ha c) houtcome) h.conn c
  | requirepass param value value' named =>
    simp only [TwinCommand.first, TwinCommand.second, step_config, refuses_alike ha, ha.2]
    split_ifs with hrefused
    · exact ha
    · refine ⟨?_, rfl⟩
      rcases hd with rfl | hrefuses | hides
      · exact (Server.executeCommand_alike ha.1 r _ _).2
      · exact absurd hrefuses hrefused
      · exact Server.requirepass_alike named ha.1 hides

theorem dashboard_alike (ha : h.Alike h') {r : Reading} {cmd : TwinCommand}
    (hd : h.Discreet (.dashboard r cmd)) :
    (h.step (.dashboard r cmd.first)).Alike (h'.step (.dashboard r cmd.second)) := by
  refine ⟨?_, ha.2⟩
  cases cmd with
  | same cmd => exact (Server.executeCommand_alike ha.1 _ _ cmd).2
  | auth password password' => exact (Server.executeCommand_alike ha.1 _ _ (.auth password)).2
  | requirepass param value value' named =>
    rcases hd with rfl | hides
    · exact (Server.executeCommand_alike ha.1 _ _ _).2
    · exact Server.requirepass_alike named ha.1 hides

theorem step_alike (ha : h.Alike h') {e : Event TwinCommand} (hauth : SameOutcome h h' e)
    (hd : h.Discreet e) :
    (h.step (e.map TwinCommand.first)).Alike (h'.step (e.map TwinCommand.second)) := by
  cases e with
  | connect c =>
    refine ⟨ha.1, ?_⟩
    simp only [Event.map, step, ha.2]
  | request c r cmd => exact request_alike ha hauth hd
  | dashboard r cmd => exact dashboard_alike ha hd
  | hangUp channel =>
    obtain ⟨⟨password, hp, hs⟩, hconn⟩ := ha
    simp only [Event.map, step, hs]
    exact ⟨⟨password, hp, rfl⟩, hconn⟩

/-- A step after which the two runs show the same was discreet. -/
theorem discreet_of_sameView (ha : h.Alike h') {e : Event TwinCommand}
    (hview : SameView (h.step (e.map TwinCommand.first)) (h'.step (e.map TwinCommand.second))) :
    h.Discreet e := by
  rcases e with c | ⟨c, r, cmd⟩ | ⟨r, cmd⟩ | channel
  · trivial
  · rcases cmd with cmd | ⟨password, password'⟩ | ⟨param, value, value', named⟩
    · trivial
    · trivial
    · simp only [Event.map, TwinCommand.first, TwinCommand.second, step_config, refuses_alike ha,
        ha.2] at hview
      by_cases hv : value = value'
      · exact .inl hv
      · by_cases hr : h.refuses c = true
        · exact .inr (.inl hr)
        · rw [if_neg hr, if_neg hr] at hview
          exact .inr (.inr (Server.hides_of_unseen named ha.1 hv hview))
  · rcases cmd with cmd | ⟨password, password'⟩ | ⟨param, value, value', named⟩
    · trivial
    · trivial
    · by_cases hv : value = value'
      · exact .inl hv
      · have hides := Server.hides_of_unseen named ha.1 hv hview
        exact .inr hides
  · trivial

/-- A command that is the same in both runs is answered with the same bytes. -/
theorem reply_alike (ha : h.Alike h') {e : Event TwinCommand} (hauth : SameOutcome h h' e)
    (hsame : e.map TwinCommand.first = e.map TwinCommand.second) :
    h.reply (e.map TwinCommand.first) = h'.reply (e.map TwinCommand.second) := by
  rw [← hsame]
  cases e with
  | connect c => rfl
  | request c r cmd =>
    simp only [Event.map, Event.request.injEq, true_and] at hsame
    simp only [Event.map, reply]
    rw [ha.2]
    split_ifs with hc
    · rfl
    · have houtcome := hauth (Option.not_isSome_iff_eq_none.1 hc)
      have hx := handle_alike ha c r cmd.first fun p hp => houtcome p p hp (hsame ▸ hp)
      rw [hx.2]
  | dashboard r cmd => exact (Server.executeCommand_alike ha.1 _ _ cmd.first).1
  | hangUp channel => rfl

/-! ## Runs -/

theorem run_take_succ (f : TwinCommand → Protocol.Command) (server : Server)
    {events : List (Event TwinCommand)} {n : ℕ} {e : Event TwinCommand} (hn : events[n]? = some e) :
    (start server).run ((events.take (n + 1)).map (·.map f))
      = ((start server).run ((events.take n).map (·.map f))).step (e.map f) := by
  have hmap : (events.map (·.map f))[n]? = some (e.map f) := by rw [List.getElem?_map, hn]; rfl
  rw [List.map_take, List.map_take]
  exact Runs.foldl_take_succ hmap

/-- Runs stay alike as long as each step is discreet if they are alike before it. -/
theorem run_alike (server : Server) (events : List (Event TwinCommand))
    (hauth : ∀ n e, events[n]? = some e →
      SameOutcome (first server (events.take n)) (second server (events.take n)) e)
    (hd : ∀ n e, events[n]? = some e →
      (first server (events.take n)).Alike (second server (events.take n)) →
        (first server (events.take n)).Discreet e) :
    ∀ n, (first server (events.take n)).Alike (second server (events.take n))
  | 0 => .refl _
  | n + 1 => by
    have ih := run_alike server events hauth hd n
    cases hn : events[n]? with
    | none =>
      rw [List.take_add_one, hn, Option.toList_none, List.append_nil]
      exact ih
    | some e =>
      have hstep := step_alike ih (hauth n e hn) (hd n e hn ih)
      unfold first second at hstep ⊢
      rw [run_take_succ _ _ hn, run_take_succ _ _ hn]
      exact hstep

/-- Two runs that differ in passwords show the same at all times exactly if every change of the
password is discreet, and then every command that is the same in both is answered the same. -/
theorem credentials_hidden (server : Server) (events : List (Event TwinCommand))
    (hauth : ∀ n e, events[n]? = some e →
      SameOutcome (first server (events.take n)) (second server (events.take n)) e) :
    ((∀ n e, events[n]? = some e → (first server (events.take n)).Discreet e) ↔
      ∀ n, SameView (first server (events.take n)) (second server (events.take n))) ∧
    ((∀ n e, events[n]? = some e → (first server (events.take n)).Discreet e) →
      ∀ n e, events[n]? = some e → e.map TwinCommand.first = e.map TwinCommand.second →
        (first server (events.take n)).reply (e.map TwinCommand.first)
          = (second server (events.take n)).reply (e.map TwinCommand.second)) := by
  refine ⟨⟨fun hd n => ?_, fun hview => ?_⟩, fun hd n e hn hsame => ?_⟩
  · exact (run_alike server events hauth (fun m e hm _ => hd m e hm) n).sameView
  · have hlater : ∀ n e, events[n]? = some e →
        SameView ((first server (events.take n)).step (e.map TwinCommand.first))
          ((second server (events.take n)).step (e.map TwinCommand.second)) := by
      intro n e hn
      have hnext := hview (n + 1)
      unfold first second at hnext ⊢
      rwa [run_take_succ _ _ hn, run_take_succ _ _ hn] at hnext
    have halike := run_alike server events hauth fun n e hn ha =>
      discreet_of_sameView ha (hlater n e hn)
    exact fun n e hn => discreet_of_sameView (halike n) (hlater n e hn)
  · have halike := run_alike server events hauth (fun m e hm _ => hd m e hm) n
    exact reply_alike halike (hauth n e hn) hsame

def slowReading : Reading := { steadyReading 0 with elapsedUs := 20000 }

/-- The password is set from the dashboard before anybody monitors; a client authenticates, asks for
the configuration, and is shown to a monitor while it authenticates again. -/
def discreetRuns : List (Event TwinCommand) :=
  [.connect 1, .dashboard (steadyReading 0) (.requirepass (text "requirepass") [112] [113] rfl),
    .request 1 (steadyReading 0) (.auth [112] [113]), .request 0 (steadyReading 0) (.same .monitor),
    .request 1 (steadyReading 0) (.same (.config (text "GET") [text "requirepass"])),
    .dashboard slowReading (.auth [112] [113])]

theorem credentials_hidden_discreetRuns :
    SameView (first Server.new discreetRuns) (second Server.new discreetRuns)
      ∧ (first Server.new discreetRuns).server.authPassword
          ≠ (second Server.new discreetRuns).server.authPassword
      ∧ (first Server.new discreetRuns).server.slowlog.length = 1
      ∧ (first Server.new (discreetRuns.take 4)).reply
            (.request 1 (steadyReading 0) (.config (text "GET") [text "requirepass"]))
          = (second Server.new (discreetRuns.take 4)).reply
            (.request 1 (steadyReading 0) (.config (text "GET") [text "requirepass"])) := by
  have hauth : ∀ n e, discreetRuns[n]? = some e →
      SameOutcome (first Server.new (discreetRuns.take n))
        (second Server.new (discreetRuns.take n)) e := by
    rintro (_ | _ | _ | _ | _ | _ | n) e hn <;> cases hn <;> try trivial
    · rintro - password password' hp hp'
      cases hp
      cases hp'
      rfl
    · rintro - password password' hp
      cases hp
    · rintro - password password' hp
      cases hp
  have hd : ∀ n e, discreetRuns[n]? = some e →
      (first Server.new (discreetRuns.take n)).Discreet e := by
    rintro (_ | _ | _ | _ | _ | _ | n) e hn <;> cases hn <;> try trivial
    exact .inr ⟨fun m hm => (List.not_mem_nil hm).elim, rfl, rfl⟩
  have h := credentials_hidden Server.new discreetRuns hauth
  exact ⟨h.1.1 hd 6, by decide, by decide, h.2 hd 4 _ rfl rfl⟩

/-- A client monitors; another one sets the password, in 20 milliseconds. -/
def shownRuns : List (Event TwinCommand) :=
  [.request 0 (steadyReading 0) (.same .monitor),
    .request 1 slowReading (.requirepass (text "RequirePass") [112] [113] rfl)]

/-- The monitor and the slow log are given the password of `CONFIG SET`. -/
theorem requirepass_shown :
    (∀ n e, shownRuns[n]? = some e →
      SameOutcome (first Server.new (shownRuns.take n)) (second Server.new (shownRuns.take n)) e)
      ∧ (first Server.new shownRuns).server.monitors.map (·.inbox.map (·.args))
          = [[[text "CONFIG", text "SET", text "RequirePass", [112]]]]
      ∧ (second Server.new shownRuns).server.monitors.map (·.inbox.map (·.args))
          = [[[text "CONFIG", text "SET", text "RequirePass", [113]]]]
      ∧ (first Server.new shownRuns).server.slowlog.map (·.args)
          = [[text "CONFIG", text "SET", text "RequirePass", [112]]]
      ∧ (second Server.new shownRuns).server.slowlog.map (·.args)
          = [[text "CONFIG", text "SET", text "RequirePass", [113]]] := by
  refine ⟨?_, by decide, by decide, by decide, by decide⟩
  rintro (_ | _ | n) e hn <;> cases hn
  · rintro - password password' hp
    cases hp
  · rintro - password password' hp
    cases hp

end Hub

end FerrumKv
