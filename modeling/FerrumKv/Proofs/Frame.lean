import FerrumKv.Server

/-!
# What a command leaves alone

The match of `execute_command` changes the engine and the settings of the server. The flag of the
lock, the counters and the registry of the monitors are changed around it, if at all
(`dispatch_ledger`, `executeCommand_registry`).
-/

namespace FerrumKv.Server

variable {α : Type} (s : Server)

theorem answered_snd (f : α → Bytes) (r : Except ServerError α × Server) :
    (answered f r).2 = r.2 := by
  rcases r with ⟨_ | _, _⟩ <;> rfl

/-- The subscribers and the number of channels that were created. -/
def registry : List Monitor × ℕ := (s.monitors, s.channels)

/-- What no arm of the match changes. -/
def ledger : (Bool × ℕ × ℕ) × List Monitor × ℕ :=
  ((s.poisoned, s.slowlogSeq, s.totalCommands), s.registry)

theorem locked_ledger (first : Except FerrumError Unit)
    (f : KvEngine → Except FerrumError α × KvEngine) : (s.locked first f).2.ledger = s.ledger := by
  unfold locked
  split_ifs
  · split <;> rfl
  · rfl

theorem configure_ledger (env : Env) (cfg : EvictionConfig) :
    (s.configure env cfg).2.ledger = s.ledger := by
  unfold configure
  rw [answered_snd]
  unfold setEvictionConfig
  split_ifs <;> rfl

theorem configSetValue_ledger (env : Env) (name value : Bytes) :
    (s.configSetValue env name value).2.ledger = s.ledger := by
  unfold configSetValue
  split
  · rfl
  · split
    · exact s.configure_ledger env _
    · rfl
  · split
    · exact s.configure_ledger env _
    · rfl
  · split
    · split_ifs
      · exact s.configure_ledger env _
      · rfl
    · rfl
  · split <;> rfl
  · split
    · split_ifs <;> rfl
    · rfl
  · rfl

theorem configReply_ledger (env : Env) (version : ProtocolVersion) (sub : Bytes)
    (args : List Bytes) : (s.configReply env version sub args).2.ledger = s.ledger := by
  unfold configReply
  split_ifs
  · split <;> rfl
  · split
    · unfold configSet
      split_ifs
      · rfl
      · rfl
      · exact s.configSetValue_ledger env _ _
    · rfl
  · rfl

theorem slowLogReply_ledger (sub : Bytes) (args : List Bytes) :
    (s.slowLogReply sub args).2.ledger = s.ledger := by
  unfold slowLogReply
  split_ifs
  · split
    · rfl
    · split <;> rfl
  · rfl
  · rfl
  · rfl

theorem dispatch_ledger (r : Reading) (version : ProtocolVersion) (cmd : Protocol.Command) :
    (s.dispatch r version cmd).2.ledger = s.ledger := by
  cases cmd <;> simp only [dispatch, answered_snd]
  case config sub args => exact s.configReply_ledger r.env version sub args
  case slowLog sub args => exact s.slowLogReply_ledger sub args
  case ping msg => cases msg <;> rfl
  case del keys | existsMany keys =>
    split_ifs
    · rfl
    · rw [answered_snd]
      exact s.locked_ledger _ _
  all_goals first | rfl | exact s.locked_ledger _ _

theorem noteSlow_registry (r : Reading) (armed : Bool) (cmd : Protocol.Command) :
    (s.noteSlow r armed cmd).registry = s.registry := by
  unfold noteSlow maybePushSlowlog
  split_ifs <;> rfl

/-- The registry of the monitors is what the announcement of a command left. -/
theorem executeCommand_registry (r : Reading) (version : ProtocolVersion) (cmd : Protocol.Command) :
    (s.executeCommand r version cmd).2.registry = (s.announce r cmd).registry := by
  unfold executeCommand
  rw [noteSlow_registry]
  exact congrArg Prod.snd ((s.announce r cmd).dispatch_ledger r version cmd)

end FerrumKv.Server
