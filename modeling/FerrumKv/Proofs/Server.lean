import FerrumKv.Proofs.Encoder
import FerrumKv.Proofs.Parser
import FerrumKv.Server

/-!
# One value per reply

Every arm of `execute_command` appends exactly one value of the connection's protocol version, except
that `CONFIG SET` shows a part of its arguments in three of its errors as it was sent: the reply is a
value exactly if that part is one line (`executeCommand_value_iff`).
-/

namespace FerrumKv.Server

open Resp (Value Line line_append_iff)
open Encoder

/-- The text that an error of `CONFIG SET` shows. -/
def echoedValue (name value : Bytes) : Option Bytes :=
  match parameter name with
  | .maxMemory =>
    match parseBytes value with
    | .ok _ => none
    | .error _ => some value
  | .maxMemoryPolicy =>
    match EvictionPolicy.fromName (asciiLowercase value) with
    | some _ => none
    | none => some value
  | .unknown => some name
  | _ => none

/-- The part of a command that its reply shows as an error without changing it. -/
def echoed : Protocol.Command → Option Bytes
  | .config sub [param, value] =>
    if sub = text "SET" ∧ Utf8.valid param = true ∧ Utf8.valid value = true then
      echoedValue (asciiLowercase param) value
    else none
  | _ => none

/-- The reply shows a CR or an LF inside an error. -/
def EchoesLineBreak (cmd : Protocol.Command) : Prop := ∃ t, echoed cmd = some t ∧ ¬ Line t

def pairItems (pairs : List (Bytes × Bytes)) : List Bytes :=
  pairs.flatMap fun p => [encodeBulkString p.1, encodeBulkString p.2]

theorem flatten_pairItems : ∀ pairs : List (Bytes × Bytes), (pairItems pairs).flatten
    = pairs.flatMap fun p => encodeBulkString p.1 ++ encodeBulkString p.2
  | [] => rfl
  | p :: pairs => by
    have ih := flatten_pairItems pairs
    unfold pairItems at ih ⊢
    simp [List.flatMap_cons, ih]

theorem length_pairItems (pairs : List (Bytes × Bytes)) :
    (pairItems pairs).length = 2 * pairs.length := by
  simp [pairItems, List.length_flatMap, Nat.mul_comm]

theorem value_pairItems {typed : Bool} {pairs : List (Bytes × Bytes)} :
    ∀ x ∈ pairItems pairs, Value typed x := by
  intro x hx
  simp only [pairItems, List.mem_flatMap, List.mem_cons, List.not_mem_nil, or_false] at hx
  obtain ⟨p, -, rfl | rfl⟩ := hx
  · exact value_bulk _
  · exact value_bulk _

theorem value_encodePairs (version : ProtocolVersion) (pairs : List (Bytes × Bytes)) :
    Value version.typed (encodePairs version pairs) := by
  unfold encodePairs
  rw [← flatten_pairItems]
  rcases version with _ | _
  · simp only []
    rw [Nat.mul_comm, ← length_pairItems]
    exact value_array value_pairItems
  · exact value_map (length_pairItems pairs) value_pairItems

theorem value_encodeSlowlogEntry {typed : Bool} (e : SlowLogEntry) :
    Value typed (encodeSlowlogEntry e) := by
  have hargs : Value typed (encodeArrayHeader e.args.length ++ e.args.flatMap encodeBulkString) :=
    value_array_flatMap _ _ fun x _ => value_bulk x
  have h : ∀ x ∈ [encCount e.id, encCount e.tsSecs, encCount e.durationUs,
      encodeArrayHeader e.args.length ++ e.args.flatMap encodeBulkString,
      encodeBulkString e.peer, encodeBulkString []], Value typed x := by
    intro x hx
    simp only [List.mem_cons, List.not_mem_nil, or_false] at hx
    rcases hx with rfl | rfl | rfl | rfl | rfl | rfl
    · exact value_integer _
    · exact value_integer _
    · exact value_integer _
    · exact hargs
    · exact value_bulk _
    · exact value_bulk _
  simpa [encodeSlowlogEntry] using value_array h

theorem value_encodeSlowlogEntries {typed : Bool} (entries : List SlowLogEntry) :
    Value typed (encodeSlowlogEntries entries) :=
  value_array_flatMap _ _ fun e _ => value_encodeSlowlogEntry e

section Scalars

variable (version : ProtocolVersion)

theorem value_encNull : Value version.typed (encNull version) := by
  rcases version with _ | _
  · exact value_nullBulk
  · exact value_null

theorem value_encBool (b : Bool) : Value version.typed (encBool version b) := by
  rcases version with _ | _
  · exact value_integer _
  · exact value_boolean b

theorem value_encValue (v : Option Bytes) : Value version.typed (encValue version v) := by
  rcases v with _ | v
  · exact value_encNull version
  · exact value_bulk v

end Scalars

section Replies

variable {typed : Bool}

theorem value_ok : Value typed ok := value_simple (by decide)

theorem value_encTtl (render : Int64 → Int64) (t : TtlStatus) : Value typed (encTtl render t) := by
  rcases t with _ | _ | ms
  · exact value_integer _
  · exact value_integer _
  · exact value_integer _

theorem value_answered {α : Type} {f : α → Bytes} {r : Except ServerError α × Server}
    (h : ∀ a, r.1 = .ok a → Value typed (f a)) : Value typed (answered f r).1 := by
  rcases r with ⟨e | a, s⟩
  · exact value_writeFerrumError e
  · exact h a rfl

end Replies

theorem incrByFloat_isFinite {env : Env} {e : KvEngine} {key : Key} {delta n : UInt64}
    (h : (e.incrByFloat env key delta).1 = .ok n) : env.float.isFinite n = true := by
  have hstore : ∀ (e : KvEngine) (current : UInt64) (ttl : Option ℕ),
      (KvEngine.incrByFloat.store env key delta e current ttl).1 = .ok n →
        env.float.isFinite n = true := by
    intro e current ttl h
    unfold KvEngine.incrByFloat.store at h
    simp only [] at h
    split_ifs at h with hf
    rcases hi : e.insertKeepTtl env key (env.float.render (env.float.add current delta)) ttl
      with ⟨err | u, e'⟩ <;> simp only [hi] at h
    · cases h
    · cases h
      simpa using hf
  unfold KvEngine.incrByFloat at h
  rcases hv : validateKey key with err | u <;> simp only [hv] at h
  · cases h
  rcases hr : e.readState env key with ⟨_ | ⟨data, ttl⟩, e'⟩ <;> simp only [hr] at h
  · exact hstore _ _ _ h
  rcases hp : env.float.parse data with _ | x <;> simp only [hp] at h
  · cases h
  · exact hstore _ _ _ h

theorem locked_eq_ok {α : Type} {s : Server} {first : Except FerrumError Unit}
    {f : KvEngine → Except FerrumError α × KvEngine} {a : α} (h : (s.locked first f).1 = .ok a) :
    (f s.engine).1 = .ok a := by
  unfold locked at h
  split_ifs at h
  · rcases first with e | u <;> cases h
  · simp only [] at h
    rcases hf : (f s.engine).1 with e | b <;> rw [hf] at h
    · cases h
    · cases h
      rfl

theorem value_configGet (s : Server) (version : ProtocolVersion) (pattern : Bytes) :
    Value version.typed (s.configGet version pattern) := by
  unfold configGet
  split_ifs
  · exact value_encodePairs _ _
  · exact value_encodePairs _ _
  · split
    · exact value_encodePairs _ _
    · exact value_encodePairs _ _

theorem value_configure {typed : Bool} (s : Server) (env : Env) (cfg : EvictionConfig) :
    Value typed (s.configure env cfg).1 := value_answered fun _ _ => value_ok

theorem line_message_iff (value : Bytes) (e : BytesError) :
    Line (e.message "maxmemory" value) ↔ Line value := by
  have h1 : Line (text "invalid " ++ text "maxmemory" ++ text ": '") := by decide
  rcases e with _ | _ <;> simp only [BytesError.message, line_append_iff]
  · have h2 : Line (text "' is not a byte size") := by decide
    simp only [line_append_iff] at h1
    tauto
  · have h2 : Line (text "' overflows u64") := by decide
    simp only [line_append_iff] at h1
    tauto

/-- `CONFIG SET` answers with one value exactly if the text it shows is one line. -/
theorem value_configSetValue_iff {typed : Bool} (s : Server) (env : Env) (name value : Bytes) :
    Value typed (s.configSetValue env name value).1
      ↔ ∀ t, echoedValue name value = some t → Line t := by
  unfold configSetValue echoedValue
  rcases parameter name with _ | _ | _ | _ | _ | _ | _ <;> simp only []
  case requirepass => simp [value_ok]
  case maxMemory =>
    rcases parseBytes value with e | bytes <;> simp only []
    · have herr : Line (text "ERR ") := by decide
      simp [value_error_iff, line_append_iff, line_message_iff, herr]
    · simp [value_configure]
  case maxMemoryPolicy =>
    rcases EvictionPolicy.fromName (asciiLowercase value) with _ | p <;> simp only []
    · have h1 : Line (text "ERR Invalid argument '") := by decide
      have h2 : Line (text "' for CONFIG SET 'maxmemory-policy'") := by decide
      simp [value_error_iff, line_append_iff, h1, h2]
    · simp [value_configure]
  case maxMemorySamples =>
    rcases parseU64 (Utf8.trim value) with _ | n <;> simp only []
    · exact iff_of_true (value_error_iff.2 (by decide)) (by simp)
    · split_ifs
      · simp [value_configure]
      · exact iff_of_true (value_error_iff.2 (by decide)) (by simp)
  case slowlogLogSlowerThan =>
    rcases parseI64 (Utf8.trim value) with _ | n <;> simp only []
    · exact iff_of_true (value_error_iff.2 (by decide)) (by simp)
    · simp [value_ok]
  case slowlogMaxLen =>
    rcases parseU64 (Utf8.trim value) with _ | n <;> simp only []
    · exact iff_of_true (value_error_iff.2 (by decide)) (by simp)
    · split_ifs
      · simp [value_ok]
      · exact iff_of_true (value_error_iff.2 (by decide)) (by simp)
  case unknown =>
    have h1 : Line (text "ERR Unknown parameter '") := by decide
    have h2 : Line (text "'") := by decide
    simp [value_error_iff, line_append_iff, h1, h2]

theorem value_configReply_iff (s : Server) (env : Env) (version : ProtocolVersion) {sub : Bytes}
    {rest args : List Bytes} (h : (Protocol.Command.config sub rest).Shape args) :
    Value version.typed (s.configReply env version sub rest).1
      ↔ ¬ EchoesLineBreak (.config sub rest) := by
  unfold EchoesLineBreak echoed
  rcases h with ⟨rfl, p, rfl⟩ | ⟨rfl, p, v, rfl⟩
  · have hget : eqIgnoreAsciiCase (text "GET") (text "GET") = true := by decide
    simp [configReply, hget, value_configGet]
  · have hget : eqIgnoreAsciiCase (text "SET") (text "GET") = false := by decide
    have hset : eqIgnoreAsciiCase (text "SET") (text "SET") = true := by decide
    simp only [configReply, hget, hset, configSet, Bool.false_eq_true, if_false, if_true]
    by_cases hp : Utf8.valid p = true
    · by_cases hv : Utf8.valid v = true
      · simp [hp, hv, value_configSetValue_iff]
      · have hline : Line (text "ERR Invalid argument (non-UTF8 value)") := by decide
        simp [hp, hv, value_error_iff, hline]
    · have hline : Line (text "ERR Unknown parameter (non-UTF8 parameter name)") := by decide
      simp [hp, value_error_iff, hline]

theorem value_slowLogReply {typed : Bool} (s : Server) (sub : Bytes) (args : List Bytes) :
    Value typed (s.slowLogReply sub args).1 := by
  unfold slowLogReply
  split_ifs
  · split
    · exact value_encodeSlowlogEntries _
    · split
      · exact value_encodeSlowlogEntries _
      · exact value_error_iff.2 (by decide)
  · exact value_integer _
  · exact value_ok
  · exact value_error_iff.2 (by decide)

theorem value_infoReply (s : Server) (r : Reading) (version : ProtocolVersion)
    (part : Option Bytes) : Value version.typed (s.infoReply r version part) := by
  rcases version with _ | _
  · exact value_bulk _
  · exact value_encodePairs .resp3 _

/-- Every command but `CONFIG` is answered by one value. -/
theorem dispatch_value (s : Server) (r : Reading) (version : ProtocolVersion)
    (cmd : Protocol.Command) (h : ∀ sub args, cmd ≠ .config sub args) :
    Value version.typed (s.dispatch r version cmd).1 := by
  cases cmd <;> simp only [dispatch]
  case config sub args => exact absurd rfl (h sub args)
  case set | mSet | flushDb | rewriteAof => exact value_answered fun _ _ => value_ok
  case setNx | expire | pExpire | pExpireAt | persist =>
    exact value_answered fun b _ => value_encBool version b
  case mGet =>
    exact value_answered fun values _ => value_array_flatMap _ _ fun v _ => value_encValue version v
  case incrBy => exact value_answered fun n _ => value_integer n
  case incrByFloat key delta =>
    refine value_answered fun n hn => ?_
    rcases version with _ | _
    · exact value_bulk _
    · exact value_double (r.isFinite n (incrByFloat_isFinite (locked_eq_ok hn)))
  case get => exact value_answered fun v _ => value_encValue version v
  case del keys =>
    split_ifs
    · exact value_integer _
    · exact value_answered fun n _ => value_integer _
  case existsMany keys =>
    split_ifs
    · exact value_integer _
    · exact value_answered fun n _ => value_integer _
  case ping msg =>
    rcases msg with _ | msg
    · exact value_simple (by decide)
    · exact value_bulk msg
  case append | strLen | dbSize => exact value_answered fun n _ => value_integer _
  case ttl | pTtl => exact value_answered fun t _ => value_encTtl _ t
  case memoryUsage key =>
    refine value_answered fun usage _ => ?_
    rcases usage with _ | n
    · exact value_encNull version
    · exact value_integer _
  case info part => exact value_infoReply s r version part
  case auth | monitor | hello => exact value_error_iff.2 (by decide)
  case slowLog sub args => exact value_slowLogReply s sub args

/-- The reply to a command is exactly one value, unless it shows a line break of the command. -/
theorem executeCommand_value_iff (s : Server) (r : Reading) (version : ProtocolVersion)
    {cmd : Protocol.Command} (h : Protocol.Produced r.env.float cmd) :
    Value version.typed (s.executeCommand r version cmd).1 ↔ ¬ EchoesLineBreak cmd := by
  obtain ⟨args, hshape, -⟩ := h.shape
  unfold executeCommand
  by_cases hc : ∃ sub rest, cmd = .config sub rest
  · obtain ⟨sub, rest, rfl⟩ := hc
    exact value_configReply_iff _ _ _ hshape
  · have hne : ∀ sub rest, cmd ≠ .config sub rest := fun sub rest e => hc ⟨sub, rest, e⟩
    have hecho : ¬ EchoesLineBreak cmd := by
      rintro ⟨t, ht, -⟩
      cases cmd
      case config => exact hne _ _ rfl
      all_goals cases ht
    exact iff_of_true (dispatch_value _ r version cmd hne) hecho

end FerrumKv.Server
