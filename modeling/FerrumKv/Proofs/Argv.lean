import FerrumKv.Proofs.Decoders

/-!
# Argument vectors and the commands they build

The vector of arguments that `args` gives for a command builds the same command again, and so do
its bytes as a request (`args_reproduce`). What `build_command` returns is normalised: `INCR`,
`DECR` and `DECRBY` are increments, sub-commands are in upper case, optional arguments were checked
(`Canonical`).
-/

namespace FerrumKv.Protocol

theorem verb?_text : ∀ v ∈ verbs, verb? (text v.1) = some v.2 := by decide

theorem buildCommand_text {float : FloatOps} {name : String} {v : Verb} (h : (name, v) ∈ verbs)
    (args : List Bytes) : buildCommand float (text name) args = buildArgs float args v := by
  rw [buildCommand, verb?_text _ h]

/-- The vector of arguments builds `c`. -/
def Rebuilds (float : FloatOps) (parts : List Bytes) (c : Command) : Prop :=
  ∃ name args, parts = name :: args ∧ buildCommand float name args = .ok c

theorem Rebuilds.of_verb {float : FloatOps} {name : String} {v : Verb} {args : List Bytes}
    {c : Command} (hv : (name, v) ∈ verbs) (h : buildArgs float args v = .ok c) :
    Rebuilds float (text name :: args) c :=
  ⟨text name, args, rfl, (buildCommand_text hv args).trans h⟩

theorem parseIntegerArgument_i64ToString (n : Int64) :
    parseIntegerArgument (i64ToString n) = .ok n := by
  rw [parseIntegerArgument, parseI64_i64ToString]

theorem pairUp_flatMap : ∀ pairs : List (Bytes × Bytes),
    pairUp (pairs.flatMap fun p => [p.1, p.2]) = pairs
  | [] => rfl
  | (k, v) :: pairs => by
    rw [List.flatMap_cons]
    change (k, v) :: pairUp (pairs.flatMap fun p => [p.1, p.2]) = _
    rw [pairUp_flatMap pairs]

theorem twoArgs_number (cmd : String) (key : Bytes) (n : Int64) (f : Bytes → Int64 → Command) :
    twoArgs cmd [key, i64ToString n] (fun key raw => (parseIntegerArgument raw).map (f key))
      = .ok (f key n) := by
  simp only [twoArgs, parseIntegerArgument_i64ToString, Except.map]

theorem someArgs_of_ne_nil (cmd : String) {keys : List Bytes} (h : keys ≠ [])
    (f : List Bytes → Command) : someArgs cmd keys f = .ok (f keys) := by
  rcases keys with _ | ⟨key, keys⟩
  · exact absurd rfl h
  · rfl

theorem buildArgs_mSet {float : FloatOps} {pairs : List (Bytes × Bytes)} (h : pairs ≠ []) :
    buildArgs float (pairs.flatMap fun p => [p.1, p.2]) .mSet = .ok (.mSet pairs) := by
  have hne : (pairs.flatMap fun p => [p.1, p.2]) ≠ [] := by
    rcases pairs with _ | ⟨p, pairs⟩
    · exact absurd rfl h
    · simp
  rw [buildArgs, if_neg (by simp [hne]), pairUp_flatMap]

theorem buildConfig_of_canonical {sub : Bytes} {args : List Bytes}
    (h : (Command.config sub args).Canonical) : buildConfig (sub :: args) = .ok (.config sub args) := by
  rcases h with ⟨rfl, p, rfl⟩ | ⟨rfl, p, v, rfl⟩
  · rfl
  · rfl

theorem buildSlowLog_of_canonical {sub : Bytes} {args : List Bytes}
    (h : (Command.slowLog sub args).Canonical) :
    buildSlowLog (sub :: args) = .ok (.slowLog sub args) := by
  rcases h with ⟨rfl, hlen⟩ | ⟨rfl | rfl, rfl⟩
  · rcases args with _ | ⟨a, _ | ⟨b, args⟩⟩
    · rfl
    · rfl
    · simp at hlen
  · rfl
  · rfl

theorem rebuilds_args {float : FloatOps} {c : Command} (h : c.Canonical)
    (hfloat : ∀ key delta, c ≠ .incrByFloat key delta) : Rebuilds float (c.args float) c := by
  cases c with
  | set key value => exact .of_verb (v := .set) (by simp [verbs]) rfl
  | setNx key value => exact .of_verb (v := .setNx) (by simp [verbs]) rfl
  | append key value => exact .of_verb (v := .append) (by simp [verbs]) rfl
  | get key => exact .of_verb (v := .get) (by simp [verbs]) rfl
  | strLen key => exact .of_verb (v := .strLen) (by simp [verbs]) rfl
  | persist key => exact .of_verb (v := .persist) (by simp [verbs]) rfl
  | ttl key => exact .of_verb (v := .ttl) (by simp [verbs]) rfl
  | pTtl key => exact .of_verb (v := .pTtl) (by simp [verbs]) rfl
  | auth password => exact .of_verb (v := .auth) (by simp [verbs]) rfl
  | dbSize => exact .of_verb (v := .dbSize) (by simp [verbs]) rfl
  | flushDb => exact .of_verb (v := .flushDb) (by simp [verbs]) rfl
  | rewriteAof => exact .of_verb (v := .rewriteAof) (by simp [verbs]) rfl
  | monitor => exact .of_verb (v := .monitor) (by simp [verbs]) rfl
  | incrBy key delta =>
    exact .of_verb (v := .incrBy) (by simp [verbs]) (twoArgs_number "INCRBY" key delta .incrBy)
  | expire key seconds =>
    exact .of_verb (v := .expire) (by simp [verbs]) (twoArgs_number "EXPIRE" key seconds .expire)
  | pExpire key millis =>
    exact .of_verb (v := .pExpire) (by simp [verbs]) (twoArgs_number "PEXPIRE" key millis .pExpire)
  | pExpireAt key absEpochMs =>
    exact .of_verb (v := .pExpireAt) (by simp [verbs])
      (twoArgs_number "PEXPIREAT" key absEpochMs .pExpireAt)
  | mGet keys => exact .of_verb (v := .mGet) (by simp [verbs]) (someArgs_of_ne_nil _ h _)
  | del keys => exact .of_verb (v := .del) (by simp [verbs]) (someArgs_of_ne_nil _ h _)
  | existsMany keys => exact .of_verb (v := .existsMany) (by simp [verbs]) (someArgs_of_ne_nil _ h _)
  | mSet pairs => exact .of_verb (v := .mSet) (by simp [verbs]) (buildArgs_mSet h)
  | incrByFloat key delta => exact absurd rfl (hfloat key delta)
  | memoryUsage key => exact .of_verb (v := .memory) (by simp [verbs]) rfl
  | config sub args =>
    exact .of_verb (v := .config) (by simp [verbs]) (buildConfig_of_canonical h)
  | slowLog sub args =>
    exact .of_verb (v := .slowLog) (by simp [verbs]) (buildSlowLog_of_canonical h)
  | ping msg => rcases msg with _ | msg <;> exact .of_verb (v := .ping) (by simp [verbs]) rfl
  | info part => rcases part with _ | part <;> exact .of_verb (v := .info) (by simp [verbs]) rfl
  | hello version =>
    rcases h with rfl | rfl | rfl <;> exact .of_verb (v := .hello) (by simp [verbs]) rfl

theorem readFrame_encodeCommand {parts : List Bytes} (h : Framable parts) (rest : Bytes) :
    readFrame (encodeCommand parts ++ rest) 0
      = .ok (some (parts, (encodeCommand parts).length)) := by
  have hmax : maxArrayElements < 2 ^ 63 ∧ maxBulkLen < 2 ^ 63 := by decide
  have hread := readRecord_encodeCommand (h.count.trans_lt hmax.1)
    (fun p hp => (h.bulk p hp).trans_lt hmax.2) rest
  refine readFrame_iff_readRecord.2 ⟨h, by simp, ?_⟩
  rw [hread, List.drop_left]

theorem parseFrame_encodeCommand {float : FloatOps} {parts : List Bytes} {c : Command}
    (h : Rebuilds float parts c) (hcount : parts.length ≤ maxArrayElements)
    (hbulk : ∀ part ∈ parts, part.length ≤ maxBulkLen) (rest : Bytes) :
    parseFrame float (encodeCommand parts ++ rest)
      = .ok (.complete c (encodeCommand parts).length) := by
  obtain ⟨name, args, rfl, hbuild⟩ := h
  rw [parseFrame_eq, readFrame_encodeCommand ⟨by simp, hcount, hbulk⟩, frameOf, finishFrame, hbuild]

/-- The argument vector of a command that was built, `INCRBYFLOAT` apart, builds the same command;
and within the limits of the parser its bytes, whatever follows them, are a complete request for
this command. -/
theorem args_reproduce (float : FloatOps) (name : Bytes) (args : List Bytes) (c : Command)
    (h : buildCommand float name args = .ok c) (hfloat : ∀ key delta, c ≠ .incrByFloat key delta) :
    (∃ name' args', c.args float = name' :: args' ∧ buildCommand float name' args' = .ok c)
    ∧ ((c.args float).length ≤ maxArrayElements →
        (∀ part ∈ c.args float, part.length ≤ maxBulkLen) → ∀ rest : Bytes,
        parseFrame float (encodeCommand (c.args float) ++ rest)
          = .ok (.complete c (encodeCommand (c.args float)).length)) := by
  have hrebuild : Rebuilds float (c.args float) c :=
    rebuilds_args (buildCommand_spec h).2 hfloat
  exact ⟨hrebuild, fun hcount hbulk rest => parseFrame_encodeCommand hrebuild hcount hbulk rest⟩

/-- A decrement by five, in lower case. -/
theorem args_reproduce_decrBy :
    (∃ name' args', (Command.incrBy (text "k") (-5)).args (Env.steady 0).float = name' :: args'
        ∧ buildCommand (Env.steady 0).float name' args' = .ok (.incrBy (text "k") (-5)))
    ∧ parseFrame (Env.steady 0).float
        (encodeCommand [text "INCRBY", text "k", text "-5"] ++ text "*1")
      = .ok (.complete (.incrBy (text "k") (-5)) 31) := by
  have h := args_reproduce (Env.steady 0).float (text "decrby") [text "k", text "5"]
    (.incrBy (text "k") (-5)) (by decide) (by simp)
  exact ⟨h.1, h.2 (by decide) (by decide) (text "*1")⟩

end FerrumKv.Protocol
