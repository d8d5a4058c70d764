import FerrumKv.Replay

/-!
# What the keyspace shows

The view of a store at a clock: for each key its value and deadline, unless it has expired. The
records of the log act on views key by key; a record's action is what replaying it does to the
view of the engine it is replayed into. Over it stand the two things the log is for: a restart
that replays it, and a replica that is fed with it.
-/

namespace FerrumKv

/-- A value with its deadline, where there is one. -/
abbrev Shown := Option (Bytes × Option ℕ)

abbrev View := Key → Shown

def ValueEntry.shown (now : ℕ) (e : ValueEntry) : Shown :=
  if e.isExpired now then none else some (e.data, e.expireAt)

/-- The entries that are live at `now`. -/
def live (now : ℕ) (store : Store) : View := fun k => (store.lookup k).bind (·.shown now)

/-- What is left of a shown entry at the later clock `T`. -/
def clip (T : ℕ) : Shown → Shown
  | some (v, some d) => if d ≤ T then none else some (v, some d)
  | p => p

/-- What a record replayed at clock `t` does to what is shown at `k`. -/
def AofRecord.actAt (t : ℕ) (k : Key) (p : Shown) : AofRecord → Shown
  | .set key value => if k = key then some (value, none) else p
  | .del key => if k = key then none else p
  | .flushdb => none
  | .pexpireat key absEpochMs =>
    if k = key then
      p.bind fun q =>
        if absEpochMs.toInt ≤ t then none else some (q.1, some absEpochMs.toInt.toNat)
    else p
  | .persist key => if k = key then p.map fun q => (q.1, none) else p

/-- What a list of records replayed at clock `t` does to a view. -/
def actAll (t : ℕ) (rs : List AofRecord) (v : View) : View :=
  fun k => rs.foldl (AofRecord.actAt t k) (v k)

def applyAll (env : Env) (s : KvEngine) (rs : List AofRecord) : KvEngine :=
  rs.foldl (fun s r => (applyRecord env s r.parts).2) s

/-- Nothing stored has expired at `t`. -/
def Fresh (t : ℕ) (store : Store) : Prop :=
  ∀ k e, store.lookup k = some e → e.isExpired t = false

/-- A record within the size limits. -/
def AofRecord.Valid : AofRecord → Prop
  | .set key value => KvEngine.validatePair key value = .ok ()
  | .del key | .pexpireat key _ | .persist key => validateKey key = .ok ()
  | .flushdb => True

/-- A command at time `t`: all its clocks read `t`. -/
structure TimedCall where
  t : ℕ
  env : Env
  cmd : Command
  clock : env.At t

/-- A command whose environment is steady at `t`. -/
def TimedCall.steady (t : ℕ) (h : t < 2 ^ 63) (cmd : Command) : TimedCall :=
  ⟨t, Env.steady t, cmd, Env.steady_at h⟩

theorem toNat_lt_epoch (t : UInt8) : t.toNat < 2 ^ 63 := by
  have := t.toNat_lt
  omega

/-- A command at one of the first 256 milliseconds. -/
def TimedCall.soon (t : UInt8) (cmd : Command) : TimedCall :=
  .steady t.toNat (toNat_lt_epoch t) cmd

def TimedCall.call (c : TimedCall) : Call := ⟨c.env, c.cmd⟩

def runTimed (s : KvEngine) (calls : List TimedCall) : KvEngine := run s (calls.map (·.call))

/-- The times of a run never go back. -/
def InOrder (calls : List TimedCall) : Prop := (calls.map (·.t)).Pairwise (· ≤ ·)

/-- Replaying the log of `s` into an empty engine succeeds, and leaves exactly what `s` shows
at `T`. -/
def RestartAgrees (T : ℕ) (env : Env) (s : KvEngine) : Prop :=
  ∃ r, replay env (encodeLog s.log) KvEngine.new = .ok r
    ∧ ∀ k, (r.engine.store.lookup k).map (fun e => (e.data, e.expireAt)) = live T s.store k

/-- Whether the command at clock `t` leaves alone every deadline that has passed by `T`: it does not
replace one by a deadline after `T`, nor clear it. -/
def StepSafe (T t : ℕ) (store : Store) : Command → Prop
  | .expireAtMs key absEpochMs =>
    ∀ v d, live t store key = some (v, some d) → d ≤ T → absEpochMs.toInt ≤ T
  | .persist key => ∀ v d, live t store key = some (v, some d) → T < d
  | _ => True

/-- Feeds records through `apply_record` and stops at the first that fails. -/
def feed (env : Env) : List AofRecord → KvEngine → Except ApplyError KvEngine
  | [], s => .ok s
  | r :: rs, s =>
    match applyRecord env s r.parts with
    | (.error e, _) => .error e
    | (.ok (), s) => feed env rs s

/-- A command of the primary, and what the replica reads while it is fed the command's records. -/
structure FedCall extends TimedCall where
  replicaEnv : Env
  replicaClock : replicaEnv.At t

/-- A command whose environments are steady at `t` on both sides. -/
def FedCall.steady (t : ℕ) (h : t < 2 ^ 63) (cmd : Command) : FedCall :=
  ⟨.steady t h cmd, Env.steady t, Env.steady_at h⟩

/-- Runs commands on the primary and feeds the records of each to the replica. -/
def mirror : List FedCall → KvEngine × KvEngine → Except ApplyError (KvEngine × KvEngine)
  | [], p => .ok p
  | c :: calls, (primary, replica) =>
    let primary' := c.call.step primary
    match feed c.replicaEnv (primary'.log.drop primary.log.length) replica with
    | .error e => .error e
    | .ok replica' => mirror calls (primary', replica')

end FerrumKv
