import FerrumKv.Replay

/-!
# The layout of a log file

What the bytes of an arbitrary file are to the replay loop: complete records, damaged parts with the
bytes skipped behind them, and a tail that is cut off. Beside it stand the loop without a bound on its
rounds, with the element buffers that decoding allocates, and the length to which the file is cut.
-/

namespace FerrumKv

namespace Reader

/-- The length of the buffer for one bulk string, if reading comes to that. -/
def bulkBuffer (r : Reader) : Option ℕ :=
  match r.expectByte with
  | (.error _, _) => none
  | (.ok marker, r) =>
    if marker ≠ 36 then none
    else
      match r.readInteger with
      | (.error _, _) => none
      | (.ok len, _) => if len < 0 then none else some len.toNat

def bulkBuffers : ℕ → Reader → List ℕ
  | 0, _ => []
  | n + 1, r =>
    r.bulkBuffer.toList ++
      match r.readBulk with
      | (.error _, _) => []
      | (.ok _, r) => bulkBuffers n r

end Reader

/-- The lengths of the element buffers that `readRecord` allocates. -/
def recordBuffers (rest : Bytes) : List ℕ :=
  match rest with
  | [] => []
  | first :: rest =>
    if first ≠ 42 then []
    else
      match (⟨rest, 1⟩ : Reader).readInteger with
      | (.error _, _) => []
      | (.ok arrayLen, r) => if arrayLen < 0 then [] else Reader.bulkBuffers arrayLen.toNat r

/-- What a round of the loop comes to: another round, or its result. -/
inductive Round
  | again (rest : Bytes) (st : ReplayState)
  | stop (res : Except FerrumError ReplayState)

/-- One round of the loop of `replay_from_file`. -/
def replayRound (env : Env) (len : ℕ) (rest : Bytes) (st : ReplayState) : Round :=
  match readRecord rest with
  | (.ok none, _) => .stop (.ok st)
  | (.error (.unexpectedEof consumed), _) =>
    if 0 < consumed then .stop (.ok { st with stats := { st.stats with truncatedTail := true } })
    else .stop (.ok st)
  | (.error (.malformed _ consumed), rest) =>
    let st := { st with stats := { st.stats with skipped := st.stats.skipped + 1 } }
    match resyncToNextArray rest with
    | (true, rest) => .again rest { st with lastGood := st.lastGood + consumed }
    | (false, _) => .stop (.ok { st with stats := { st.stats with truncatedTail := true } })
  | (.ok (some record), rest) =>
    match applyRecord env st.engine record with
    | (.ok (), engine) =>
      .again rest
        { engine := engine, stats := { st.stats with applied := st.stats.applied + 1 },
          lastGood := len - rest.length }
    | (.error (.engine e), _) => .stop (.error e)
    | (.error _, engine) =>
      .again rest
        { engine := engine, stats := { st.stats with skipped := st.stats.skipped + 1 },
          lastGood := len - rest.length }

/-- The loop with no bound on its rounds, and the buffers it allocates. -/
inductive ReplayLoop (env : Env) (len : ℕ) :
    Bytes → ReplayState → List ℕ → Except FerrumError ReplayState → Prop
  | stop {rest : Bytes} {st : ReplayState} {res : Except FerrumError ReplayState}
      (h : replayRound env len rest st = .stop res) :
      ReplayLoop env len rest st (recordBuffers rest) res
  | again {rest rest' : Bytes} {st st' : ReplayState} {buffers : List ℕ}
      {res : Except FerrumError ReplayState} (h : replayRound env len rest st = .again rest' st')
      (next : ReplayLoop env len rest' st' buffers res) :
      ReplayLoop env len rest st (recordBuffers rest ++ buffers) res

/-- The record that the elements of an array stand for, if they are not skipped. -/
def asRecord (parts : List Bytes) : Option AofRecord :=
  match parts with
  | [] => none
  | cmd :: args =>
    match recordName cmd, args with
    | .set, [key, value] => some (.set key value)
    | .del, [key] => some (.del key)
    | .flushdb, [] => some .flushdb
    | .pexpireat, [key, ts] => (parseI64 ts).map (.pexpireat key)
    | .persist, [key] => some (.persist key)
    | _, _ => none

/-- A `SET` is within the size limits. -/
def Usable (parts : List Bytes) : Prop :=
  ∀ key value, asRecord parts = some (.set key value) → KvEngine.validatePair key value = .ok ()

/-- A part of a file: a complete record, or the bytes of a malformed one and those skipped behind
them. -/
inductive Region
  | record (parts : List Bytes) (taken : Bytes)
  | damaged (taken skipped : Bytes)
  deriving DecidableEq, Repr

def Region.bytes : Region → Bytes
  | .record _ taken => taken
  | .damaged taken skipped => taken ++ skipped

def regionBytes (regions : List Region) : Bytes := regions.flatMap Region.bytes

def recordsOf : List Region → List (List Bytes)
  | [] => []
  | .record parts _ :: regions => parts :: recordsOf regions
  | .damaged _ _ :: regions => recordsOf regions

/-- The bytes of a record, whatever follows them. -/
def IsRecord (parts : List Bytes) (taken : Bytes) : Prop :=
  ∀ rest, readRecord (taken ++ rest) = (.ok (some parts), rest)

/-- The bytes of a malformed record, whatever follows them. -/
def IsDamage (taken : Bytes) : Prop :=
  ∃ why, ∀ rest, readRecord (taken ++ rest) = (.error (.malformed why taken.length), rest)

/-- A file is some regions and a tail, which is empty, or an unfinished record, or a malformed one
with no `*` behind it. -/
inductive Layout : Bytes → List Region → Bytes → Prop
  | ended : Layout [] [] []
  | unfinished {tail rest : Bytes} {consumed : ℕ} (hne : tail ≠ [])
      (h : readRecord tail = (.error (.unexpectedEof consumed), rest)) : Layout tail [] tail
  | lost {taken skipped : Bytes} (h : IsDamage taken) (hskip : 42 ∉ skipped) :
      Layout (taken ++ skipped) [] (taken ++ skipped)
  | record {parts : List Bytes} {taken rest : Bytes} {regions : List Region} {tail : Bytes}
      (h : IsRecord parts taken) (next : Layout rest regions tail) :
      Layout (taken ++ rest) (.record parts taken :: regions) tail
  | damaged {taken skipped rest : Bytes} {regions : List Region} {tail : Bytes}
      (h : IsDamage taken) (hskip : 42 ∉ skipped) (next : Layout (42 :: rest) regions tail) :
      Layout (taken ++ skipped ++ 42 :: rest) (.damaged taken skipped :: regions) tail

/-- Where the file is cut if its tail is: the end of the last record, and as many bytes more as were
taken, and not skipped, of the damaged parts behind it. The regions start at `start`, and `good` is
the length before them. -/
def cutAt (start good : ℕ) : List Region → ℕ
  | [] => good
  | .record _ taken :: regions => cutAt (start + taken.length) (start + taken.length) regions
  | .damaged taken skipped :: regions =>
    cutAt (start + taken.length + skipped.length) (good + taken.length) regions

/-- Some byte, and not all, of what was taken of a damaged part lies before the cut. -/
def CutInside (regions : List Region) : Prop :=
  ∃ before taken skipped after, regions = before ++ .damaged taken skipped :: after
    ∧ (regionBytes before).length < cutAt 0 0 regions
    ∧ cutAt 0 0 regions < (regionBytes before).length + taken.length

end FerrumKv
