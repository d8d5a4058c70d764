import FerrumKv.Commands

/-!
# Replaying the log

The decoder of the on-disk format, what a record does to the engine, and the loop that feeds a
file back through it. The reader is what is left of the file; every reading function also counts
the bytes it took from the current record.
-/

namespace FerrumKv

inductive Malformed
  | expectedStar (found : UInt8)
  | expectedDollar (found : UInt8)
  | negativeArrayLength (n : ℤ)
  | negativeBulkLength (n : ℤ)
  | missingCrlf
  | missingLf
  | badInteger
  deriving DecidableEq, Repr

inductive ReadError
  | unexpectedEof (consumed : ℕ)
  | malformed (why : Malformed) (consumed : ℕ)
  deriving DecidableEq, Repr

/-- The reader: the bytes that are left, and how many the current record has taken. -/
structure Reader where
  rest : Bytes
  consumed : ℕ
  deriving DecidableEq, Repr

namespace Reader

def expectByte (r : Reader) : Except ReadError UInt8 × Reader :=
  match r.rest with
  | b :: rest => (.ok b, ⟨rest, r.consumed + 1⟩)
  | [] => (.error (.unexpectedEof r.consumed), r)

def readExact (r : Reader) (len : ℕ) : Except ReadError Bytes × Reader :=
  if r.rest.length < len then
    let r := ⟨[], r.consumed + r.rest.length⟩
    (.error (.unexpectedEof r.consumed), r)
  else (.ok (r.rest.take len), ⟨r.rest.drop len, r.consumed + len⟩)

/-- The bytes of an integer line up to its CR, which is taken too. -/
def readLine : Bytes → ℕ → Bytes → Except ReadError Bytes × Reader
  | [], consumed, _ => (.error (.unexpectedEof consumed), ⟨[], consumed⟩)
  | b :: rest, consumed, number =>
    if b = 13 then (.ok number, ⟨rest, consumed + 1⟩)
    else readLine rest (consumed + 1) (number ++ [b])

def readInteger (r : Reader) : Except ReadError ℤ × Reader :=
  match readLine r.rest r.consumed [] with
  | (.error e, r) => (.error e, r)
  | (.ok number, r) =>
    match r.expectByte with
    | (.error e, r) => (.error e, r)
    | (.ok lf, r) =>
      if lf ≠ 10 then (.error (.malformed .missingLf r.consumed), r)
      else
        match parseI64 number with
        | some n => (.ok n.toInt, r)
        | none => (.error (.malformed .badInteger r.consumed), r)

def readBulk (r : Reader) : Except ReadError Bytes × Reader :=
  match r.expectByte with
  | (.error e, r) => (.error e, r)
  | (.ok marker, r) =>
    if marker ≠ 36 then (.error (.malformed (.expectedDollar marker) r.consumed), r)
    else
      match r.readInteger with
      | (.error e, r) => (.error e, r)
      | (.ok len, r) =>
        if len < 0 then (.error (.malformed (.negativeBulkLength len) r.consumed), r)
        else
          match r.readExact len.toNat with
          | (.error e, r) => (.error e, r)
          | (.ok buf, r) =>
            match r.expectByte with
            | (.error e, r) => (.error e, r)
            | (.ok cr, r) =>
              match r.expectByte with
              | (.error e, r) => (.error e, r)
              | (.ok lf, r) =>
                if cr ≠ 13 ∨ lf ≠ 10 then (.error (.malformed .missingCrlf r.consumed), r)
                else (.ok buf, r)

def readBulks : ℕ → Reader → Except ReadError (List Bytes) × Reader
  | 0, r => (.ok [], r)
  | n + 1, r =>
    match r.readBulk with
    | (.error e, r) => (.error e, r)
    | (.ok part, r) =>
      match readBulks n r with
      | (.error e, r) => (.error e, r)
      | (.ok parts, r) => (.ok (part :: parts), r)

end Reader

/-- One record from the bytes that are left; `none` at a clean end of file. -/
def readRecord (rest : Bytes) : Except ReadError (Option (List Bytes)) × Bytes :=
  match rest with
  | [] => (.ok none, [])
  | first :: rest =>
    if first ≠ 42 then (.error (.malformed (.expectedStar first) 1), rest)
    else
      match (⟨rest, 1⟩ : Reader).readInteger with
      | (.error e, r) => (.error e, r.rest)
      | (.ok arrayLen, r) =>
        if arrayLen < 0 then
          (.error (.malformed (.negativeArrayLength arrayLen) r.consumed), r.rest)
        else
          match Reader.readBulks arrayLen.toNat r with
          | (.error e, r) => (.error e, r.rest)
          | (.ok parts, r) => (.ok (some parts), r.rest)

/-- Drops bytes up to the next `*`, which stays. -/
def resyncToNextArray (rest : Bytes) : Bool × Bytes :=
  let rest := rest.dropWhile (· ≠ 42)
  (!rest.isEmpty, rest)

inductive ApplyError
  | unknown (cmd : Bytes)
  | arity (cmd : Bytes)
  | engine (e : FerrumError)
  deriving DecidableEq, Repr

def toAsciiUppercase (b : UInt8) : UInt8 := if 97 ≤ b ∧ b ≤ 122 then b - 32 else b

/-- The command a record names, by its upper-cased first part. -/
inductive RecordName
  | set
  | del
  | flushdb
  | pexpireat
  | persist
  | unknown
  deriving DecidableEq, Repr

def recordName (cmd : Bytes) : RecordName :=
  let upper := cmd.map toAsciiUppercase
  if upper = ascii ['S', 'E', 'T'] then .set
  else if upper = ascii ['D', 'E', 'L'] then .del
  else if upper = ascii ['F', 'L', 'U', 'S', 'H', 'D', 'B'] then .flushdb
  else if upper = ascii ['P', 'E', 'X', 'P', 'I', 'R', 'E', 'A', 'T'] then .pexpireat
  else if upper = ascii ['P', 'E', 'R', 'S', 'I', 'S', 'T'] then .persist
  else .unknown

def applyRecord (env : Env) (s : KvEngine) (parts : List Bytes) : Except ApplyError Unit × KvEngine :=
  match parts with
  | [] => (.error (.arity []), s)
  | cmd :: args =>
    match recordName cmd, args with
    | .set, [key, value] =>
      match s.set env key value with
      | (.error e, s) => (.error (.engine e), s)
      | (.ok _, s) => (.ok (), s)
    | .set, _ => (.error (.arity cmd), s)
    | .del, [key] => (.ok (), (s.del env key).2)
    | .del, _ => (.error (.arity cmd), s)
    | .flushdb, [] => (.ok (), s.flushdb)
    | .flushdb, _ => (.error (.arity cmd), s)
    | .pexpireat, [key, ts] =>
      match parseI64 ts with
      | none => (.error (.arity cmd), s)
      | some absMs => (.ok (), (s.expireAtMs env key absMs).2)
    | .pexpireat, _ => (.error (.arity cmd), s)
    | .persist, [key] => (.ok (), (s.persist env key).2)
    | .persist, _ => (.error (.arity cmd), s)
    | .unknown, _ => (.error (.unknown cmd), s)

structure ReplayStats where
  applied : ℕ := 0
  skipped : ℕ := 0
  truncatedTail : Bool := false
  deriving DecidableEq, Repr

/-- Where the replay loop stands. `lastGood` is the length the file is cut to if its tail is. -/
structure ReplayState where
  engine : KvEngine
  stats : ReplayStats := {}
  lastGood : ℕ := 0

/-- The loop of `replay_from_file` over a file of `len` bytes, `rest` of them unread. Every round
that does not leave the loop takes a byte, so fuel for the file's length is never used up. -/
def replayLoop (env : Env) (len : ℕ) :
    ℕ → Bytes → ReplayState → Except FerrumError ReplayState
  | 0, _, st => .ok st
  | fuel + 1, rest, st =>
    match readRecord rest with
    | (.ok none, _) => .ok st
    | (.error (.unexpectedEof consumed), _) =>
      if 0 < consumed then .ok { st with stats := { st.stats with truncatedTail := true } }
      else .ok st
    | (.error (.malformed _ consumed), rest) =>
      let st := { st with stats := { st.stats with skipped := st.stats.skipped + 1 } }
      match resyncToNextArray rest with
      | (true, rest) =>
        replayLoop env len fuel rest { st with lastGood := st.lastGood + consumed }
      | (false, _) => .ok { st with stats := { st.stats with truncatedTail := true } }
    | (.ok (some record), rest) =>
      match applyRecord env st.engine record with
      | (.ok (), engine) =>
        replayLoop env len fuel rest
          { engine := engine, stats := { st.stats with applied := st.stats.applied + 1 },
            lastGood := len - rest.length }
      | (.error (.engine e), _) => .error e
      | (.error _, engine) =>
        replayLoop env len fuel rest
          { engine := engine, stats := { st.stats with skipped := st.stats.skipped + 1 },
            lastGood := len - rest.length }

/-- What `replay` leaves: the engine, the statistics, and the file. -/
structure Replayed where
  engine : KvEngine
  stats : ReplayStats
  file : Bytes

def replay (env : Env) (file : Bytes) (s : KvEngine) : Except FerrumError Replayed :=
  match replayLoop env file.length (file.length + 1) file { engine := s } with
  | .error e => .error e
  | .ok st =>
    .ok ⟨st.engine, st.stats, if st.stats.truncatedTail then file.take st.lastGood else file⟩

/-- An engine as `build_engine` makes it: empty, or with a file replayed into it and a log
attached. -/
inductive Started : KvEngine → Prop
  | empty (aof : Option (List AofRecord)) : Started (KvEngine.startWith aof)
  | recovered {env : Env} {file : Bytes} {r : Replayed} (h : replay env file .new = .ok r)
      (aof : Option (List AofRecord)) : Started { r.engine with aof := aof }

end FerrumKv
