import FerrumKv.Lib.Decimal
import FerrumKv.Lib.WeightedMap

/-!
# Entries and the helpers around them

The per-key record of the store, the size checks on keys and values, the cost of an entry, and the
conversions between deadlines and epoch milliseconds. Time is counted in milliseconds on both
clocks; `i64` quantities are `Int64`.
-/

namespace FerrumKv

abbrev Bytes := List UInt8

abbrev Key := Bytes

def keyMaxBytes : ℕ := 64 * 1024

def valueMaxBytes : ℕ := 16 * 1024 * 1024

def perEntryOverhead : ℕ := 144

inductive FerrumError
  | parseError (msg : String)
  | keyTooLong (len max : ℕ)
  | valueTooLarge (len max : ℕ)
  | outOfMemory
  | aofNotEnabled
  deriving DecidableEq, Repr

def validateKey (key : Bytes) : Except FerrumError Unit :=
  if key.length = 0 then .error (.parseError "key must not be empty")
  else if keyMaxBytes < key.length then .error (.keyTooLong key.length keyMaxBytes)
  else .ok ()

def validateValue (value : Bytes) : Except FerrumError Unit :=
  if valueMaxBytes < value.length then .error (.valueTooLarge value.length valueMaxBytes)
  else .ok ()

/-- `str::parse::<i64>` on the bytes of a string. A byte string that is not UTF-8 has a byte that
is no digit, so it fails here as it does in `from_utf8`. -/
def parseI64 (bs : Bytes) : Option Int64 :=
  (Decimal.toInt? bs).bind fun z =>
    if -2 ^ 63 ≤ z ∧ z < 2 ^ 63 then some (Int64.ofInt z) else none

def i64ToString (n : Int64) : Bytes := Decimal.ofInt n.toInt

def checkedAdd (a b : Int64) : Option Int64 :=
  if -2 ^ 63 ≤ a.toInt + b.toInt ∧ a.toInt + b.toInt < 2 ^ 63 then
    some (Int64.ofInt (a.toInt + b.toInt))
  else none

def saturatingAdd (a b : Int64) : Int64 :=
  Int64.ofInt (max (-2 ^ 63) (min (a.toInt + b.toInt) (2 ^ 63 - 1)))

/-- What one access reads from outside: the nanosecond clock, the minute stamp, and whether the
random draw lies below the counter's increment probability. -/
structure AccessReading where
  ns : ℕ
  minute : UInt16
  coin : Bool
  deriving DecidableEq, Repr

structure ValueEntry where
  data : Bytes
  expireAt : Option ℕ
  lastAccessNs : ℕ
  lfuCounter : UInt8
  lfuMinute : UInt16
  deriving DecidableEq, Repr

def lfuInitVal : UInt8 := 5

def lfuDecayMinutes : UInt16 := 1

def decayedCounter (counter : UInt8) (lastStamp nowStamp decayPeriodMinutes : UInt16) : UInt8 :=
  if decayPeriodMinutes = 0 then counter
  else
    let elapsed := nowStamp - lastStamp
    let ticks := elapsed / decayPeriodMinutes
    UInt8.ofNat (counter.toNat - min ticks.toNat 255)

def probabilisticIncrement (counter : UInt8) (coin : Bool) : UInt8 :=
  if counter = 255 then counter
  else if coin then counter + 1 else counter

namespace ValueEntry

def newWith (r : AccessReading) (data : Bytes) (expireAt : Option ℕ) : ValueEntry :=
  ⟨data, expireAt, r.ns, lfuInitVal, r.minute⟩

def new (r : AccessReading) (data : Bytes) : ValueEntry := newWith r data none

def isExpired (e : ValueEntry) (now : ℕ) : Bool :=
  match e.expireAt with
  | some deadline => decide (deadline ≤ now)
  | none => false

def touch (e : ValueEntry) (r : AccessReading) : ValueEntry :=
  let decayed := decayedCounter e.lfuCounter e.lfuMinute r.minute lfuDecayMinutes
  { e with
    lastAccessNs := r.ns
    lfuCounter := probabilisticIncrement decayed r.coin
    lfuMinute := r.minute }

end ValueEntry

def livePayload (now : ℕ) (e : ValueEntry) : Option Bytes :=
  if e.isExpired now then none else some e.data

abbrev Store := AList fun _ : Key => ValueEntry

def entryBytes (key : Key) (e : ValueEntry) : ℕ := key.length + e.data.length + perEntryOverhead

/-- Converts a deadline to epoch milliseconds against the reading `epochMs` of the wall clock;
`none` when the deadline is not after `now`. -/
def deadlineToEpochMs (deadline now : ℕ) (epochMs : Int64) : Option Int64 :=
  if deadline ≤ now then none
  else some (saturatingAdd epochMs (Int64.ofInt (deadline - now : ℕ)))

structure SweepStats where
  examined : ℕ
  evicted : ℕ
  deriving DecidableEq, Repr

inductive TtlStatus
  | missing
  | noExpire
  | millis (n : Int64)
  deriving DecidableEq, Repr

/-- The remaining lifetime `deadline.saturating_duration_since(now)`, as `as_millis() as i64`. -/
def ttlStatus (now : ℕ) (e : ValueEntry) : TtlStatus :=
  match e.expireAt with
  | none => .noExpire
  | some deadline => .millis (Int64.ofInt (deadline - now : ℕ))

end FerrumKv
