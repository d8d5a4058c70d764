import FerrumKv.Parser

/-!
# Configuration values

The names of the eviction policies, numbers as a client writes them, and byte sizes with a suffix.
-/

namespace FerrumKv

namespace EvictionPolicy

def name : EvictionPolicy → String
  | .noEviction => "noeviction"
  | .allKeysLru => "allkeys-lru"
  | .volatileLru => "volatile-lru"
  | .allKeysLfu => "allkeys-lfu"
  | .volatileLfu => "volatile-lfu"
  | .allKeysRandom => "allkeys-random"
  | .volatileRandom => "volatile-random"
  | .volatileTtl => "volatile-ttl"
  | .allKeysAhe => "allkeys-ahe"
  | .volatileAhe => "volatile-ahe"
  | .allKeysSieve => "allkeys-sieve"
  | .volatileSieve => "volatile-sieve"
  | .allKeysSieveS => "allkeys-sieves"
  | .volatileSieveS => "volatile-sieves"
  | .allKeysAdaptiveClimb => "allkeys-adaptiveclimb"
  | .volatileAdaptiveClimb => "volatile-adaptiveclimb"

def all : List EvictionPolicy :=
  [.noEviction, .allKeysLru, .volatileLru, .allKeysLfu, .volatileLfu, .allKeysRandom,
    .volatileRandom, .volatileTtl, .allKeysAhe, .volatileAhe, .allKeysSieve, .volatileSieve,
    .allKeysSieveS, .volatileSieveS, .allKeysAdaptiveClimb, .volatileAdaptiveClimb]

/-- The policy of a lower-cased name; every name in the table is the policy's own. -/
def fromName (bytes : Bytes) : Option EvictionPolicy :=
  all.find? fun p => decide (text p.name = bytes)

end EvictionPolicy

def asciiLowercase (bytes : Bytes) : Bytes :=
  bytes.map fun b => if 65 ≤ b ∧ b ≤ 90 then b + 32 else b

def eqIgnoreAsciiCase (a b : Bytes) : Bool :=
  decide (Protocol.asciiUppercase a = Protocol.asciiUppercase b)

/-- `str::parse::<u64>`, which takes a plus sign; `usize` has the same range. -/
def parseU64 (bytes : Bytes) : Option ℕ :=
  (Decimal.toNat? (if bytes.head? = some 43 then bytes.tail else bytes)).bind fun n =>
    if n < 2 ^ 64 then some n else none

inductive BytesError
  | notASize
  | overflows
  deriving DecidableEq, Repr

def stripSuffix (suffix bytes : Bytes) : Option Bytes :=
  if suffix.isSuffixOf bytes then some (bytes.take (bytes.length - suffix.length)) else none

/-- The suffixes of a byte size, in the order they are tried. -/
def sizeSuffixes : List (String × ℕ) :=
  [("gb", 1024 * 1024 * 1024), ("mb", 1024 * 1024), ("kb", 1024), ("g", 1024 * 1024 * 1024),
    ("m", 1024 * 1024), ("k", 1024), ("b", 1)]

/-- The number in front of the first suffix that fits, and the factor it stands for. -/
def splitSize (lower : Bytes) : Bytes × ℕ :=
  (sizeSuffixes.findSome? fun s => (stripSuffix (text s.1) lower).map fun num => (num, s.2)).getD
    (lower, 1)

def parseBytes (raw : Bytes) : Except BytesError ℕ :=
  let size := splitSize (asciiLowercase (Utf8.trim raw))
  match parseU64 (Utf8.trim size.1) with
  | none => .error .notASize
  | some num => if num * size.2 < 2 ^ 64 then .ok (num * size.2) else .error .overflows

/-- The message of `parse_bytes`, which shows the text it was given. -/
def BytesError.message (name : String) (raw : Bytes) : BytesError → Bytes
  | .notASize => text "invalid " ++ text name ++ text ": '" ++ raw ++ text "' is not a byte size"
  | .overflows => text "invalid " ++ text name ++ text ": '" ++ raw ++ text "' overflows u64"

end FerrumKv
