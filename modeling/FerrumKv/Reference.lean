import FerrumKv.Lib.MapFilter
import FerrumKv.View

/-!
# The reference keyspace

What the keyspace is for: a map from keys to values with optional deadlines that drops an entry
exactly when its deadline is reached, and counts hits and misses. There is one clock, no sweeping
and no eviction, and a lookup has one path.
-/

namespace FerrumKv

open KvEngine

structure Ref where
  map : AList fun _ : Key => Bytes × Option ℕ
  hits : ℕ
  misses : ℕ

namespace Ref

def empty : Ref := ⟨∅, 0, 0⟩

def ahead (now : ℕ) : Option ℕ → Bool
  | some d => decide (now < d)
  | none => true

/-- Drops the entries whose deadline is reached. -/
def expire (now : ℕ) (r : Ref) : Ref := { r with map := r.map.filter fun _ p => ahead now p.2 }

def holds (r : Ref) (key : Key) : Bool := (r.map.lookup key).isSome

def value (r : Ref) (key : Key) : Option Bytes := (r.map.lookup key).map (·.1)

def deadline (r : Ref) (key : Key) : Option ℕ := (r.map.lookup key).bind (·.2)

def write (r : Ref) (key value : Bytes) (deadline : Option ℕ) : Ref :=
  { r with map := r.map.insert key (value, deadline) }

def remove (r : Ref) (key : Key) : Ref := { r with map := r.map.erase key }

/-- Counts a lookup of each of the keys. -/
def count (r : Ref) (keys : List Key) : Ref :=
  { r with
    hits := r.hits + keys.countP r.holds
    misses := r.misses + keys.countP fun k => !r.holds k }

def removeAll : List Key → Ref → ℕ × Ref
  | [], r => (0, r)
  | key :: keys, r =>
    let rest := removeAll keys (r.remove key)
    (if r.holds key then rest.1 + 1 else rest.1, rest.2)

def deadlines (r : Ref) : List ℕ := r.map.entries.filterMap (·.2.2)

/-- What a command answers and leaves, once the entries that have expired are dropped. -/
def step (ops : FloatOps) (now : ℕ) (r : Ref) : Command → Except FerrumError Reply × Ref
  | .set key value =>
    match validatePair key value with
    | .error e => (.error e, r)
    | .ok () => (.ok (.value (r.value key)), r.write key value none)
  | .setNx key value =>
    match validatePair key value with
    | .error e => (.error e, r)
    | .ok () =>
      if r.holds key then (.ok (.flag false), r) else (.ok (.flag true), r.write key value none)
  | .mset pairs =>
    match validatePairs pairs with
    | .error e => (.error e, r)
    | .ok () => (.ok .done, pairs.foldl (fun r p => r.write p.1 p.2 none) r)
  | .get key => (.ok (.value (r.value key)), r.count [key])
  | .mget keys => (.ok (.values (keys.map r.value)), r.count keys)
  | .incrBy key delta =>
    match validateKey key with
    | .error e => (.error e, r)
    | .ok () =>
      match (match r.value key with
        | some v => parseI64 v
        | none => some 0) with
      | none => (.error notAnInteger, r)
      | some n =>
        match checkedAdd n delta with
        | none => (.error notAnInteger, r)
        | some n => (.ok (.integer n), r.write key (i64ToString n) (r.deadline key))
  | .incrByFloat key delta =>
    match validateKey key with
    | .error e => (.error e, r)
    | .ok () =>
      match (match r.value key with
        | some v => ops.parse v
        | none => some 0) with
      | none => (.error notAFloat, r)
      | some x =>
        if ops.isFinite (ops.add x delta) = false then (.error notFinite, r)
        else (.ok (.float (ops.add x delta)),
          r.write key (ops.render (ops.add x delta)) (r.deadline key))
  | .append key suffix =>
    match validateKey key with
    | .error e => (.error e, r)
    | .ok () =>
      match validateValue ((r.value key).getD [] ++ suffix) with
      | .error e => (.error e, r)
      | .ok () =>
        (.ok (.count ((r.value key).getD [] ++ suffix).length),
          r.write key ((r.value key).getD [] ++ suffix) (r.deadline key))
  | .del key => (.ok (.flag (r.holds key)), r.remove key)
  | .delMany keys => (.ok (.count (removeAll keys r).1), (removeAll keys r).2)
  | .existsKey key => (.ok (.flag (r.holds key)), r.count [key])
  | .existsMany keys => (.ok (.count (keys.countP r.holds)), r.count keys)
  | .dbsize => (.ok (.count r.map.entries.length), r)
  | .scanKeys pattern => (.ok (.keys (r.map.keys.filter (globMatch pattern))), r)
  | .expireStats =>
    (.ok (.stats r.deadlines.length
      (if r.deadlines.length = 0 then 0
        else min (r.deadlines.map (· - now)).sum (2 ^ 64 - 1) / r.deadlines.length)), r)
  | .strlen key => (.ok (.count ((r.value key).getD []).length), r)
  | .flushdb => (.ok .done, { r with map := ∅ })
  | .expireAtMs key absEpochMs =>
    match r.value key with
    | none => (.ok (.flag false), r)
    | some v =>
      (.ok (.flag true),
        if absEpochMs.toInt ≤ now then r.remove key
        else r.write key v (some absEpochMs.toInt.toNat))
  | .persist key =>
    match r.map.lookup key with
    | some (v, some _) => (.ok (.flag true), r.write key v none)
    | _ => (.ok (.flag false), r)
  | .ttlMs key =>
    (.ok (.ttl (match r.map.lookup key with
      | none => .missing
      | some (_, none) => .noExpire
      | some (_, some d) => .millis (Int64.ofInt (d - now : ℕ)))), r)
  | .memoryUsage key =>
    (.ok (.usage ((r.value key).map fun v => key.length + v.length + perEntryOverhead)), r)
  | .sweepExpired _ => (.ok (.swept ⟨0, 0⟩), r)
  | .setEvictionConfig _ => (.ok .done, r)

def exec (ops : FloatOps) (now : ℕ) (r : Ref) (cmd : Command) : Except FerrumError Reply × Ref :=
  step ops now (r.expire now) cmd

def run (r : Ref) (calls : List TimedCall) : Ref :=
  calls.foldl (fun r c => (exec c.env.float c.t r c.cmd).2) r

end Ref

/-- The same answer. The keys of a scan below its limit may come in any order, and what a sweep
reports is not compared. -/
def SameAnswer : Except FerrumError Reply → Except FerrumError Reply → Prop
  | .ok (.keys ks), .ok (.keys ks') => ks'.length ≤ scanKeysLimit → ks.Perm ks'
  | .ok (.swept _), .ok (.swept _) => True
  | a, b => a = b

def Command.NoCeiling : Command → Prop
  | .setEvictionConfig cfg => cfg.maxMemory = 0
  | _ => True

end FerrumKv
