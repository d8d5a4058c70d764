import FerrumKv.Eviction
import FerrumKv.Lib.IndexMap

/-!
# The stateful eviction indexes

SIEVE's queue with its hand, and the ordered list of AdaptiveClimb. Each keeps its own copy of the
keys it tracks; the engine tells it of inserts, accesses and removals.
-/

namespace FerrumKv

/-! ## SIEVE -/

/-- The values of `queue` are the `visited` bits. -/
structure SieveState where
  queue : IndexMap Key Bool
  hand : ℕ
  scope : EvictionScope

/-- Remaining lifetime, in milliseconds, up to which a key counts as near expiry:
`SIEVE_S_TTL_THRESHOLD * SIEVE_S_HORIZON_MS`. -/
def sieveSDemoteMs : ℕ := 6000

def isNearExpiry (now : ℕ) (e : ValueEntry) : Bool :=
  match e.expireAt with
  | none => false
  | some deadline => decide (deadline ≤ now ∨ deadline - now ≤ sieveSDemoteMs)

namespace SieveState

def new : SieveState := ⟨IndexMap.empty, 0, .allKeys⟩

def observeRemove (s : SieveState) (key : Key) : SieveState :=
  match s.queue.indexOf? key with
  | some idx =>
    let hand := if idx < s.hand then s.hand - 1 else s.hand
    let queue := s.queue.shiftRemove key
    { s with queue := queue, hand := if queue.length ≤ hand then 0 else hand }
  | none => s

def observeInsert (s : SieveState) (key : Key) (hasTtl : Bool) : SieveState :=
  if s.scope = .volatile ∧ hasTtl = false then s.observeRemove key
  else { s with queue := s.queue.insert key false }

def observeAccess (s : SieveState) (key : Key) : SieveState :=
  { s with queue := s.queue.modify key fun _ => true }

/-- Rebuilds the queue from the map's entries, in iteration order. -/
def rebuild (entries : List (Σ _ : Key, ValueEntry)) (scope : EvictionScope) : SieveState where
  queue := entries.foldl (fun q e => if scope.admits e.2 then q.insert e.1 false else q)
    IndexMap.empty
  hand := 0
  scope := scope

def clear (s : SieveState) : SieveState := { s with queue := IndexMap.empty, hand := 0 }

/-- Whether a queued key is stored and in scope. -/
def eligible (store : Store) (scope : EvictionScope) (key : Key) : Bool :=
  match store.lookup key with
  | none => false
  | some e => scope.admits e

/-- The sweep of `evict_one`, with the number of looks that are left. `demote` is the near-expiry
test where the policy is TTL-aware, and never holds otherwise. -/
def evictLoop (store : Store) (scope : EvictionScope) (demote : ValueEntry → Bool) :
    ℕ → SieveState → Option Key × SieveState
  | 0, s => (none, s)
  | looks + 1, s =>
    let s := if s.queue.length ≤ s.hand then { s with hand := 0 } else s
    match s.queue.getIndex? s.hand with
    | none => (none, s)
    | some (key, visited) =>
      match store.lookup key with
      | none => evictLoop store scope demote looks { s with queue := s.queue.shiftRemove key }
      | some entry =>
        if scope.admits entry = false then
          evictLoop store scope demote looks { s with queue := s.queue.shiftRemove key }
        else if visited = false ∨ demote entry = true then
          let queue := s.queue.shiftRemove key
          (some key, { s with queue := queue, hand := if queue.length ≤ s.hand then 0 else s.hand })
        else
          evictLoop store scope demote looks
            { s with queue := s.queue.modify key fun _ => false, hand := s.hand + 1 }

def evictOne (s : SieveState) (store : Store) (scope : EvictionScope)
    (demote : ValueEntry → Bool) : Option Key × SieveState :=
  if s.queue.length = 0 then (none, s)
  else evictLoop store scope demote (s.queue.length + 1) s

end SieveState

/-! ## AdaptiveClimb -/

/-- The queue runs from the most to the least recently used key. -/
structure AdaptiveClimbState where
  queue : IndexMap Key Unit
  jump : ℕ
  scope : EvictionScope

namespace AdaptiveClimbState

def new : AdaptiveClimbState := ⟨IndexMap.empty, 1, .allKeys⟩

def clampJump (s : AdaptiveClimbState) : AdaptiveClimbState :=
  { s with jump := if s.queue.length = 0 then 1 else max 1 (min s.jump s.queue.length) }

def observeRemove (s : AdaptiveClimbState) (key : Key) : AdaptiveClimbState :=
  clampJump { s with queue := s.queue.shiftRemove key }

def observeInsert (s : AdaptiveClimbState) (key : Key) (hasTtl : Bool) : AdaptiveClimbState :=
  if s.scope = .volatile ∧ hasTtl = false then s.observeRemove key
  else
    let s := clampJump { s with queue := s.queue.shiftRemove key }
    let len := s.queue.length
    let jump := if len = 0 then 1 else if s.jump < len then s.jump + 1 else s.jump
    let pos := min (len - jump) len
    { s with jump := jump, queue := s.queue.insertBefore pos key () }

def observeAccess (s : AdaptiveClimbState) (key : Key) : AdaptiveClimbState :=
  match s.queue.indexOf? key with
  | none => s
  | some p =>
    let jump := if 1 < s.jump then s.jump - 1 else s.jump
    let target := p - jump
    { s with
      jump := jump
      queue := if 0 < p ∧ target < p then s.queue.moveIndex p target else s.queue }

def rebuild (entries : List (Σ _ : Key, ValueEntry)) (scope : EvictionScope) :
    AdaptiveClimbState where
  queue := entries.foldl
    (fun q e => if scope.admits e.2 then q.insertBefore q.length e.1 () else q) IndexMap.empty
  jump := 1
  scope := scope

def clear (s : AdaptiveClimbState) : AdaptiveClimbState :=
  { s with queue := IndexMap.empty, jump := 1 }

/-- The eligible key closest to the end of the list; it is taken out of the list. -/
def evictOne (s : AdaptiveClimbState) (store : Store) (scope : EvictionScope) :
    Option Key × AdaptiveClimbState :=
  match s.queue.keys.reverse.find? (SieveState.eligible store scope) with
  | some key => (some key, { s with queue := s.queue.shiftRemove key })
  | none => (none, s)

end AdaptiveClimbState

end FerrumKv
