import FerrumKv.Indexes

/-!
# Histories of the eviction indexes

The calls the engine makes on SIEVE's queue and on AdaptiveClimb's list, as operations, and the
states that any history of them reaches from `new`.
-/

namespace FerrumKv

inductive SieveOp where
  | insert (key : Key) (hasTtl : Bool)
  | access (key : Key)
  | remove (key : Key)
  | rebuild (entries : List (Σ _ : Key, ValueEntry)) (scope : EvictionScope)
  | clear
  | evict (store : Store) (scope : EvictionScope) (ttlAware : Bool) (near : ValueEntry → Bool)

/-- Whether the operation builds the index anew from the keyspace. -/
def SieveOp.rebuilds : SieveOp → Bool
  | rebuild _ _ => true
  | _ => false

namespace SieveState

def step (s : SieveState) : SieveOp → SieveState
  | .insert key hasTtl => s.observeInsert key hasTtl
  | .access key => s.observeAccess key
  | .remove key => s.observeRemove key
  | .rebuild entries scope => rebuild entries scope
  | .clear => s.clear
  | .evict store scope ttlAware near =>
    (s.evictOne store scope fun entry => ttlAware && near entry).2

def run (ops : List SieveOp) : SieveState := ops.foldl step new

def handKey (s : SieveState) : Option Key := s.queue.keys[s.hand]?

end SieveState

/-- Eviction goes with the removal of the victim from the map, which is observed. -/
inductive AdaptiveClimbOp where
  | insert (key : Key) (hasTtl : Bool)
  | access (key : Key)
  | remove (key : Key)
  | rebuild (entries : List (Σ _ : Key, ValueEntry)) (scope : EvictionScope)
  | clear
  | evict (store : Store) (scope : EvictionScope)

namespace AdaptiveClimbState

def step (s : AdaptiveClimbState) : AdaptiveClimbOp → AdaptiveClimbState
  | .insert key hasTtl => s.observeInsert key hasTtl
  | .access key => s.observeAccess key
  | .remove key => s.observeRemove key
  | .rebuild entries scope => rebuild entries scope
  | .clear => s.clear
  | .evict store scope =>
    match s.evictOne store scope with
    | (some key, s) => s.observeRemove key
    | (none, s) => s

def run (ops : List AdaptiveClimbOp) : AdaptiveClimbState := ops.foldl step new

/-- The key that an eviction picks. -/
def victim? (s : AdaptiveClimbState) : AdaptiveClimbOp → Option Key
  | .evict store scope => (s.evictOne store scope).1
  | _ => none

/-- The keys a history has left on the list, and the scope of its last rebuild, as a set and without
the list's order. -/
structure Tracking where
  keys : Set Key
  scope : EvictionScope

namespace Tracking

def start : Tracking := ⟨∅, .allKeys⟩

def step (t : Tracking) (victim : Option Key) : AdaptiveClimbOp → Tracking
  | .insert key hasTtl =>
    if t.scope = .volatile ∧ hasTtl = false then { t with keys := t.keys \ {key} }
    else { t with keys := insert key t.keys }
  | .access _ => t
  | .remove key => { t with keys := t.keys \ {key} }
  | .rebuild entries scope => ⟨{x | ∃ e, ⟨x, e⟩ ∈ entries ∧ scope.admits e = true}, scope⟩
  | .clear => { t with keys := ∅ }
  | .evict _ _ => { t with keys := t.keys \ {x | victim = some x} }

/-- What a history tracks; only the victims are taken from the list. -/
def after (ops : List AdaptiveClimbOp) : Tracking :=
  (ops.foldl (fun (p : AdaptiveClimbState × Tracking) op =>
    (p.1.step op, p.2.step (p.1.victim? op) op)) (new, start)).2

end Tracking

end AdaptiveClimbState

end FerrumKv
