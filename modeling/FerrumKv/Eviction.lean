import FerrumKv.Entry

/-!
# Eviction policies and sampled victims

The policy table, the candidates a sampled policy looks at, and the candidate it picks. The
floating-point score of the adaptive hybrid policy enters as a function into `ℤ`: its values are
finite, so only their order matters.
-/

namespace FerrumKv

inductive EvictionScope
  | allKeys
  | volatile
  deriving DecidableEq, Repr

inductive EvictionPolicy
  | noEviction
  | allKeysLru
  | volatileLru
  | allKeysLfu
  | volatileLfu
  | allKeysRandom
  | volatileRandom
  | volatileTtl
  | allKeysAhe
  | volatileAhe
  | allKeysSieve
  | volatileSieve
  | allKeysSieveS
  | volatileSieveS
  | allKeysAdaptiveClimb
  | volatileAdaptiveClimb
  deriving DecidableEq, Repr

inductive IndexKind
  | none
  | sieveAll
  | sieveVolatile
  | sieveSAll
  | sieveSVolatile
  | acAll
  | acVolatile
  deriving DecidableEq, Repr

namespace IndexKind

def isSieve : IndexKind → Bool
  | .sieveAll | .sieveVolatile | .sieveSAll | .sieveSVolatile => true
  | _ => false

def isSieveTtl : IndexKind → Bool
  | .sieveSAll | .sieveSVolatile => true
  | _ => false

def isAc : IndexKind → Bool
  | .acAll | .acVolatile => true
  | _ => false

end IndexKind

namespace EvictionPolicy

def scope : EvictionPolicy → EvictionScope
  | .noEviction => .allKeys
  | .allKeysLru | .allKeysLfu | .allKeysRandom | .allKeysAhe | .allKeysSieve | .allKeysSieveS
  | .allKeysAdaptiveClimb => .allKeys
  | .volatileLru | .volatileLfu | .volatileRandom | .volatileTtl | .volatileAhe | .volatileSieve
  | .volatileSieveS | .volatileAdaptiveClimb => .volatile

def indexKind : EvictionPolicy → IndexKind
  | .allKeysSieve => .sieveAll
  | .volatileSieve => .sieveVolatile
  | .allKeysSieveS => .sieveSAll
  | .volatileSieveS => .sieveSVolatile
  | .allKeysAdaptiveClimb => .acAll
  | .volatileAdaptiveClimb => .acVolatile
  | _ => .none

end EvictionPolicy

structure EvictionConfig where
  maxMemory : ℕ := 0
  policy : EvictionPolicy := .noEviction
  samples : ℕ := 5
  deriving DecidableEq, Repr

/-- Whether an entry is a candidate under the scope. -/
def EvictionScope.admits (scope : EvictionScope) (e : ValueEntry) : Bool :=
  match scope with
  | .allKeys => true
  | .volatile => e.expireAt.isSome

structure Candidate where
  key : Key
  lastAccess : ℕ
  expireAt : Option ℕ
  lfuCounter : UInt8
  deriving DecidableEq, Repr

/-- Up to the given number of candidates in scope, in the map's iteration order. Whether room for
that number can be reserved is a matter of the panics (`KvEngine.sampleOps`). -/
def sampleCandidates (scope : EvictionScope) :
    ℕ → List (Σ _ : Key, ValueEntry) → List Candidate
  | 0, _ => []
  | _ + 1, [] => []
  | n + 1, ⟨key, entry⟩ :: rest =>
    if scope = .volatile ∧ entry.expireAt = none then sampleCandidates scope (n + 1) rest
    else ⟨key, entry.lastAccessNs, entry.expireAt, entry.lfuCounter⟩
      :: sampleCandidates scope n rest

/-- Folds a list to one element; a later one replaces an earlier one where `beats` holds of the
two in this order. -/
def pickBy {α : Type*} (beats : α → α → Bool) : List α → Option α
  | [] => none
  | a :: l =>
    match pickBy beats l with
    | none => some a
    | some b => if beats b a then some b else some a

/-- The candidate with the highest score, the last one among equals, as `max_by` takes it. -/
def pickVictimAhe (eps : Candidate → ℤ) (candidates : List Candidate) : Option Candidate :=
  pickBy (fun b a => decide (eps a ≤ eps b)) candidates

/-- The least desirable candidate, the first one among equals, as `min_by_key` takes it. -/
def pickVictim (policy : EvictionPolicy) (candidates : List Candidate) : Option Candidate :=
  match policy with
  | .allKeysRandom | .volatileRandom => candidates.head?
  | .allKeysLru | .volatileLru => pickBy (fun b a => decide (b.lastAccess < a.lastAccess)) candidates
  | .allKeysLfu | .volatileLfu =>
    pickBy (fun b a => decide (b.lfuCounter < a.lfuCounter
      ∨ b.lfuCounter = a.lfuCounter ∧ b.lastAccess < a.lastAccess)) candidates
  | .volatileTtl =>
    pickBy (fun b a => decide (b.expireAt.getD 0 < a.expireAt.getD 0))
      (candidates.filter (·.expireAt.isSome))
  | _ => none

end FerrumKv
