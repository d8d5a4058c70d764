import FerrumKv.Commands
import Mathlib.Data.Finset.Basic
import Mathlib.Logic.Function.Basic

/-!
# Changing the eviction configuration

The engine and the threads that change its configuration or run commands, as a system of interleaved
steps. A `CONFIG SET` reads the configuration, changes one parameter and calls `set_eviction_config`
with the whole; that call goes from one shared access to the next. A command does the elementary
deeds of all commands, with the configuration that it read.
-/

namespace FerrumKv

/-- A change of one parameter, as `CONFIG SET` makes it, or of the whole configuration. -/
inductive Change
  | maxMemory (bytes : ℕ)
  | policy (p : EvictionPolicy)
  | samples (n : ℕ)
  | whole (cfg : EvictionConfig)
  deriving DecidableEq, Repr

namespace Change

def apply : Change → EvictionConfig → EvictionConfig
  | .maxMemory bytes, cfg => { cfg with maxMemory := bytes }
  | .policy p, cfg => { cfg with policy := p }
  | .samples n, cfg => { cfg with samples := n }
  | .whole cfg, _ => cfg

/-- Whether the first change leaves nothing of the second one. -/
def overwrites : Change → Change → Bool
  | .whole _, _ => true
  | .maxMemory _, .maxMemory _ => true
  | .policy _, .policy _ => true
  | .samples _, .samples _ => true
  | _, _ => false

def independent : Change → Change → Bool
  | .whole _, _ => false
  | _, .whole _ => false
  | c, d => !c.overwrites d

end Change

/-- What a command does under the exclusive lock is a sequence of these. -/
inductive Deed
  | count (hits misses evicted expired cursor : ℕ)
  | touch (r : AccessReading) (key : Key)
  | remove (key : Key)
  | forget (key : Key)
  | evict (env : Env)
  | write (records : List AofRecord) (key : Key) (entry : ValueEntry)
  | flush
  | deadline (env : Env) (key : Key) (absEpochMs : Int64)
  | persist (env : Env) (key : Key)
  | usage (env : Env) (key : Key)

def Deed.apply (s : KvEngine) : Deed → KvEngine
  | .count hits misses evicted expired cursor =>
    { s with
      hits := hits, misses := misses, evictedKeys := evicted, expiredKeys := expired
      sweepCursor := cursor }
  | .touch r key => s.touchAccess r key
  | .remove key => (s.trackRemove key).appendAof [.del key]
  | .forget key => s.trackRemove key
  | .evict env =>
    match s.selectVictim env with
    | (some victim, s) => s.evictVictim victim
    | (none, s) => s
  | .write records key entry => (s.appendAof records).trackInsert key entry
  | .flush => s.clear
  | .deadline env key absEpochMs => (s.expireAtMs env key absEpochMs).2
  | .persist env key => (s.persist env key).2
  | .usage env key => (s.memoryUsage env key).2

/-! ## The state -/

/-- Where a thread stands. In `set_eviction_config`: called, the kinds found to differ, the shared
lock taken, the first index done, the second index done, about to install. In a command under the
shared lock: between two touches, the entry touched, the kind loaded for the SIEVE queue, that queue
told, the kind loaded for the AdaptiveClimb list. In a command under the exclusive lock: with the
configuration it read. -/
inductive ThreadPc
  | idle
  | called
  | switching
  | locked
  | rebuilt
  | cleared
  | installing
  | reading
  | touched (key : Key)
  | sieveSeen (key : Key) (kind : IndexKind)
  | sieveTold (key : Key)
  | acSeen (key : Key) (kind : IndexKind)
  | writing (cfg : EvictionConfig)
  deriving DecidableEq, Repr

/-- A thread, with the change it was asked for and the configuration it is about to install. -/
structure ConfigThread where
  pc : ThreadPc := .idle
  change : Change := .whole {}
  cfg : EvictionConfig := {}

/-- The engine with its locks and threads. An index is owned only across steps. What was asked for
and what was installed is history that no step reads. -/
structure ConfigSystem where
  mem : KvEngine
  thread : ℕ → ConfigThread
  writer : Option ℕ
  readers : Finset ℕ
  sieveOwner : Option ℕ
  acOwner : Option ℕ
  asked : List Change
  installed : List Change

namespace ConfigSystem

def start (mem : KvEngine) : ConfigSystem where
  mem := mem
  thread _ := {}
  writer := none
  readers := ∅
  sieveOwner := none
  acOwner := none
  asked := []
  installed := []

def setThread (s : ConfigSystem) (c : ℕ) (t : ConfigThread) : ConfigSystem :=
  { s with thread := Function.update s.thread c t }

def setPc (s : ConfigSystem) (c : ℕ) (pc : ThreadPc) : ConfigSystem :=
  s.setThread c { s.thread c with pc := pc }

/-- The kind of index that the thread's configuration asks for. -/
def newKind (s : ConfigSystem) (c : ℕ) : IndexKind := (s.thread c).cfg.policy.indexKind

/-! ## Steps -/

/-- The first index of `set_eviction_config`: the one that the new kind uses is rebuilt, and its
lock kept; where the kind uses none the SIEVE queue is cleared. -/
def rebuildFirst (s : ConfigSystem) (c : ℕ) (env : Env) : ConfigSystem :=
  if (s.newKind c).isSieve then
    if s.sieveOwner = none then
      { s.setPc c .rebuilt with
        mem := { s.mem with
          sieve := SieveState.rebuild (env.iter s.mem.store) (s.thread c).cfg.policy.scope }
        sieveOwner := some c }
    else s
  else if (s.newKind c).isAc then
    if s.acOwner = none then
      { s.setPc c .rebuilt with
        mem := { s.mem with
          ac := AdaptiveClimbState.rebuild (env.iter s.mem.store) (s.thread c).cfg.policy.scope }
        acOwner := some c }
    else s
  else if s.sieveOwner = none then
    { s.setPc c .rebuilt with mem := { s.mem with sieve := s.mem.sieve.clear } }
  else s

/-- The other index is cleared, and both are given back. -/
def clearSecond (s : ConfigSystem) (c : ℕ) : ConfigSystem :=
  if (s.newKind c).isSieve then
    if s.acOwner = none then
      { s.setPc c .cleared with mem := { s.mem with ac := s.mem.ac.clear }, sieveOwner := none }
    else s
  else if (s.newKind c).isAc then
    if s.sieveOwner = none then
      { s.setPc c .cleared with mem := { s.mem with sieve := s.mem.sieve.clear }, acOwner := none }
    else s
  else if s.acOwner = none then
    { s.setPc c .cleared with mem := { s.mem with ac := s.mem.ac.clear } }
  else s

/-- The start of `touch_access`. -/
def touchEntry (s : ConfigSystem) (c : ℕ) (r : AccessReading) (key : Key) : ConfigSystem :=
  match s.mem.store.lookup key with
  | some entry =>
    { s.setPc c (.touched key) with
      mem := { s.mem with store := s.mem.store.insert key (entry.touch r) } }
  | none => s

/-- Tells an index of an access where the kind that was loaded before uses it. -/
def tellIndex (s : ConfigSystem) (c : ℕ) : ConfigSystem :=
  match (s.thread c).pc with
  | .sieveSeen key kind =>
    if kind.isSieve = false then s.setPc c (.sieveTold key)
    else if s.sieveOwner = none then
      { s.setPc c (.sieveTold key) with
        mem := { s.mem with sieve := s.mem.sieve.observeAccess key } }
    else s
  | .acSeen key kind =>
    if kind.isAc = false then s.setPc c .reading
    else if s.acOwner = none then
      { s.setPc c .reading with mem := { s.mem with ac := s.mem.ac.observeAccess key } }
    else s
  | _ => s

/-- A deed with the configuration that the command read. -/
def perform (s : ConfigSystem) (cfg : EvictionConfig) (d : Deed) : ConfigSystem :=
  { s with mem := { d.apply { s.mem with eviction := cfg } with eviction := s.mem.eviction } }

inductive Event
  | request (c : ℕ) (change : Change)
  | load (c : ℕ)
  | lock (c : ℕ)
  | rebuild (c : ℕ) (env : Env)
  | clear (c : ℕ)
  | publish (c : ℕ)
  | install (c : ℕ)
  | share (c : ℕ)
  | touch (c : ℕ) (r : AccessReading) (key : Key)
  | peek (c : ℕ)
  | tell (c : ℕ)
  | unshare (c : ℕ)
  | begin (c : ℕ)
  | copy (c : ℕ)
  | deed (c : ℕ) (d : Deed)
  | finish (c : ℕ)

/-- One step. A thread that is not where the step starts, or that a lock keeps out, does not move.
The shared lock is given back with the publication of the kind, which no later access precedes. -/
def step (s : ConfigSystem) : Event → ConfigSystem
  | .request c change =>
    if (s.thread c).pc = .idle then
      { s.setThread c ⟨.called, change, change.apply s.mem.eviction⟩ with
        asked := s.asked ++ [change] }
    else s
  | .load c =>
    if (s.thread c).pc = .called then
      s.setPc c (if s.newKind c = s.mem.indexKind then .installing else .switching)
    else s
  | .lock c =>
    if (s.thread c).pc = .switching ∧ s.writer = none then
      { s.setPc c .locked with readers := insert c s.readers }
    else s
  | .rebuild c env => if (s.thread c).pc = .locked then s.rebuildFirst c env else s
  | .clear c => if (s.thread c).pc = .rebuilt then s.clearSecond c else s
  | .publish c =>
    if (s.thread c).pc = .cleared then
      { s.setPc c .installing with
        mem := { s.mem with indexKind := s.newKind c }, readers := s.readers.erase c }
    else s
  | .install c =>
    if (s.thread c).pc = .installing then
      { s.setPc c .idle with
        mem := { s.mem with eviction := (s.thread c).cfg }
        installed := s.installed ++ [(s.thread c).change] }
    else s
  | .share c =>
    if (s.thread c).pc = .idle ∧ s.writer = none then
      { s.setPc c .reading with readers := insert c s.readers }
    else s
  | .touch c r key => if (s.thread c).pc = .reading then s.touchEntry c r key else s
  | .peek c =>
    match (s.thread c).pc with
    | .touched key => s.setPc c (.sieveSeen key s.mem.indexKind)
    | .sieveTold key => s.setPc c (.acSeen key s.mem.indexKind)
    | _ => s
  | .tell c => s.tellIndex c
  | .unshare c =>
    if (s.thread c).pc = .reading then
      { s.setPc c .idle with readers := s.readers.erase c }
    else s
  | .begin c =>
    if (s.thread c).pc = .idle ∧ s.writer = none ∧ s.readers = ∅ then
      { s.setPc c (.writing s.mem.eviction) with writer := some c }
    else s
  | .copy c =>
    match (s.thread c).pc with
    | .writing _ => s.setPc c (.writing s.mem.eviction)
    | _ => s
  | .deed c d =>
    match (s.thread c).pc with
    | .writing cfg => s.perform cfg d
    | _ => s
  | .finish c =>
    match (s.thread c).pc with
    | .writing _ => { s.setPc c .idle with writer := none }
    | _ => s

def run (s : ConfigSystem) (events : List Event) : ConfigSystem := events.foldl step s

/-- The thread is in `set_eviction_config`, past its first access. -/
def InCall : ThreadPc → Prop
  | .switching | .locked | .rebuilt | .cleared | .installing => True
  | _ => False

/-- The thread is to install a configuration. -/
def Open (pc : ThreadPc) : Prop := pc = .called ∨ InCall pc

/-- The step installs no change while another thread is to install a configuration that it computed
for another parameter. -/
def Undisturbed (s : ConfigSystem) : Event → Prop
  | .install c =>
    (s.thread c).pc = .installing → ∀ c', c' ≠ c → Open (s.thread c').pc →
      (s.thread c').change.overwrites (s.thread c).change = true
  | _ => True

/-- The step begins no call of `set_eviction_config` while another one is in progress. -/
def Apart (s : ConfigSystem) : Event → Prop
  | .load c => (s.thread c).pc = .called → ∀ c', ¬ InCall (s.thread c').pc
  | _ => True

end ConfigSystem

end FerrumKv
