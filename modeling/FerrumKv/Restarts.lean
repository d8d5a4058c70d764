import FerrumKv.Reference

/-!
# Lifetimes

A server that is stopped and started again: between two commands the process may end, and the next
one builds its engine by replaying the log, to which it goes on appending.
-/

namespace FerrumKv

open KvEngine

/-- A command, or a restart during which all clocks read `t`. -/
inductive LifeStep
  | call (c : TimedCall)
  | restart (t : ℕ) (env : Env) (clock : env.At t)

namespace LifeStep

def time : LifeStep → ℕ
  | .call c => c.t
  | .restart t _ _ => t

def NoCeiling : LifeStep → Prop
  | .call c => c.cmd.NoCeiling
  | .restart _ _ _ => True

end LifeStep

/-- `build_engine` on the log of the process before: an engine into which it is replayed, with a
writer at its end. A log that cannot be replayed keeps the server from starting. -/
def restart (env : Env) (s : KvEngine) : Option KvEngine :=
  match replay env (encodeLog s.log) .new with
  | .ok r => some { r.engine with aof := some s.log }
  | .error _ => none

/-- The answers of the commands over all lifetimes, unless a restart fails. -/
def lifeAnswers : KvEngine → List LifeStep → Option (List (Except FerrumError Reply))
  | _, [] => some []
  | s, .call c :: steps =>
    (lifeAnswers (exec c.env s c.cmd).2 steps).map ((exec c.env s c.cmd).1 :: ·)
  | s, .restart _ env _ :: steps => (restart env s).bind fun s => lifeAnswers s steps

/-- The answers of a reference that knows nothing of restarts. -/
def Ref.answers : Ref → List LifeStep → List (Except FerrumError Reply)
  | _, [] => []
  | r, .call c :: steps =>
    (r.exec c.env.float c.t c.cmd).1 :: Ref.answers (r.exec c.env.float c.t c.cmd).2 steps
  | r, .restart _ _ _ :: steps => Ref.answers r steps

/-- Whether the command at clock `t` leaves alone every deadline that has passed by `T`: it does not
replace one by a deadline after `T`, nor clear it. -/
def Ref.StepSafe (T t : ℕ) (r : Ref) : Command → Prop
  | .expireAtMs key absEpochMs =>
    ∀ v d, (r.expire t).map.lookup key = some (v, some d) → d ≤ T → absEpochMs.toInt ≤ T
  | .persist key => ∀ v d, (r.expire t).map.lookup key = some (v, some d) → T < d
  | _ => True

/-- No command replaces or clears a deadline that will have passed at a later restart. -/
def RestartSafe : Ref → List LifeStep → Prop
  | _, [] => True
  | r, .call c :: steps =>
    (∀ T env clock, .restart T env clock ∈ steps → r.StepSafe T c.t c.cmd)
      ∧ RestartSafe (r.exec c.env.float c.t c.cmd).2 steps
  | r, .restart _ _ _ :: steps => RestartSafe r steps

end FerrumKv
