import FerrumKv.Proofs.Poisoning
import FerrumKv.Proofs.Server

/-!
# The replies of a pipeline

A command that does not panic appends exactly one value, unless `CONFIG SET` shows a line break of
its arguments in an error, and the replies to a pipeline are split into values in one way. In the
runs that poison no lock, every request has its reply (`one_value_per_command`). With the line break
the one reply reads as two (`config_set_two_values`).
-/

namespace FerrumKv.Server

open Resp (Value Line)
open Encoder

variable {origin : ℕ} {s : Server} {r : Reading} {version : ProtocolVersion}
  {cmd : Protocol.Command}

theorem attempt_of_not_quiet (h : ¬ Quiet ((s.announce r cmd).dispatchSites origin r cmd)) :
    (s.attempt origin r version cmd).1 = none := by
  unfold attempt
  simp only []
  rcases hx : ((s.announce r cmd).dispatchSites origin r cmd).find? Site.panics with _ | x
  · refine absurd (fun x hmem => ?_) h
    have hpanics := List.find?_eq_none.1 hx x hmem
    simpa [Site.panics] using hpanics
  · rfl

theorem attempt_eq_some {out : Bytes} (h : (s.attempt origin r version cmd).1 = some out) :
    out = (s.executeCommand r version cmd).1 := by
  unfold attempt at h
  simp only [] at h
  split at h
  · cases h
  · split_ifs at h
    exact (Option.some.inj h).symm

/-- The replies to requests that are served one after the other; `none` when one of them panics. -/
def replies (origin : ℕ) : Server → List Request → Option (List Bytes)
  | _, [] => some []
  | s, q :: reqs =>
    match s.attempt origin q.reading q.version q.cmd with
    | (none, _) => none
    | (some out, s) => (replies origin s reqs).map (out :: ·)

/-- One reply for each request, and each of them a value. -/
theorem replies_value : ∀ {s : Server} {reqs : List Request} {outs : List Bytes},
    (∀ q ∈ reqs, q.version = version ∧ Protocol.Produced q.reading.env.float q.cmd
      ∧ ¬ EchoesLineBreak q.cmd) →
    replies origin s reqs = some outs →
      outs.length = reqs.length ∧ ∀ out ∈ outs, Value version.typed out
  | s, [], outs, _, h => by
    cases h
    simp
  | s, q :: reqs, outs, hq, h => by
    obtain ⟨hversion, hprod, hecho⟩ := hq q List.mem_cons_self
    unfold replies at h
    rcases ha : s.attempt origin q.reading q.version q.cmd with ⟨_ | out, t⟩ <;> rw [ha] at h
    · cases h
    · obtain ⟨rest, hrest, rfl⟩ := Option.map_eq_some_iff.1 h
      obtain ⟨hlen, hvalues⟩ := replies_value (fun p hp => hq p (List.mem_cons_of_mem _ hp)) hrest
      have hout := attempt_eq_some (congrArg Prod.fst ha)
      have hvalue := (executeCommand_value_iff s q.reading q.version hprod).2 hecho
      rw [hversion] at hvalue hout
      exact ⟨by simp [hlen], List.forall_mem_cons.2 ⟨hout ▸ hvalue, hvalues⟩⟩

/-- In a calm run no request goes without a reply. -/
theorem replies_of_ready (ho : origin < 998 * 2 ^ 63) : ∀ {reqs : List Request} {now load : ℕ}
    {s : Server}, Ready now load s → Calm now reqs →
      load + (reqs.map Request.load).sum ≤ keyLimit → ∃ outs, replies origin s reqs = some outs
  | [], _, _, _, _, _, _ => ⟨[], rfl⟩
  | q :: reqs, now, load, s, hready, hcalm, hload => by
    rw [List.map_cons, List.sum_cons] at hload
    have hq : q ∈ q :: reqs := List.mem_cons_self
    obtain ⟨hsome, hnext⟩ := hready.step ho (hcalm.inRange q hq) (hcalm.produced q hq)
      (hcalm.samples q hq) (hcalm.later q hq).1 (hcalm.later q hq).2 (by omega)
    obtain ⟨outs, houts⟩ := replies_of_ready ho hnext hcalm.tail (by omega)
    rw [Server.step] at houts
    unfold replies
    rcases ha : s.attempt origin q.reading q.version q.cmd with ⟨_ | out, t⟩ <;>
      rw [ha] at hsome houts
    · exact absurd rfl hsome
    · exact ⟨out :: outs, by simp only [houts, Option.map_some]⟩

/-- Every command that does not panic in the state it finds is answered with exactly one value of
the connection's version, exactly if its reply shows no line break of its arguments; the replies to
a pipeline of such commands can be split into values in one way only, one for each request; and a
pipeline that runs calmly from a fresh engine has all its replies. -/
theorem one_value_per_command (origin : ℕ) (version : ProtocolVersion) :
    (∀ (s : Server) (r : Reading) (cmd : Protocol.Command), Protocol.Produced r.env.float cmd →
      s.slowlogSeq + 1 < 2 ^ 64 →
        ((∃ out, (s.attempt origin r version cmd).1 = some out ∧ Value version.typed out)
          ↔ (∀ x ∈ (s.announce r cmd).dispatchSites origin r cmd, x.op.Succeeds)
            ∧ ¬ EchoesLineBreak cmd))
      ∧ (∀ (s : Server) (reqs : List Request) (outs : List Bytes),
        (∀ q ∈ reqs, q.version = version ∧ Protocol.Produced q.reading.env.float q.cmd
          ∧ ¬ EchoesLineBreak q.cmd) →
        replies origin s reqs = some outs →
          outs.length = reqs.length ∧ (∀ out ∈ outs, Value version.typed out)
            ∧ ∀ others : List Bytes, (∀ out ∈ others, Value version.typed out) →
              others.flatten = outs.flatten → others = outs)
      ∧ ∀ (aof : Option (List AofRecord)) (reqs : List Request), origin < 998 * 2 ^ 63 →
        Calm 0 reqs → (reqs.map Request.load).sum ≤ keyLimit →
        (∀ q ∈ reqs, q.version = version ∧ ¬ EchoesLineBreak q.cmd) →
          ∃ outs, replies origin (fresh aof) reqs = some outs ∧ outs.length = reqs.length
            ∧ ∀ out ∈ outs, Value version.typed out := by
  refine ⟨fun s r cmd hprod hseq => ?_, fun s reqs outs hq h => ?_, fun aof reqs ho hc hl hq => ?_⟩
  · have hiff := executeCommand_value_iff s r version hprod
    constructor
    · rintro ⟨out, hout, hvalue⟩
      refine ⟨?_, hiff.1 (attempt_eq_some hout ▸ hvalue)⟩
      by_contra hquiet
      rw [attempt_of_not_quiet hquiet] at hout
      cases hout
    · rintro ⟨hquiet, hecho⟩
      exact ⟨_, congrArg Prod.fst (attempt_of_quiet hquiet hseq), hiff.2 hecho⟩
  · obtain ⟨hlen, hvalues⟩ := replies_value hq h
    exact ⟨hlen, hvalues, fun others ho heq => Value.flatten_inj ho hvalues heq⟩
  · obtain ⟨outs, houts⟩ := replies_of_ready ho (fresh_ready aof) hc (by omega)
    exact ⟨outs, houts, replies_value (fun q hmem =>
      ⟨(hq q hmem).1, hc.produced q hmem, (hq q hmem).2⟩) houts⟩

def pingGet : List Request := [request (.ping none), request (.get (text "k"))]

theorem one_value_per_command_pingGet :
    (∃ out, ((fresh none).attempt 0 (Connection.steadyReading 1000) .resp2 (.get (text "k"))).1
        = some out ∧ Value false out)
      ∧ ∀ others : List Bytes, (∀ out ∈ others, Value false out) →
        others.flatten = (encodeSimpleString (text "PONG") ++ encodeNullBulk) →
          others = [encodeSimpleString (text "PONG"), encodeNullBulk] := by
  have hping : ¬ EchoesLineBreak (.ping none) := fun ⟨_, ht, _⟩ => by cases ht
  have hget : ¬ EchoesLineBreak (.get (text "k")) := fun ⟨_, ht, _⟩ => by cases ht
  have hprod : Protocol.Produced Connection.noFloat (.get (text "k")) :=
    ⟨encodeCommand [text "GET", text "k"], _, rfl⟩
  have hreqs : ∀ q ∈ pingGet, q.version = .resp2 ∧ Protocol.Produced q.reading.env.float q.cmd
      ∧ ¬ EchoesLineBreak q.cmd := by
    simp only [pingGet, List.forall_mem_cons]
    exact ⟨⟨rfl, request_produced [text "PING"] rfl, hping⟩, ⟨rfl, hprod, hget⟩, by simp⟩
  have hnone : ∀ x ∈ ((fresh none).announce (Connection.steadyReading 1000)
      (.get (text "k"))).dispatchSites 0 (Connection.steadyReading 1000) (.get (text "k")),
      x.op.Succeeds := by
    intro x hx
    cases hx
  refine ⟨((one_value_per_command 0 .resp2).1 (fresh none) (Connection.steadyReading 1000) _ hprod
    (by decide)).2 ⟨hnone, hget⟩, fun others ho heq => ?_⟩
  exact ((one_value_per_command 0 .resp2).2.1 (fresh none) pingGet
    [encodeSimpleString (text "PONG"), encodeNullBulk] hreqs rfl).2.2 others ho (by simpa using heq)

def brokenName : Bytes := text "x'\r\n+ok"

def brokenSet : Protocol.Command := .config (text "SET") [brokenName, text "1"]

/-- `CONFIG SET` of an unknown parameter shows its name, and the line break in it ends the error: the
reply is not one value but two. -/
theorem config_set_two_values :
    Protocol.Produced Connection.noFloat brokenSet
      ∧ ((fresh none).attempt 0 (Connection.steadyReading 1000) .resp2 brokenSet).1
        = some (encodeError (text "ERR Unknown parameter 'x'") ++ encodeSimpleString (text "ok'"))
      ∧ Value false (encodeError (text "ERR Unknown parameter 'x'"))
      ∧ Value false (encodeSimpleString (text "ok'"))
      ∧ ¬ Value false (encodeError (text "ERR Unknown parameter 'x'")
        ++ encodeSimpleString (text "ok'")) := by
  have hprod : Protocol.Produced Connection.noFloat brokenSet :=
    ⟨encodeCommand [text "CONFIG", text "SET", brokenName, text "1"], _, rfl⟩
  refine ⟨hprod, rfl, value_error_iff.2 (by decide), value_simple (by decide), fun h => ?_⟩
  have hiff : Value false _ ↔ _ :=
    executeCommand_value_iff (fresh none) (Connection.steadyReading 1000) .resp2 hprod
  exact hiff.1 h ⟨brokenName, rfl, by decide⟩

end FerrumKv.Server
