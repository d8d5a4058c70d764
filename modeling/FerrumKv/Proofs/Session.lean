import FerrumKv.Proofs.Connection
import FerrumKv.Session

/-!
# The authentication gate

A connection on a server with a password, whatever its client sends and however it is cut into reads:
as long as no `AUTH` carries the password, what it is sent in reply is a function of its own requests
alone, and the server is what the other clients make of it, unless a `MONITOR` is among the requests
(`auth_gate`). `MONITOR` is handled before the gate (`monitor_unauthenticated`).
-/

namespace FerrumKv

theorem foldl_or_eq_zero : ∀ (l : List (UInt8 × UInt8)) (acc : UInt8),
    l.foldl (fun diff p => diff ||| (p.1 ^^^ p.2)) acc = 0 ↔ acc = 0 ∧ ∀ p ∈ l, p.1 = p.2
  | [], acc => by simp
  | p :: l, acc => by
    rw [List.foldl_cons, foldl_or_eq_zero l, UInt8.or_eq_zero_iff, UInt8.xor_eq_zero_iff]
    simp [and_assoc]

theorem zip_eq_iff : ∀ {a b : Bytes}, a.length = b.length →
    ((∀ p ∈ a.zip b, p.1 = p.2) ↔ a = b)
  | [], [], _ => by simp
  | [], _ :: _, h => by simp at h
  | _ :: _, [], h => by simp at h
  | x :: a, y :: b, h => by
    have ih := zip_eq_iff (a := a) (b := b) (by simpa using h)
    rw [List.zip_cons_cons, List.forall_mem_cons, ih, List.cons.injEq]

/-- The comparison without an early exit is equality. -/
theorem constantTimeEq_iff {a b : Bytes} : Server.constantTimeEq a b = true ↔ a = b := by
  unfold Server.constantTimeEq
  split_ifs with h
  · refine iff_of_false (by simp) ?_
    rintro rfl
    exact h rfl
  · rw [decide_eq_true_iff, foldl_or_eq_zero, zip_eq_iff (not_not.1 h)]
    simp

namespace Connection

open Protocol Framing

/-- The other clients do not change the password. -/
def Surroundings.Keep (w : Surroundings) (pw : Bytes) : Prop :=
  ∀ i s, s.authPassword = some pw → (w.others i s).authPassword = some pw

/-- The server after the other clients have acted `n` times. -/
def undisturbed (w : Surroundings) (s : Server) : ℕ → Server
  | 0 => s
  | n + 1 => w.others n (undisturbed w s n)

namespace Session

/-! ## What a connection without the password comes to -/

/-- The commands that are not the connection's own. -/
def Gated : Protocol.Command → Prop
  | .auth _ | .hello _ | .monitor => False
  | _ => True

/-- What a request that is refused adds to the replies, from the version before it. -/
def refuse (debug : DebugText) (st : ProtocolVersion × Bytes) : Outcome → ProtocolVersion × Bytes
  | .command (.auth _) => (st.1, st.2 ++ wrongPass)
  | .command (.hello v) => (negotiate st.1 v, st.2 ++ helloReply (negotiate st.1 v))
  | .command .monitor => (st.1, st.2 ++ Server.ok)
  | .command _ => (st.1, st.2 ++ noAuth)
  | .invalid e => (st.1, st.2 ++ writeFerrumError (.ofCommand e))
  | .protocolError e => (st.1, st.2 ++ failureReply debug e)
  | .tooLarge => (st.1, st.2 ++ tooLarge)

/-- The replies to requests that are all refused, a function of the requests alone. -/
def refusals (debug : DebugText) (os : List Outcome) : ProtocolVersion × Bytes :=
  os.foldl (refuse debug) (.resp2, [])

/-- The server when one more request is handled that leaves it alone or subscribes. -/
def meet (w : Surroundings) (st : ℕ × Server) (o : Outcome) : ℕ × Server :=
  (st.1 + 1, if o = .command .monitor then (w.others st.1 st.2).subscribe else w.others st.1 st.2)

theorem meet_foldl (w : Surroundings) (s : Server) (os : List Outcome)
    (h : Outcome.command .monitor ∉ os) :
    os.foldl (meet w) (0, s) = (os.length, undisturbed w s os.length) := by
  induction os using List.reverseRecOn with
  | nil => rfl
  | append_singleton os o ih =>
    rw [List.mem_append, not_or] at h
    have ho : o ≠ .command .monitor := by
      rintro rfl
      exact h.2 (by simp)
    rw [List.foldl_append, ih h.1, List.foldl_cons, List.foldl_nil, meet, if_neg ho]
    simp [undisturbed]

/-- A session none of whose requests has authenticated it. -/
structure Refused (w : Surroundings) (pw : Bytes) (s₀ : Server) (os : List Outcome) (c : Session) :
    Prop where
  authed : c.authed = false
  password : c.server.authPassword = some pw
  sent : (c.version, c.sent) = refusals w.debug os
  server : (c.handled, c.server) = os.foldl (meet w) (0, s₀)
  channel : c.channel = none ↔ Outcome.command .monitor ∉ os

/-- A session and the requests it has handled. -/
structure Follows (w : Surroundings) (pw : Bytes) (s₀ : Server) (os : List Outcome) (c : Session) :
    Prop where
  accepted : Outcome.command (.auth pw) ∈ os → c.authed = true
  refused : Outcome.command (.auth pw) ∉ os → Refused w pw s₀ os c

section Step

variable {w : Surroundings} {pw : Bytes} {s₀ : Server} {os : List Outcome} {c : Session}

/-- A request that leaves the server alone and is answered as it is refused. -/
theorem Refused.send (hw : w.Keep pw) (h : Refused w pw s₀ os c) {o : Outcome} {version reply}
    (ho : o ≠ .command .monitor)
    (hr : refuse w.debug (c.version, c.sent) o = (version, c.sent ++ reply)) :
    Refused w pw s₀ (os ++ [o]) { (c.resume w).send reply with version := version } where
  authed := h.authed
  password := hw _ _ h.password
  sent := by
    rw [refusals, List.foldl_append, ← refusals, ← h.sent, List.foldl_cons, List.foldl_nil, hr]
    rfl
  server := by
    rw [List.foldl_append, ← h.server, List.foldl_cons, List.foldl_nil, meet, if_neg ho]
    rfl
  channel := by
    rw [List.mem_append, not_or, ← h.channel]
    simp [Session.send, resume, ho.symm]

theorem Refused.monitor (hw : w.Keep pw) (h : Refused w pw s₀ os c) :
    Refused w pw s₀ (os ++ [.command .monitor]) (c.resume w).monitor where
  authed := h.authed
  password := hw _ _ h.password
  sent := by
    rw [refusals, List.foldl_append, ← refusals, ← h.sent]
    rfl
  server := by
    rw [List.foldl_append, ← h.server, List.foldl_cons, List.foldl_nil, meet, if_pos rfl]
    rfl
  channel := by simp [Session.monitor]

theorem handleCommand_gated {cmd : Protocol.Command} (h : Gated cmd) (c : Session) (r : Reading) :
    c.handleCommand r cmd
      = if c.server.authRequired = true ∧ c.authed = false then (c.send noAuth, true)
        else (c.execute r cmd, true) := by
  cases cmd
  case auth | hello | monitor => exact h.elim
  all_goals rfl

theorem handleCommand_auth (c : Session) (r : Reading) (password : Bytes) :
    c.handleCommand r (.auth password) = (c.authReply password, true) := rfl

theorem refuse_gated {cmd : Protocol.Command} (h : Gated cmd) (debug : DebugText)
    (st : ProtocolVersion × Bytes) : refuse debug st (.command cmd) = (st.1, st.2 ++ noAuth) := by
  cases cmd
  case auth | hello | monitor => exact h.elim
  all_goals rfl

theorem gated_cases (cmd : Protocol.Command) :
    Gated cmd ∨ (∃ p, cmd = .auth p) ∨ (∃ v, cmd = .hello v) ∨ cmd = .monitor := by
  cases cmd
  case auth p => exact .inr (.inl ⟨p, rfl⟩)
  case hello v => exact .inr (.inr (.inl ⟨v, rfl⟩))
  case monitor => exact .inr (.inr (.inr rfl))
  all_goals exact .inl trivial

/-- `AUTH` succeeds exactly with the password, and says so. -/
theorem authReply_eq (h : c.server.authPassword = some pw) (password : Bytes) :
    c.authReply password
      = if password = pw then { c.send Server.ok with authed := true } else c.send wrongPass := by
  unfold authReply Server.authenticate
  rw [h]
  simp only []
  split_ifs with hp
  · rw [constantTimeEq_iff.2 hp]
  · rw [Bool.eq_false_iff.2 (constantTimeEq_iff.not.2 hp)]

theorem authed_handleCommand (h : c.authed = true) (r : Reading) (cmd : Protocol.Command) :
    (c.handleCommand r cmd).1.authed = true := by
  rcases gated_cases cmd with hg | ⟨p, rfl⟩ | ⟨v, rfl⟩ | rfl
  · rw [handleCommand_gated hg]
    split_ifs
    · exact h
    · exact h
  · rw [handleCommand_auth]
    unfold authReply
    split
    · rfl
    · exact h
    · exact h
  · exact h
  · exact h

theorem Refused.command (hw : w.Keep pw) (h : Refused w pw s₀ os c) (r : Reading)
    {cmd : Protocol.Command} (hc : cmd ≠ .auth pw) :
    Refused w pw s₀ (os ++ [.command cmd]) ((c.resume w).handleCommand r cmd).1 := by
  have hpw : (c.resume w).server.authPassword = some pw := hw _ _ h.password
  rcases gated_cases cmd with hg | ⟨p, rfl⟩ | ⟨v, rfl⟩ | rfl
  · have hreq : (c.resume w).server.authRequired = true := by simp [Server.authRequired, hpw]
    have hne : Outcome.command cmd ≠ .command .monitor := by
      rintro hcm
      cases hcm
      exact hg
    rw [handleCommand_gated hg, if_pos ⟨hreq, h.authed⟩]
    exact h.send hw hne (refuse_gated hg _ _)
  · have hp : p ≠ pw := by
      rintro rfl
      exact hc rfl
    rw [handleCommand_auth, authReply_eq hpw, if_neg hp]
    exact h.send hw nofun rfl
  · exact h.send hw nofun rfl
  · exact h.monitor hw

theorem Follows.command (hw : w.Keep pw) (h : Follows w pw s₀ os c) (r : Reading)
    (cmd : Protocol.Command) :
    Follows w pw s₀ (os ++ [.command cmd]) ((c.resume w).handleCommand r cmd).1 where
  accepted ha := by
    by_cases hos : Outcome.command (.auth pw) ∈ os
    · have hc : (c.resume w).authed = true := h.accepted hos
      exact authed_handleCommand hc r cmd
    · have hcmd : cmd = .auth pw := by
        rcases List.mem_append.1 ha with ha | ha
        · exact absurd ha hos
        · simpa using (List.mem_singleton.1 ha).symm
      have hpw : (c.resume w).server.authPassword = some pw := hw _ _ (h.refused hos).password
      rw [hcmd, handleCommand_auth, authReply_eq hpw, if_pos rfl]
  refused ha := by
    rw [List.mem_append, not_or] at ha
    refine (h.refused ha.1).command hw r ?_
    rintro rfl
    exact ha.2 (by simp)

theorem Follows.send (hw : w.Keep pw) (h : Follows w pw s₀ os c) {o : Outcome} {reply : Bytes}
    (ho : ∀ cmd, o ≠ .command cmd)
    (hr : refuse w.debug (c.version, c.sent) o = (c.version, c.sent ++ reply)) :
    Follows w pw s₀ (os ++ [o]) ((c.resume w).send reply) where
  accepted ha := by
    rcases List.mem_append.1 ha with ha | ha
    · exact h.accepted ha
    · exact absurd (List.mem_singleton.1 ha).symm (ho _)
  refused ha := by
    rw [List.mem_append, not_or] at ha
    exact (h.refused ha.1).send hw (ho _) hr

end Step

/-- The session of a connection and the outcomes of its requests, while the connection is read and
once it is closed: a `MONITOR` closes it. -/
theorem related (w : Surroundings) {pw : Bytes} (s₀ : Server) (hw : w.Keep pw) :
    Related recorder (handleClient w)
      (fun os c => Follows w pw s₀ os c ∧ Outcome.command .monitor ∉ os)
      (fun os c => Follows w pw s₀ os c ∧ Outcome.command .monitor ∉ os.dropLast) where
  go os c frame _ := by
    rcases frame with e | cmd
    · rfl
    · rcases gated_cases cmd with hg | ⟨p, rfl⟩ | ⟨v, rfl⟩ | rfl
      · have hne : cmd ≠ .monitor := by
          rintro rfl
          exact hg
        simp only [recorder, handleClient, handleCommand_gated hg, hne, ne_eq, not_false_eq_true,
          decide_true]
        split_ifs
        · rfl
        · rfl
      · rfl
      · rfl
      · rfl
  item os c frame h hgo := by
    rcases frame with e | cmd
    · exact ⟨h.1.send hw nofun rfl, by simpa [recorder] using h.2⟩
    · have hne : cmd ≠ .monitor := by simpa [recorder] using hgo
      exact ⟨h.1.command hw _ cmd, by simpa [recorder, hne.symm] using h.2⟩
  leave os c frame h hgo := by
    rcases frame with e | cmd
    · cases hgo
    · exact ⟨h.1.command hw _ cmd, by simpa [recorder] using h.2⟩
  stop os c e h := ⟨h.1.send hw nofun rfl, by simpa [recorder] using h.2⟩
  overflow os c h := ⟨h.1.send hw nofun rfl, by simpa [recorder] using h.2⟩

theorem follows_start {w : Surroundings} {pw : Bytes} {s₀ : Server}
    (h₀ : s₀.authPassword = some pw) : Follows w pw s₀ [] (start s₀) where
  accepted ha := absurd ha (by simp)
  refused _ := ⟨rfl, h₀, rfl, rfl, iff_of_true rfl (by simp)⟩

/-- The server is what the others make of it, and nothing is shown to the client but its replies,
exactly if it did not send a `MONITOR`. -/
theorem Refused.server_iff {w : Surroundings} {pw : Bytes} {s₀ : Server} {os : List Outcome}
    {c : Session} (h : Refused w pw s₀ os c) (hlast : Outcome.command .monitor ∉ os.dropLast) :
    (c.server = undisturbed w s₀ os.length ∧ ∀ later, c.delivered later = [])
      ↔ Outcome.command .monitor ∉ os := by
  constructor
  · rintro ⟨hserver, -⟩ hmem
    rcases List.eq_nil_or_concat os with rfl | ⟨init, o, rfl⟩
    · cases hmem
    · rw [List.concat_eq_append, List.dropLast_concat] at hlast
      rw [List.concat_eq_append] at hmem hserver
      have ho : o = .command .monitor := by
        rcases List.mem_append.1 hmem with hm | hm
        · exact absurd hm hlast
        · exact (List.mem_singleton.1 hm).symm
      have hc := congrArg Prod.snd h.server
      rw [List.concat_eq_append, List.foldl_append, meet_foldl w s₀ init hlast, List.foldl_cons,
        List.foldl_nil, meet, if_pos ho] at hc
      have hch := congrArg Server.channels (hc.symm.trans hserver)
      rw [List.length_append, List.length_singleton] at hch
      simp [undisturbed, Server.subscribe] at hch
  · intro hm
    have hs := h.server
    rw [meet_foldl w s₀ os hm, Prod.mk.injEq] at hs
    refine ⟨hs.2, fun later => ?_⟩
    rw [delivered, h.channel.2 hm]

/-- A connection on a server whose password is `pw` throughout, for everything its client sends and
every way it is read: it is authenticated exactly once an `AUTH` carried the password; until then what
it is sent is a function of its requests, and the server is left to the others and shows it nothing
exactly if there is no `MONITOR` among them. `AUTH` compares the bytes, and a session that is
authenticated executes every other command. -/
theorem auth_gate (float : FloatOps) {w : Surroundings} {pw : Bytes} {s₀ : Server} (hw : w.Keep pw)
    (h₀ : s₀.authPassword = some pw) :
    (∀ reads, ∃ os rest c, outcomes float reads = some (os, rest)
        ∧ serve float (handleClient w) (start s₀) reads = some (c, rest)
        ∧ (c.authed = true ↔ Outcome.command (.auth pw) ∈ os)
        ∧ (Outcome.command (.auth pw) ∉ os →
            c.sent = (refusals w.debug os).2
              ∧ ((c.server = undisturbed w s₀ os.length ∧ ∀ later, c.delivered later = [])
                  ↔ Outcome.command .monitor ∉ os)))
      ∧ (∀ (c : Session) r password, c.server.authPassword = some pw →
          c.handleCommand r (.auth password)
            = (if password = pw then { c.send Server.ok with authed := true } else c.send wrongPass,
                true))
      ∧ ∀ (c : Session) r cmd, c.authed = true → Gated cmd →
          c.handleCommand r cmd = (c.execute r cmd, true) := by
  refine ⟨fun reads => ?_, fun c r password hpw => ?_, fun c r cmd ha hg => ?_⟩
  · obtain ⟨os, c, rest, hos, hc, hrel⟩ := feedAll_related (verdict_stable float)
      (related w s₀ hw) readBufMax reads (some []) [] (start s₀) ⟨follows_start h₀, by simp⟩
    obtain ⟨hf, hlast⟩ : Follows w pw s₀ os c ∧ Outcome.command .monitor ∉ os.dropLast := by
      rcases rest with _ | rest
      · exact hrel
      · exact ⟨hrel.1, fun hm => hrel.2 (List.mem_of_mem_dropLast hm)⟩
    refine ⟨os, rest, c, hos, hc, ⟨fun ha => ?_, hf.accepted⟩, fun hn => ?_⟩
    · by_contra hn
      rw [(hf.refused hn).authed] at ha
      cases ha
    · have hr := hf.refused hn
      exact ⟨congrArg Prod.snd hr.sent, hr.server_iff hlast⟩
  · rw [handleCommand_auth, authReply_eq hpw]
  · rw [handleCommand_gated hg, if_neg (by simp [ha])]

end Session

/-! ## A client that monitors without the password -/

/-- Numbers that are never parsed, with the finite ones known. -/
def noFloat : FloatOps where
  parse _ := none
  add a _ := a
  isFinite := Binary64.isFinite
  render _ := []
  render_length _ := Nat.zero_le _

/-- Clocks that read `t`, a command that takes no time, and a writer that did nothing. -/
def steadyReading (t : ℕ) : Reading where
  env := { Env.steady t with float := noFloat }
  isFinite _ h := h
  monitorMs := Int64.ofInt t
  expireMs := Int64.ofInt t
  elapsedUs := 0
  tsSecs := t / 1000
  client := none
  spawnError := none
  aheAlpha := text "0.500"
  aheLastHitRatio := text "0.000"
  aofWriteErrors := 0
  aofFsyncs := 0
  aofFsyncSkips := 0
  aofAppendBatches := 0

/-- No other client acts while the requests are read. -/
def alone : Surroundings where
  debug := ⟨fun _ => [], fun _ => []⟩
  reading _ := steadyReading 0
  others _ s := s

def guarded : Server := { Server.new with authPassword := some (text "secret") }

def monitorRequest : List Bytes := [text "*1\r\n$7\r\nMONITOR\r\n"]

namespace Session

/-- A client that never authenticates sends `MONITOR`: it is registered, and then it is shown the
commands of the others with their values. -/
theorem monitor_unauthenticated :
    ∃ c, serve noFloat (handleClient alone) (start guarded) monitorRequest = some (c, none)
      ∧ c.authed = false ∧ guarded.monitors = [] ∧ c.server.monitors.length = 1
      ∧ c.delivered (c.server.executeCommand (steadyReading 0) .resp2 (.set [107] [118])).2
          ≠ c.delivered (c.server.executeCommand (steadyReading 0) .resp2 (.set [107] [119])).2 := by
  refine ⟨_, rfl, rfl, rfl, rfl, ?_⟩
  decide

theorem auth_gate_alone :
    ∃ os rest c, outcomes noFloat [text "*1\r\n$6\r\nDBSIZE\r\n"] = some (os, rest)
      ∧ serve noFloat (handleClient alone) (start guarded) [text "*1\r\n$6\r\nDBSIZE\r\n"]
          = some (c, rest)
      ∧ (c.authed = true ↔ Outcome.command (.auth (text "secret")) ∈ os)
      ∧ (Outcome.command (.auth (text "secret")) ∉ os →
          c.sent = (refusals alone.debug os).2
            ∧ ((c.server = undisturbed alone guarded os.length ∧ ∀ later, c.delivered later = [])
                ↔ Outcome.command .monitor ∉ os)) :=
  have hkeep : alone.Keep (text "secret") := fun _ _ h => h
  have hpw : guarded.authPassword = some (text "secret") := rfl
  (auth_gate noFloat hkeep hpw).1 _

end Session

end Connection

end FerrumKv
